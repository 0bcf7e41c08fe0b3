import Mathlib.Data.List.Perm.Basic
import Mathlib.Logic.Function.Basic

/-! A ledger of what was put under keys: each entry is closed at most once, with the way it ended,
and each key has at most one open entry, the value a table has there. What the closed entries
are due grows by what one entry is due each time one is closed. -/
namespace LibProc.Ledgers

structure Entry (K α E : Type) where
  key : K
  value : α
  ending : Option E
  deriving DecidableEq, Repr

variable {K α E L : Type}

def Entry.opens [DecidableEq K] (entry : Entry K α E) (k : K) : Bool := decide (entry.key = k) && entry.ending.isNone

def close (p : K → Bool) (how : E) (ledger : List (Entry K α E)) : List (Entry K α E) :=
  ledger.map fun entry => if entry.ending.isNone && p entry.key then { entry with ending := some how } else entry

def sweep (table : K → Option α) (how : E) (ledger : List (Entry K α E)) : List (Entry K α E) :=
  close (fun k => (table k).isNone) how ledger

def Entry.due (due : K → α → E → List L) (entry : Entry K α E) : List L :=
  match entry.ending with
  | none => []
  | some how => due entry.key entry.value how

def owed (due : K → α → E → List L) (ledger : List (Entry K α E)) : List L := ledger.flatMap (Entry.due due)

def Current [DecidableEq K] (ledger : List (Entry K α E)) (table : K → Option α) : Prop :=
  ∀ k, (ledger.filter fun entry => entry.opens k).map Entry.value = (table k).toList

section
variable [DecidableEq K] {ledger : List (Entry K α E)} {table : K → Option α} {p q : K → Bool} {how : E} {k : K} {v : α}
  {due : K → α → E → List L}

theorem Current.opened (current : Current ledger table) {entry : Entry K α E} (member : entry ∈ ledger)
    (open_ : entry.ending = none) : table entry.key = some entry.value := by
  have inside : entry.value ∈ (ledger.filter fun other => other.opens entry.key).map Entry.value :=
    List.mem_map_of_mem (List.mem_filter.mpr ⟨member,by rw [Entry.opens, open_, decide_eq_true rfl]; rfl⟩)
  rw [current entry.key, Option.mem_toList] at inside
  exact inside

theorem closeNone (current : Current ledger table) (none_ : ∀ k, p k = true → table k = none) :
    close p how ledger = ledger := by
  refine (List.map_congr_left fun entry member => ?_).trans (List.map_id ledger)
  refine if_neg fun both => ?_
  rw [Bool.and_eq_true, Option.isNone_iff_eq_none] at both
  have there := current.opened member both.1
  rw [none_ entry.key both.2] at there
  cases there

omit [DecidableEq K] in
theorem closeClose (within : ∀ k, p k = true → q k = true) : close q how (close p how ledger) = close q how ledger := by
  rw [close, close, close, List.map_map]
  refine List.map_congr_left fun entry _ => ?_
  rw [Function.comp_apply]
  by_cases first : (entry.ending.isNone && p entry.key) = true
  · rw [if_pos first]
    rw [Bool.and_eq_true] at first
    rw [if_neg (fun both => by cases both), first.1, within entry.key first.2]
    rfl
  · rw [if_neg first]

omit [DecidableEq K] in
theorem closeOwed {entry : Entry K α E}
    (one : (ledger.filter fun other => other.ending.isNone && p other.key) = [entry]) :
    (owed due (close p how ledger)).Perm (owed due ledger ++ due entry.key entry.value how) := by
  induction ledger with
  | nil => cases one
  | cons other rest ih =>
    simp only [close,owed,List.map_cons,List.flatMap_cons]
    by_cases here : (other.ending.isNone && p other.key) = true
    · rw [List.filter_cons, if_pos here] at one
      obtain ⟨rfl,none_⟩ := List.cons.inj one
      have rest_ : (rest.map fun entry => if entry.ending.isNone && p entry.key then { entry with ending := some how } else entry) =
          rest := by
        refine (List.map_congr_left fun entry member => ?_).trans (List.map_id rest)
        exact if_neg (List.filter_eq_nil_iff.mp none_ entry member)
      rw [if_pos here, rest_]
      rw [Bool.and_eq_true, Option.isNone_iff_eq_none] at here
      have none_ : other.due due = [] := by
        rw [Entry.due, here.1]
      rw [none_, List.nil_append]
      exact List.perm_append_comm
    · rw [List.filter_cons, if_neg here] at one
      rw [if_neg here, List.append_assoc]
      exact List.Perm.append_left _ (ih one)

theorem openClose : (close p how ledger).filter (fun entry => entry.opens k) =
    if p k then [] else ledger.filter fun entry => entry.opens k := by
  induction ledger with
  | nil => simp [close]
  | cons entry rest ih =>
    rw [close, List.map_cons, List.filter_cons]
    rw [close] at ih
    rw [ih]
    by_cases open_ : entry.opens k = true
    · have whole := open_
      rw [Entry.opens, Bool.and_eq_true, decide_eq_true_eq] at open_
      rw [open_.1, open_.2, Bool.true_and]
      by_cases asked : p k = true
      · simp [asked,Entry.opens]
      · simp [asked,whole]
    · have still : ¬Entry.opens (if entry.ending.isNone && p entry.key then { entry with ending := some how } else entry) k =
          true := by
        split
        · simp [Entry.opens]
        · exact open_
      rw [if_neg still, List.filter_cons, if_neg open_]

theorem openOnly (current : Current ledger table) (there : table k = some v)
    (only : ∀ other, p other = true → other = k ∨ table other = none) (own : p k = true) :
    ∃ entry, (ledger.filter fun other => other.ending.isNone && p other.key) = [entry] ∧ entry.key = k ∧ entry.value = v := by
  have same : (ledger.filter fun other => other.ending.isNone && p other.key) = ledger.filter fun other => other.opens k := by
    refine List.filter_congr fun entry member => ?_
    rw [Entry.opens, Bool.and_comm]
    cases open_ : entry.ending with
    | some how => simp
    | none =>
      rw [Option.isNone_none, Bool.and_true, Bool.and_true]
      by_cases here : entry.key = k
      · rw [decide_eq_true here, here, own]
      · rw [decide_eq_false here, Bool.eq_false_iff]
        intro asked
        have at_ := current.opened member open_
        rw [(only entry.key asked).resolve_left here] at at_
        cases at_
  have values := current k
  rw [there, Option.toList_some] at values
  obtain ⟨entry,single,value⟩ := List.map_eq_singleton_iff.mp values
  have member : entry ∈ ledger.filter fun other => other.opens k := by rw [single]; exact List.mem_singleton_self _
  have opens := (List.mem_filter.mp member).2
  rw [Entry.opens, Bool.and_eq_true, decide_eq_true_eq] at opens
  exact ⟨entry,same.trans single,opens.1,value⟩

theorem closeOne (current : Current ledger table) (there : table k = some v)
    (only : ∀ other, p other = true → other = k ∨ table other = none) (own : p k = true) (how : E)
    (due : K → α → E → List L) :
    (owed due (close p how ledger)).Perm (owed due ledger ++ due k v how) ∧
      Current (close p how ledger) (Function.update table k none) := by
  obtain ⟨entry,one,rfl,rfl⟩ := openOnly current there only own
  refine ⟨closeOwed one,fun other => ?_⟩
  rw [openClose]
  by_cases asked : p other = true
  · rw [if_pos asked]
    rcases only other asked with rfl | none_
    · rw [Function.update_self]
      rfl
    · by_cases here : other = entry.key
      · rw [here, Function.update_self]
        rfl
      · rw [Function.update_of_ne here, none_]
        rfl
  · have apart : other ≠ entry.key := fun same => asked (same ▸ own)
    rw [if_neg asked, Function.update_of_ne apart]
    exact current other

theorem sweepSame (current : Current ledger table) (how : E) : sweep table how ledger = ledger :=
  closeNone current fun _ gone => Option.isNone_iff_eq_none.mp gone

theorem sweepOne (current : Current ledger table) (there : table k = some v) (how : E) (due : K → α → E → List L) :
    (owed due (sweep (Function.update table k none) how ledger)).Perm (owed due ledger ++ due k v how) ∧
      Current (sweep (Function.update table k none) how ledger) (Function.update table k none) := by
  refine closeOne current there (fun other gone => ?_) (by rw [Function.update_self]; rfl) how due
  by_cases own : other = k
  · exact .inl own
  · rw [Function.update_of_ne own] at gone
    exact .inr (Option.isNone_iff_eq_none.mp gone)

theorem currentAppend (current : Current ledger table) (none_ : table k = none) (v : α) :
    Current (ledger ++ [⟨k,v,none⟩]) (Function.update table k (some v)) := by
  intro other
  rw [List.filter_append, List.map_append, current other]
  by_cases own : other = k
  · subst own
    rw [none_, Function.update_self]
    simp [Entry.opens]
  · rw [Function.update_of_ne own]
    simp [Entry.opens,Ne.symm own]

omit [DecidableEq K] in
theorem owedAppend (v : α) : owed due (ledger ++ [⟨k,v,none⟩]) = owed due ledger := by
  simp [owed,Entry.due]

end
end LibProc.Ledgers
