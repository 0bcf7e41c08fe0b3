import Mathlib.Data.List.Pairwise

/-! Loops that visit entries until a visit answers with a negative number. One loop over a list
leaves off there; of two nested loops a break leaves the inner one alone, which comes to the
same when no later list holds an entry. -/
namespace LibProc.VisitLoops

variable {S A : Type} {visit : S → A → Int × S}

def loop (visit : S → A → Int × S) : List A → S → List A × S
  | [],s => ([],s)
  | x :: rest,s =>
    let now := visit s x
    if now.1 < 0 then ([x],now.2)
    else
      let later := loop visit rest now.2
      (x :: later.1,later.2)

def nested (visit : S → A → Int × S) : List (List A) → S → List A × S
  | [],s => ([],s)
  | chain :: rest,s =>
    let now := loop visit chain s
    let later := nested visit rest now.2
    (now.1 ++ later.1,later.2)

inductive Visits (visit : S → A → Int × S) : S → List A → List A → S → Prop where
  | done (s : S) : Visits visit s [] [] s
  | stop {s : S} {x : A} (rest : List A) (negative : (visit s x).1 < 0) : Visits visit s (x :: rest) [x] (visit s x).2
  | next {s s' : S} {x : A} {rest visited : List A} (good : 0 ≤ (visit s x).1)
      (more : Visits visit (visit s x).2 rest visited s') : Visits visit s (x :: rest) (x :: visited) s'

def quiet (visit : S → A → Int × S) : List A → S → Option S
  | [],s => some s
  | x :: rest,s => if (visit s x).1 < 0 then none else quiet visit rest (visit s x).2

def StopsLast {G : Type} (visit : S → A → Int × S) (group : A → G) (s : S) (entries : List A) : Prop :=
  ∀ before x after, entries = before ++ x :: after → ∀ s', quiet visit before s = some s' → (visit s' x).1 < 0 →
    ∀ y ∈ after, group y = group x

theorem loopNext {x : A} {s : S} (good : ¬(visit s x).1 < 0) (rest : List A) :
    loop visit (x :: rest) s = (x :: (loop visit rest (visit s x).2).1,(loop visit rest (visit s x).2).2) := by
  rw [loop, if_neg good]

theorem loopVisits (visit : S → A → Int × S) (entries : List A) (s : S) :
    Visits visit s entries (loop visit entries s).1 (loop visit entries s).2 := by
  induction entries generalizing s with
  | nil => exact .done s
  | cons x rest ih =>
    rw [loop]
    by_cases negative : (visit s x).1 < 0
    · rw [if_pos negative]
      exact .stop rest negative
    · rw [if_neg negative]
      exact .next (Int.not_lt.mp negative) (ih _)

theorem Visits.unique {s s' : S} {entries visited : List A} (visits : Visits visit s entries visited s') :
    loop visit entries s = (visited,s') := by
  induction visits with
  | done s => rfl
  | stop rest negative => rw [loop, if_pos negative]
  | next good more ih => rw [loopNext (Int.not_lt.mpr good), ih]

theorem Visits.first {s s' : S} {entries visited : List A} (visits : Visits visit s entries visited s') :
    visited.IsPrefix entries := by
  induction visits with
  | done s => exact List.prefix_refl _
  | stop rest negative => exact ⟨rest,rfl⟩
  | next good more ih => exact List.cons_prefix_cons.mpr ⟨rfl,ih⟩

theorem quietLoop {entries : List A} {s s' : S} (still : quiet visit entries s = some s') :
    loop visit entries s = (entries,s') := by
  induction entries generalizing s with
  | nil =>
    cases still
    rfl
  | cons x rest ih =>
    rw [quiet] at still
    split at still
    · cases still
    · rename_i good
      rw [loopNext good, ih still]

theorem loopAppend {entries : List A} {s s' : S} (still : quiet visit entries s = some s') (more : List A) :
    (loop visit (entries ++ more) s).1 = entries ++ (loop visit more s').1 := by
  induction entries generalizing s with
  | nil =>
    cases still
    rfl
  | cons x rest ih =>
    rw [quiet] at still
    split at still
    · cases still
    · rename_i good
      rw [List.cons_append, loopNext good, List.cons_append, ih still]

theorem quietAppend {entries : List A} {s s' : S} (still : quiet visit entries s = some s') (more : List A) :
    quiet visit (entries ++ more) s = quiet visit more s' := by
  induction entries generalizing s with
  | nil =>
    cases still
    rfl
  | cons x rest ih =>
    rw [quiet] at still
    split at still
    · cases still
    · rename_i good
      rw [List.cons_append, quiet, if_neg good, ih still]

theorem loudSplit {entries : List A} {s : S} (loud : quiet visit entries s = none) :
    ∃ before x after s', entries = before ++ x :: after ∧ quiet visit before s = some s' ∧ (visit s' x).1 < 0 ∧
      ∀ more, (loop visit (entries ++ more) s).1 = before ++ [x] := by
  induction entries generalizing s with
  | nil => cases loud
  | cons x rest ih =>
    rw [quiet] at loud
    split at loud
    · rename_i negative
      refine ⟨[],x,rest,s,rfl,rfl,negative,fun more => ?_⟩
      rw [List.cons_append, loop, if_pos negative, List.nil_append]
    · rename_i good
      obtain ⟨before,y,after,s',rfl,still,negative,ends⟩ := ih loud
      refine ⟨x :: before,y,after,s',rfl,?_,negative,fun more => ?_⟩
      · rw [quiet, if_neg good, still]
      · rw [List.cons_append, loopNext good, ends, List.cons_append]

theorem nestedNone {chains : List (List A)} {s : S} : (nested visit chains s).1 = [] ↔ chains.flatten = [] := by
  induction chains generalizing s with
  | nil => exact Iff.rfl
  | cons chain rest ih =>
    rw [nested, List.flatten_cons, List.append_eq_nil_iff, List.append_eq_nil_iff, ih]
    refine and_congr_left fun _ => ?_
    cases chain with
    | nil => exact Iff.rfl
    | cons x more =>
      rw [loop]
      split <;> simp

theorem StopsLast.quiet {G : Type} {group : A → G} {entries more : List A} {s s' : S}
    (still : VisitLoops.quiet visit entries s = some s') :
    StopsLast visit group s (entries ++ more) ↔ StopsLast visit group s' more := by
  constructor
  · intro last before x after is s'' still' negative
    exact last (entries ++ before) x after (by rw [is, List.append_assoc]) s'' (by rw [quietAppend still, still']) negative
  · intro last before x after is s'' still' negative
    rcases List.append_eq_append_iff.mp is with ⟨between,rfl,rfl⟩ | ⟨between,rfl,later⟩
    · rw [quietAppend still] at still'
      exact last between x after rfl s'' still' negative
    · cases between with
      | nil =>
        rw [List.append_nil] at still
        rw [still] at still'
        cases still'
        exact last [] x after later.symm s' rfl negative
      | cons y between =>
        rw [List.cons_append, List.cons.injEq] at later
        obtain ⟨rfl,-⟩ := later
        rw [quietAppend still', VisitLoops.quiet, if_pos negative] at still
        cases still

/- The groups are the lists: the nested loops visit what one loop over all entries would, just when
whatever follows an entry that asks to stop is on its own list. -/
theorem nestedIff {G : Type} {group : A → G} {chains : List (List A)}
    (alike : ∀ chain ∈ chains, ∀ x ∈ chain, ∀ y ∈ chain, group x = group y)
    (apart : chains.Pairwise fun first second => ∀ x ∈ first, ∀ y ∈ second, group y ≠ group x) (s : S) :
    (nested visit chains s).1 = (loop visit chains.flatten s).1 ↔ StopsLast visit group s chains.flatten := by
  induction chains generalizing s with
  | nil => exact iff_of_true rfl fun before x after is => by simp at is
  | cons chain rest ih =>
    obtain ⟨own,others⟩ := List.forall_mem_cons.mp alike
    obtain ⟨away,among⟩ := List.pairwise_cons.mp apart
    rw [nested, List.flatten_cons]
    cases still : quiet visit chain s with
    | some s' =>
      rw [quietLoop still, loopAppend still, StopsLast.quiet still, List.append_cancel_left_eq]
      exact ih others among s'
    | none =>
      obtain ⟨before,x,after,s',rfl,quiet_,negative,ends⟩ := loudSplit still
      have whole := ends []
      rw [List.append_nil] at whole
      rw [ends, whole, List.append_right_eq_self, nestedNone]
      constructor
      · intro none before' y after' is s'' still' negative' z member
        rw [none, List.append_nil] at is
        exact own z (is ▸ List.mem_append_right _ (List.mem_cons_of_mem _ member)) y
          (is ▸ List.mem_append_right _ List.mem_cons_self)
      · intro last
        rw [List.eq_nil_iff_forall_not_mem]
        intro y member
        obtain ⟨other,inside,there⟩ := List.mem_flatten.mp member
        have same := last before x (after ++ rest.flatten) (by simp) s' quiet_ negative y (List.mem_append_right _ member)
        exact away other inside x (List.mem_append_right _ List.mem_cons_self) y there same

end LibProc.VisitLoops
