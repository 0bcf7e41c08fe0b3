import Mathlib.Data.List.Basic
import Mathlib.Tactic.Linarith

/-! Semaphores of a list of processes that move one at a time. One is used as a lock: a process
owns it from the wait it passes to its own post, and the value and the owners together never
exceed one as long as only an owner posts. The other counts: its tokens are its value and the
posts still to be made. -/
namespace LibProc.Semaphore

variable {P : Type} {owns : P → Bool} {value : Nat} {procs : List P} {i j : Nat} {old new : P}

def owners (owns : P → Bool) (procs : List P) : Nat := procs.countP owns

def Balanced (owns : P → Bool) (value : Nat) (procs : List P) : Prop := value + owners owns procs ≤ 1

theorem ownersSet (here : procs[i]? = some old) :
    owners owns (procs.set i new) + (if owns old then 1 else 0) =
      owners owns procs + if owns new then 1 else 0 := by
  obtain ⟨inside,same⟩ := List.getElem?_eq_some_iff.mp here
  have counted : (if owns old then 1 else 0) ≤ owners owns procs := by
    split
    · rename_i own
      exact List.countP_pos_iff.mpr ⟨old,List.mem_of_getElem? here,own⟩
    · exact Nat.zero_le _
  rw [owners] at *
  rw [owners, List.countP_set inside, same]
  omega

theorem ownersAppend (own : owns new = false) : owners owns (procs ++ [new]) = owners owns procs := by
  simp [owners,own]

theorem owner (here : procs[i]? = some old) (own : owns old = true) : 0 < owners owns procs :=
  List.countP_pos_iff.mpr ⟨old,List.mem_of_getElem? here,own⟩

theorem Balanced.keep (balanced : Balanced owns value procs) (here : procs[i]? = some old)
    (less : owns new = true → owns old = true) : Balanced owns value (procs.set i new) := by
  have count : owners owns (procs.set i new) + (if owns old then 1 else 0) =
      owners owns procs + if owns new then 1 else 0 := ownersSet here
  rw [Balanced] at *
  by_cases own : owns new = true
  · rw [if_pos own, if_pos (less own)] at count
    omega
  · rw [if_neg own] at count
    omega

theorem Balanced.wait (balanced : Balanced owns value procs) (here : procs[i]? = some old)
    (positive : 0 < value) : Balanced owns (value - 1) (procs.set i new) := by
  have count : owners owns (procs.set i new) + (if owns old then 1 else 0) =
      owners owns procs + if owns new then 1 else 0 := ownersSet here
  have one : (if owns new then 1 else 0) ≤ 1 := by split <;> omega
  rw [Balanced] at *
  omega

theorem Balanced.post (balanced : Balanced owns value procs) (here : procs[i]? = some old)
    (own : owns old = true) (free : owns new = false) :
    Balanced owns (value + 1) (procs.set i new) := by
  have count : owners owns (procs.set i new) + (if owns old then 1 else 0) =
      owners owns procs + if owns new then 1 else 0 := ownersSet here
  rw [if_pos own, free] at count
  rw [Balanced] at *
  simp only [Bool.false_eq_true,if_false] at count
  omega

theorem ownersTwo {a b : P} (left : procs[i]? = some a) (right : procs[j]? = some b)
    (ownsA : owns a = true) (ownsB : owns b = true) (different : i ≠ j) : 2 ≤ owners owns procs := by
  induction procs generalizing i j with
  | nil => simp at left
  | cons head tail ih =>
    have step : owners owns (head :: tail) = owners owns tail + if owns head then 1 else 0 :=
      List.countP_cons
    rw [step]
    cases i with
    | zero =>
      cases j with
      | zero => exact absurd rfl different
      | succ j =>
        rw [List.getElem?_cons_zero, Option.some.injEq] at left
        rw [List.getElem?_cons_succ] at right
        have more : 0 < owners owns tail := owner right ownsB
        rw [left, if_pos ownsA]
        omega
    | succ i =>
      cases j with
      | zero =>
        rw [List.getElem?_cons_zero, Option.some.injEq] at right
        rw [List.getElem?_cons_succ] at left
        have more : 0 < owners owns tail := owner left ownsA
        rw [right, if_pos ownsB]
        omega
      | succ j =>
        rw [List.getElem?_cons_succ] at left right
        have more := ih left right (by omega)
        omega

theorem Balanced.unique (balanced : Balanced owns value procs) {a b : P} (left : procs[i]? = some a)
    (right : procs[j]? = some b) (ownsA : owns a = true) (ownsB : owns b = true) : i = j := by
  by_contra different
  have two := ownersTwo left right ownsA ownsB different
  rw [Balanced] at balanced
  omega

def tokens (left : P → Nat) (value : Nat) (procs : List P) : Nat := value + (procs.map left).sum

variable {left : P → Nat}

theorem tokensMove {value' : Nat} (here : procs[i]? = some old) :
    tokens left value' (procs.set i new) + (value + left old) = tokens left value procs + (value' + left new) := by
  have sums : ((procs.set i new).map left).sum + left old = (procs.map left).sum + left new := by
    induction procs generalizing i with
    | nil => simp at here
    | cons head tail ih =>
      cases i with
      | zero =>
        rw [List.getElem?_cons_zero, Option.some.injEq] at here
        simp only [List.set_cons_zero,List.map_cons,List.sum_cons,here]
        omega
      | succ i =>
        rw [List.getElem?_cons_succ] at here
        simp only [List.set_cons_succ,List.map_cons,List.sum_cons]
        have rest := ih here
        omega
  rw [tokens, tokens]
  omega

theorem tokensSettled (none : ∀ proc ∈ procs, left proc = 0) : tokens left value procs = value := by
  have zero : (procs.map left).sum = 0 := by
    rw [List.sum_eq_zero_iff_forall_eq_nat]
    intro count member
    obtain ⟨proc,among,same⟩ := List.mem_map.mp member
    rw [← same]
    exact none proc among
  rw [tokens, zero, Nat.add_zero]

theorem anyMoves {f : P → Bool} (some : procs.any f = true) (here : procs[i]? = .some old)
    (keeps : f old = true → f new = true) : (procs.set i new).any f = true := by
  obtain ⟨proc,member,is⟩ := List.any_eq_true.mp some
  obtain ⟨j,there⟩ := List.mem_iff_getElem?.mp member
  by_cases same : j = i
  · rw [same, here, Option.some.injEq] at there
    exact List.any_eq_true.mpr ⟨new,List.mem_set (List.getElem?_eq_some_iff.mp here).1 new,keeps (there ▸ is)⟩
  · refine List.any_eq_true.mpr ⟨proc,@List.mem_of_getElem? _ _ j _ ?_,is⟩
    rwa [List.getElem?_set_ne (Ne.symm same)]

theorem anyMoved {f : P → Bool} (here : procs[i]? = some old) (is : f new = true) :
    (procs.set i new).any f = true :=
  List.any_eq_true.mpr ⟨new,List.mem_set (List.getElem?_eq_some_iff.mp here).1 new,is⟩

theorem allMoves {f : P → Bool} (all : procs.all f = true) (is : f new = true) : (procs.set i new).all f = true := by
  rw [List.all_eq_true] at *
  intro proc member
  rcases List.mem_or_eq_of_mem_set member with old | rfl
  · exact all proc old
  · exact is

end LibProc.Semaphore
