import Mathlib.Data.List.Basic
import Mathlib.Tactic.Linarith

/-! Folding over the blocks of a list. What does not fill a block is left over, and may be given in
front of what comes later: a list that comes in pieces is folded as the whole list is. -/
namespace LibProc.BlockFold

variable {A S : Type} {f : S → List A → S} {n : Nat}

def blocks (f : S → List A → S) (n : Nat) (s : S) (l : List A) : S :=
  (List.range (l.length / n)).foldl (fun s k => f s ((l.drop (n * k)).take n)) s

def left (n : Nat) (l : List A) : List A := l.drop (n * (l.length / n))

theorem blocksShort {l : List A} (short : l.length < n) (s : S) : blocks f n s l = s := by
  rw [blocks, Nat.div_eq_of_lt short]
  rfl

theorem leftShort {l : List A} (short : l.length < n) : left n l = l := by
  rw [left, Nat.div_eq_of_lt short]
  rfl

@[simp] theorem leftLength (l : List A) : (left n l).length = l.length % n := by
  rw [left, List.length_drop]
  have whole := Nat.div_add_mod l.length n
  omega

theorem leftLess (some_ : 0 < n) (l : List A) : (left n l).length < n := by
  rw [leftLength]
  exact Nat.mod_lt _ some_

theorem nextBlock (k : Nat) : n * (k + 1) = n + n * k := by rw [Nat.mul_succ, Nat.add_comm]

theorem lengthStep (some_ : 0 < n) {a b : List A} (size : a.length = n) : (a ++ b).length / n = b.length / n + 1 := by
  rw [List.length_append, size, Nat.add_comm, Nat.add_div_right _ some_]

theorem blocksStep (some_ : 0 < n) {a b : List A} (size : a.length = n) (s : S) :
    blocks f n s (a ++ b) = blocks f n (f s a) b := by
  rw [blocks, lengthStep some_ size, List.range_succ_eq_map, List.foldl_cons, List.foldl_map, blocks]
  have first : ((a ++ b).drop (n * 0)).take n = a := by
    rw [Nat.mul_zero, List.drop_zero, ← size, List.take_left]
  rw [first]
  have later : ∀ k, ((a ++ b).drop (n * (k + 1))).take n = (b.drop (n * k)).take n := by
    intro k
    rw [nextBlock, ← List.drop_drop, ← size, List.drop_left]
  simp only [Nat.succ_eq_add_one,later]

theorem leftStep (some_ : 0 < n) {a b : List A} (size : a.length = n) : left n (a ++ b) = left n b := by
  have skip : (a ++ b).drop n = b := by rw [← size, List.drop_left]
  rw [left, lengthStep some_ size, nextBlock, ← List.drop_drop, skip, left]

theorem wholeFirst (some_ : 0 < n) (q : Nat) {a : List A} (size : a.length = n * q) (b : List A) (s : S) :
    blocks f n s (a ++ b) = blocks f n (blocks f n s a) b ∧ left n (a ++ b) = left n b := by
  induction q generalizing a s with
  | zero =>
    have none : a = [] := List.eq_nil_of_length_eq_zero (by rw [size, Nat.mul_zero])
    subst none
    rw [blocksShort (l := []) some_]
    exact ⟨rfl,rfl⟩
  | succ q ih =>
    have more := nextBlock (n := n) q
    have front : (a.take n).length = n := by
      rw [List.length_take, size]
      omega
    have behind : (a.drop n).length = n * q := by
      rw [List.length_drop, size]
      omega
    obtain ⟨folded,rest⟩ := ih behind (f s (a.take n))
    have cut : a = a.take n ++ a.drop n := (List.take_append_drop n a).symm
    constructor
    · rw [cut, List.append_assoc, blocksStep some_ front, blocksStep some_ front, folded]
    · rw [cut, List.append_assoc, leftStep some_ front, rest]

/- A list in two pieces. What the first leaves goes in front of the second. -/
theorem pieces (some_ : 0 < n) (a b : List A) (s : S) :
    blocks f n s (a ++ b) = blocks f n (blocks f n s a) (left n a ++ b) ∧ left n (a ++ b) = left n (left n a ++ b) := by
  have cut : a = a.take (n * (a.length / n)) ++ left n a := (List.take_append_drop _ a).symm
  have size : (a.take (n * (a.length / n))).length = n * (a.length / n) := by
    rw [List.length_take]
    exact Nat.min_eq_left (Nat.mul_div_le _ _)
  obtain ⟨folded,rest⟩ := wholeFirst (f := f) some_ _ size (left n a ++ b) s
  obtain ⟨alone,-⟩ := wholeFirst (f := f) some_ _ size (left n a) s
  rw [← cut, blocksShort (leftLess some_ a)] at alone
  rw [← List.append_assoc, ← cut] at folded rest
  rw [alone]
  exact ⟨folded,rest⟩

end LibProc.BlockFold
