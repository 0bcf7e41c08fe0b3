import Mathlib.Data.List.Iterate
import Mathlib.Data.List.Nodup
import Mathlib.Data.Nat.ModEq
import Mathlib.Logic.Function.Iterate

/-! Loops that go once around a cycle: do a body at each place, go on to the next place, and
stop when the place is the first one again or when there is nothing more to do. What the body
keeps along the places that are left, and a stop does not need, holds at the end. -/
namespace LibProc.CyclicLoops

variable {α σ : Type}

/- The fuel bounds the turns; a body without a result has none either. -/
def doWhile [DecidableEq α] (next : α → α) (start : α) (more : σ → Bool) (body : α → σ → Option σ) :
    Nat → α → σ → Option σ
  | 0, _, _ => none
  | fuel + 1, place, s => do
    let s ← body place s
    if more s && decide (next place ≠ start) then doWhile next start more body fuel (next place) s else some s

structure Cycle (next : α → α) (start : α) (n : Nat) : Prop where
  some : 0 < n
  closes : next^[n] start = start
  first : ∀ k, 0 < k → k < n → next^[k] start ≠ start

variable [DecidableEq α] {next : α → α} {start : α} {n : Nat} {more : σ → Bool} {body : α → σ → Option σ}
  (Inv : List α → σ → Prop)

theorem doWhileFrom (cycle : Cycle next start n)
    (turn : ∀ place rest s, Inv (place :: rest) s → ∃ s', body place s = some s' ∧ Inv rest s')
    (stop : ∀ rest s, Inv rest s → more s = false → Inv [] s) (left : Nat) :
    ∀ k s fuel, k + (left + 1) = n → left < fuel → Inv (List.iterate next (next^[k] start) (left + 1)) s →
      ∃ s', doWhile next start more body fuel (next^[k] start) s = some s' ∧ Inv [] s' := by
  induction left with
  | zero =>
    intro k s fuel whole enough inv
    obtain ⟨f,rfl⟩ : ∃ f, fuel = f + 1 := ⟨fuel - 1,by omega⟩
    obtain ⟨s',does,done⟩ := turn _ _ _ inv
    have back : next (next^[k] start) = start := by
      rw [← Function.iterate_succ_apply' next k start, show k.succ = n by omega]
      exact cycle.closes
    exact ⟨s',by simp [doWhile, does, back],done⟩
  | succ left ih =>
    intro k s fuel whole enough inv
    obtain ⟨f,rfl⟩ : ∃ f, fuel = f + 1 := ⟨fuel - 1,by omega⟩
    obtain ⟨s',does,rest⟩ := turn _ _ _ inv
    have onward : next (next^[k] start) = next^[k + 1] start := (Function.iterate_succ_apply' next k start).symm
    have away : next^[k + 1] start ≠ start := cycle.first (k + 1) (by omega) (by omega)
    cases going : more s' with
    | false => exact ⟨s',by simp [doWhile, does, going],stop _ _ rest going⟩
    | true =>
      obtain ⟨last,runs,done⟩ := ih (k + 1) s' f (by omega) (by omega) (onward ▸ rest)
      refine ⟨last,?_,done⟩
      simp only [doWhile, does, going, onward, Option.bind_eq_bind, Option.bind_some, Bool.true_and,
        decide_eq_true away, if_true]
      exact runs

theorem doWhileRound (cycle : Cycle next start n)
    (turn : ∀ place rest s, Inv (place :: rest) s → ∃ s', body place s = some s' ∧ Inv rest s')
    (stop : ∀ rest s, Inv rest s → more s = false → Inv [] s) {fuel : Nat} (enough : n ≤ fuel) {s : σ}
    (inv : Inv (List.iterate next start n) s) :
    ∃ s', doWhile next start more body fuel start s = some s' ∧ Inv [] s' := by
  obtain ⟨left,rfl⟩ : ∃ left, n = left + 1 := ⟨n - 1,by have := cycle.some; omega⟩
  exact doWhileFrom Inv cycle turn stop left 0 s fuel (by omega) (by omega) inv

section Modular

def succMod (n i : Nat) : Nat := (i + 1) % n

theorem succModIterate {i : Nat} (below : i < n) (k : Nat) : (succMod n)^[k] i = (i + k) % n := by
  induction k with
  | zero => exact (Nat.mod_eq_of_lt below).symm
  | succ k ih =>
    rw [Function.iterate_succ_apply', ih, succMod, Nat.mod_add_mod, Nat.add_assoc]

theorem succModCycle {i : Nat} (below : i < n) : Cycle (succMod n) i n where
  some := by omega
  closes := by rw [succModIterate below, Nat.add_mod_right, Nat.mod_eq_of_lt below]
  first k positive small same := by
    rw [succModIterate below] at same
    by_cases wraps : i + k < n
    · rw [Nat.mod_eq_of_lt wraps] at same
      omega
    · rw [Nat.mod_eq_sub_mod (by omega), Nat.mod_eq_of_lt (by omega)] at same
      omega

theorem succModMem {i j : Nat} (below : i < n) : j ∈ List.iterate (succMod n) i n ↔ j < n := by
  rw [List.mem_iterate]
  constructor
  · rintro ⟨k,-,rfl⟩
    rw [succModIterate below]
    exact Nat.mod_lt _ (by omega)
  · intro small
    refine ⟨(j + n - i) % n,Nat.mod_lt _ (by omega),?_⟩
    rw [succModIterate below, Nat.add_mod_mod, show i + (j + n - i) = j + n by omega, Nat.add_mod_right,
      Nat.mod_eq_of_lt small]

theorem succModNodup {i : Nat} (below : i < n) : (List.iterate (succMod n) i n).Nodup := by
  rw [← List.range_map_iterate]
  refine List.Nodup.map_on ?_ List.nodup_range
  intro x inRange y inRange' same
  rw [succModIterate below, succModIterate below] at same
  have close : x ≡ y [MOD n] := Nat.ModEq.add_left_cancel' i same
  exact close.eq_of_lt_of_lt (List.mem_range.mp inRange) (List.mem_range.mp inRange')

end Modular

end LibProc.CyclicLoops
