import Mathlib.Data.Set.Card
import Mathlib.Tactic.Linarith

/-! A counter kept by hand beside the set it is meant to count. The set is not stored
anywhere: an operation moves one element in or out, and adjusts the counter. -/
namespace LibProc.Tallies

variable {α : Type} {S T : Set α} {count : Int} {e : α}

structure Tally (count : Int) (S : Set α) : Prop where
  finite : S.Finite
  exact : count = S.ncard

theorem tallyEmpty : Tally 0 (∅ : Set α) := ⟨Set.finite_empty,by simp⟩

theorem Tally.same (tally : Tally count S) (members : ∀ x, x ∈ T ↔ x ∈ S) : Tally count T := by
  rwa [Set.ext members]

theorem Tally.gain (tally : Tally count S) (before : e ∉ S) (after : e ∈ T)
    (others : ∀ x, x ≠ e → (x ∈ T ↔ x ∈ S)) : Tally (count + 1) T := by
  have grown : T = insert e S := by
    ext x
    by_cases here : x = e
    · simp [here,after]
    · simp [here,others x here]
  rw [grown]
  refine ⟨tally.finite.insert e,?_⟩
  rw [Set.ncard_insert_of_notMem before tally.finite, tally.exact]
  simp

theorem Tally.lose (tally : Tally count S) (before : e ∈ S) (after : e ∉ T)
    (others : ∀ x, x ≠ e → (x ∈ T ↔ x ∈ S)) : Tally (count - 1) T := by
  have shrunk : T = S \ {e} := by
    ext x
    by_cases here : x = e
    · simp [here,after]
    · simp [here,others x here]
  rw [shrunk]
  refine ⟨tally.finite.subset Set.sdiff_subset,?_⟩
  have sum := Set.ncard_sdiff_singleton_add_one before tally.finite
  have exact := tally.exact
  omega

theorem Tally.move (tally : Tally count S) {before after : Bool} (was : e ∈ S ↔ before = true)
    (is : e ∈ T ↔ after = true) (others : ∀ x, x ≠ e → (x ∈ T ↔ x ∈ S)) :
    Tally (count + (if after then 1 else 0) - (if before then 1 else 0)) T := by
  have stays : (e ∈ T ↔ e ∈ S) → Tally count T := fun here => tally.same fun x => by
    by_cases same : x = e
    · rw [same, here]
    · exact others x same
  cases before with
  | false =>
    cases after with
    | false => simpa using stays (by simp [was,is])
    | true => simpa using tally.gain (by simp [was]) (is.mpr rfl) others
  | true =>
    cases after with
    | false => simpa using tally.lose (was.mpr rfl) (by simp [is]) others
    | true => simpa using stays (by simp [was,is])

theorem Tally.positive (tally : Tally count S) : 0 < count ↔ S.Nonempty := by
  rw [tally.exact, Int.natCast_pos, Set.ncard_pos tally.finite]

/- A flag kept in a char takes the low byte of the int it is set from. -/
def charTruth (n : Int) : Prop := n = 0 ∨ n % 256 ≠ 0

instance (n : Int) : Decidable (charTruth n) := inferInstanceAs (Decidable (_ ∨ _))

theorem charTruthKept {n : Int} (fits : charTruth n) : decide (n % 256 ≠ 0) = decide (n ≠ 0) := by
  refine decide_eq_decide.mpr ⟨?_,fun nonzero => fits.resolve_left nonzero⟩
  rintro low rfl
  exact low rfl

end LibProc.Tallies
