import Mathlib.Order.Lattice
import Mathlib.Logic.Function.Basic

/-! Order of a binary heap kept in slots 1..size-1, the children of slot `i` in
slots `2*i` and `2*i+1`. A sift carries one key past a hole: every pair away from
the hole stays in order, and the hole's children stay at or above its parent.
Nothing here depends on what the slots hold beyond their keys. -/
namespace LibProc.HeapOrder

variable {K : Type} [LinearOrder K] {key : Nat → K} {size hole : Nat} {k : K}

def Ordered (key : Nat → K) (size : Nat) : Prop :=
  ∀ i, 1 < i → i < size → key (i / 2) ≤ key i

theorem rootLeast (ordered : Ordered key size) {i : Nat} (pos : 1 ≤ i) (live : i < size) :
    key 1 ≤ key i := by
  induction i using Nat.strongRecOn with
  | ind i ih =>
    by_cases root : i = 1
    · rw [root]
    · have up : key 1 ≤ key (i / 2) := ih (i / 2) (by omega) (by omega) (by omega)
      exact up.trans (ordered i (by omega) live)

structure Hole (key : Nat → K) (size hole : Nat) : Prop where
  off : ∀ i, 1 < i → i < size → i ≠ hole → i / 2 ≠ hole → key (i / 2) ≤ key i
  across : ∀ child, child / 2 = hole → child < size → 1 < hole → key (hole / 2) ≤ key child

def Below (key : Nat → K) (size hole : Nat) (k : K) : Prop :=
  ∀ child, 1 < child → child / 2 = hole → child < size → k ≤ key child

def Above (key : Nat → K) (hole : Nat) (k : K) : Prop := 1 < hole → key (hole / 2) ≤ k

theorem holeOfOrdered {key' : Nat → K} {size' : Nat} (ordered : Ordered key size) (live : hole < size)
    (same : ∀ i, 1 ≤ i → i < size → i ≠ hole → key' i = key i) (cut : size' ≤ size) :
    Hole key' size' hole where
  off i first last here parent := by
    rw [same i (by omega) (by omega) here, same _ (by omega) (by omega) parent]
    exact ordered i first (by omega)
  across child parent last inner := by
    rw [same child (by omega) (by omega) (by omega), same _ (by omega) (by omega) (by omega)]
    have step : key hole ≤ key child := by
      have := ordered child (by omega) (by omega)
      rwa [parent] at this
    exact (ordered hole inner live).trans step

theorem holeOfLast {key' : Nat → K} (ordered : Ordered key size)
    (same : ∀ i, 1 ≤ i → i < size → key' i = key i) : Hole key' (size + 1) size where
  off i first last here parent := by
    rw [same i (by omega) (by omega), same _ (by omega) (by omega)]
    exact ordered i first (by omega)
  across child parent last _ := by omega

theorem belowOfOrdered {key' : Nat → K} {size' : Nat} (ordered : Ordered key size)
    (same : ∀ i, 1 ≤ i → i < size → i ≠ hole → key' i = key i) (cut : size' ≤ size)
    (less : k ≤ key hole) : Below key' size' hole k := by
  intro child first parent last
  rw [same child (by omega) (by omega) (by omega)]
  have := ordered child first (by omega)
  rw [parent] at this
  exact less.trans this

theorem aboveOfOrdered {key' : Nat → K} (ordered : Ordered key size) (live : hole < size)
    (same : ∀ i, 1 ≤ i → i < size → i ≠ hole → key' i = key i) (more : key hole ≤ k) :
    Above key' hole k := by
  intro inner
  rw [same _ (by omega) (by omega) (by omega)]
  exact (ordered hole inner live).trans more

theorem close (h : Hole key size hole) (below : Below key size hole k) (above : Above key hole k) :
    Ordered (Function.update key hole k) size := by
  intro i first last
  by_cases same : i = hole
  · subst same
    rw [Function.update_self, Function.update_of_ne (by omega)]
    exact above first
  · rw [Function.update_of_ne same]
    by_cases parent : i / 2 = hole
    · rw [parent, Function.update_self]
      exact below i first parent last
    · rw [Function.update_of_ne parent]
      exact h.off i first last same parent

theorem holeUp (h : Hole key size hole) (inner : 1 < hole) (live : hole < size) :
    Hole (Function.update key hole (key (hole / 2))) size (hole / 2) where
  off i first last same parent := by
    by_cases here : i = hole
    · exact absurd (congrArg (· / 2) here) parent
    · rw [Function.update_of_ne here]
      by_cases under : i / 2 = hole
      · rw [under, Function.update_self]
        exact h.across i under last inner
      · rw [Function.update_of_ne under]
        exact h.off i first last here under
  across child parent last deep := by
    have grand : key (hole / 2 / 2) ≤ key (hole / 2) :=
      h.off (hole / 2) deep (by omega) (by omega) (by omega)
    rw [Function.update_of_ne (by omega)]
    by_cases here : child = hole
    · rw [here, Function.update_self]
      exact grand
    · rw [Function.update_of_ne here]
      have side : key (child / 2) ≤ key child := h.off child (by omega) last here (by omega)
      rw [parent] at side
      exact grand.trans side

theorem belowUp (h : Hole key size hole) (inner : 1 < hole) (less : k ≤ key (hole / 2)) :
    Below (Function.update key hole (key (hole / 2))) size (hole / 2) k := by
  intro child first parent last
  by_cases here : child = hole
  · rw [here, Function.update_self]
    exact less
  · rw [Function.update_of_ne here]
    have side : key (child / 2) ≤ key child := h.off child first last here (by omega)
    rw [parent] at side
    exact less.trans side

theorem holeDown {child : Nat} (h : Hole key size hole) (parent : child / 2 = hole)
    (first : 1 < child) (last : child < size)
    (least : ∀ other, 1 < other → other / 2 = hole → other < size → key child ≤ key other) :
    Hole (Function.update key hole (key child)) size child where
  off i lower upper same under := by
    by_cases here : i = hole
    · subst here
      rw [Function.update_self, Function.update_of_ne (by omega)]
      exact h.across child parent last lower
    · rw [Function.update_of_ne here]
      by_cases side : i / 2 = hole
      · rw [side, Function.update_self]
        exact least i lower side upper
      · rw [Function.update_of_ne side]
        exact h.off i lower upper here side
  across grand under upper _ := by
    rw [parent, Function.update_self, Function.update_of_ne (by omega)]
    have step := h.off grand (by omega) upper (by omega) (by omega)
    rwa [under] at step

theorem aboveDown {child : Nat} (parent : child / 2 = hole) (less : key child ≤ k) :
    Above (Function.update key hole (key child)) child k := by
  intro _
  rw [parent, Function.update_self]
  exact less

end LibProc.HeapOrder
