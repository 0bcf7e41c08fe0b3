import LibProc.PriorityQueue

/-! The slots of a queue in whatever order it is. A sift that starts from a gap leaves each element
in the slot its position says, and reads and writes only slots in use; a removal does too,
unless it sifts the dead last slot past its parent. -/
namespace LibProc.PriorityQueue
open HeapOrder

section model
variable {M E P : Type} (c : Callbacks M E P)

/- The indices of q->d that a sift up reads or writes, its first load apart. -/
def riseTouches (node : E) (pri : P) (s : M × Queue E) (i : Nat) : List Nat :=
  if _ : 1 < i ∧ c.cmppri (c.getpri s.1 (s.2.d (i / 2))) pri = true then
    i / 2 :: i :: riseTouches node pri (place c s i (s.2.d (i / 2))) (i / 2)
  else if 1 < i then [i / 2,i] else [i]
termination_by i
decreasing_by omega

def bubbleUpTouches (s : M × Queue E) (i : Nat) : List Nat :=
  i :: riseTouches c (s.2.d i) (c.getpri s.1 (s.2.d i)) s i

def maxchildTouches (s : M × Queue E) (i : Nat) : List Nat :=
  if s.2.size ≤ 2 * i then [] else if 2 * i + 1 < s.2.size then [2 * i,2 * i + 1] else [2 * i]

def sinkTouches (node : E) (pri : P) (s : M × Queue E) (i : Nat) : List Nat :=
  if _ : maxchild c s i ≠ 0 ∧ c.cmppri pri (c.getpri s.1 (s.2.d (maxchild c s i))) = true then
    maxchildTouches s i ++ i :: sinkTouches node pri (place c s i (s.2.d (maxchild c s i))) (maxchild c s i)
  else maxchildTouches s i ++ [i]
termination_by s.2.size - i
decreasing_by
  rename_i more
  have := maxchildRange c more.1
  simp only [placeSize]
  omega

def percolateDownTouches (s : M × Queue E) (i : Nat) : List Nat :=
  i :: sinkTouches c (s.2.d i) (c.getpri s.1 (s.2.d i)) s i

def insertTouches (grow : Bool) (s : M × Queue E) (e : E) : List Nat :=
  if Full grow s.2 then []
  else
    let q := {s.2 with size := s.2.size + 1, d := Function.update s.2.d s.2.size e}
    s.2.size :: bubbleUpTouches c (s.1,q) s.2.size

def changePriorityTouches (s : M × Queue E) (pri : P) (e : E) : List Nat :=
  let old := c.getpri s.1 e
  let m := c.setpri s.1 e pri
  if c.cmppri old pri then bubbleUpTouches c (m,s.2) (c.getpos m e)
  else percolateDownTouches c (m,s.2) (c.getpos m e)

def removeTouches (s : M × Queue E) (e : E) : List Nat :=
  let posn := c.getpos s.1 e
  let q := {s.2 with size := s.2.size - 1, d := Function.update s.2.d posn (s.2.d (s.2.size - 1))}
  (s.2.size - 1) :: posn ::
    if c.cmppri (c.getpri s.1 e) (c.getpri s.1 (q.d posn)) then bubbleUpTouches c (s.1,q) posn
    else percolateDownTouches c (s.1,q) posn

def Within (size : Nat) (touches : List Nat) : Prop := ∀ i ∈ touches, 1 ≤ i ∧ i < size

instance (size : Nat) (touches : List Nat) : Decidable (Within size touches) := inferInstanceAs (Decidable (∀ _ ∈ _,_))

end model

section ranges
variable {M E P : Type} {c : Callbacks M E P} {s : M × Queue E} {e node : E} {pri : P} {i size : Nat}

theorem riseWithin (first : 1 ≤ i) (last : i < size) : Within size (riseTouches c node pri s i) := by
  induction s, i using riseTouches.induct c pri with
  | case1 s i more ih =>
    rw [riseTouches, dif_pos more]
    intro j member
    rcases List.mem_cons.mp member with rfl | member
    · omega
    rcases List.mem_cons.mp member with rfl | member
    · exact ⟨first,last⟩
    · exact ih (by omega) (by omega) j member
  | case2 s i stop inner =>
    rw [riseTouches, dif_neg stop, if_pos inner]
    intro j member
    rcases List.mem_cons.mp member with rfl | member
    · omega
    · rw [List.mem_singleton.mp member]
      exact ⟨first,last⟩
  | case3 s i stop root =>
    rw [riseTouches, dif_neg stop, if_neg root]
    intro j member
    rw [List.mem_singleton.mp member]
    exact ⟨first,last⟩

theorem maxchildWithin (first : 1 ≤ i) (less : s.2.size ≤ size) : Within size (maxchildTouches s i) := by
  intro j member
  rw [maxchildTouches] at member
  split at member
  · cases member
  · split at member
    · rcases List.mem_cons.mp member with rfl | member
      · omega
      · rw [List.mem_singleton.mp member]
        omega
    · rw [List.mem_singleton.mp member]
      omega

theorem sinkWithin (first : 1 ≤ i) (last : i < size) (less : s.2.size ≤ size) :
    Within size (sinkTouches c node pri s i) := by
  induction s, i using sinkTouches.induct c pri with
  | case1 s i more ih =>
    rw [sinkTouches, dif_pos more]
    obtain ⟨deeper,live,-⟩ := maxchildRange c more.1
    intro j member
    rcases List.mem_append.mp member with child | member
    · exact maxchildWithin first less j child
    rcases List.mem_cons.mp member with rfl | member
    · exact ⟨first,last⟩
    · exact ih (by omega) (by omega) less j member
  | case2 s i stop =>
    rw [sinkTouches, dif_neg stop]
    intro j member
    rcases List.mem_append.mp member with child | member
    · exact maxchildWithin first less j child
    · rw [List.mem_singleton.mp member]
      exact ⟨first,last⟩

theorem bubbleUpWithin (first : 1 ≤ i) (last : i < size) : Within size (bubbleUpTouches c s i) :=
  List.forall_mem_cons.mpr ⟨⟨first,last⟩,riseWithin first last⟩

theorem percolateDownWithin (first : 1 ≤ i) (last : i < size) (less : s.2.size ≤ size) :
    Within size (percolateDownTouches c s i) :=
  List.forall_mem_cons.mpr ⟨⟨first,last⟩,sinkWithin first last less⟩

theorem insertWithin {grow : Bool} (one : 1 ≤ s.2.size) : Within (s.2.size + 1) (insertTouches c grow s e) := by
  rw [insertTouches]
  split
  · exact fun j member => by cases member
  · exact List.forall_mem_cons.mpr ⟨⟨one,Nat.lt_succ_self _⟩,bubbleUpWithin one (Nat.lt_succ_self _)⟩

theorem changePriorityWithin (same : c.getpos (c.setpri s.1 e pri) e = c.getpos s.1 e) :
    Within s.2.size (changePriorityTouches c s pri e) ↔ 1 ≤ c.getpos s.1 e ∧ c.getpos s.1 e < s.2.size := by
  rw [changePriorityTouches, same]
  constructor
  · intro inside
    refine inside _ ?_
    split <;> exact List.mem_cons_self
  · rintro ⟨first,last⟩
    split
    · exact bubbleUpWithin first last
    · exact percolateDownWithin first last le_rfl

theorem removeWithin : Within s.2.size (removeTouches c s e) ↔ 1 ≤ c.getpos s.1 e ∧ c.getpos s.1 e < s.2.size := by
  rw [removeTouches]
  dsimp only
  constructor
  · intro inside
    exact inside _ (List.mem_cons_of_mem _ List.mem_cons_self)
  · rintro ⟨first,last⟩
    refine List.forall_mem_cons.mpr ⟨by omega,List.forall_mem_cons.mpr ⟨⟨first,last⟩,?_⟩⟩
    split
    · exact bubbleUpWithin first last
    · exact percolateDownWithin first last (Nat.sub_le _ _)

end ranges

section slots
variable {M E P : Type} [LinearOrder P] {c : Callbacks M E P} {s : M × Queue E} {e node : E} {pri : P} {hole : Nat}
  {others : E → Prop}

structure Shelved (c : Callbacks M E P) (s : M × Queue E) (others : E → Prop) : Prop where
  one : 1 ≤ s.2.size
  placed : Placed c s
  members : ∀ e, Queued s.2 e ↔ others e

theorem Gap.shelve (lawful : Lawful c) (gap : Gap c s hole node others) : Shelved c (place c s hole node) others := by
  refine ⟨?_,gap.placedClosed lawful,gap.queuedClosed⟩
  have first := gap.first
  have last := gap.last
  rw [placeSize]
  omega

theorem riseShelved (lawful : Lawful c) (gap : Gap c s hole node others) : Shelved c (rise c node pri s hole) others := by
  induction s, hole using rise.induct c pri with
  | case1 s hole more ih =>
    rw [rise, dif_pos more]
    have last := gap.last
    exact ih (gap.move lawful (by omega) (by omega) (by omega))
  | case2 s hole stop =>
    rw [rise, dif_neg stop]
    exact gap.shelve lawful

theorem sinkShelved (lawful : Lawful c) (gap : Gap c s hole node others) : Shelved c (sink c node pri s hole) others := by
  induction s, hole using sink.induct c pri with
  | case1 s hole more ih =>
    rw [sink, dif_pos more]
    have range := maxchildRange c more.1
    have first := gap.first
    exact ih (gap.move lawful (by omega) range.2.1 (by omega))
  | case2 s hole stop =>
    rw [sink, dif_neg stop]
    exact gap.shelve lawful

theorem insertShelved (lawful : Lawful c) (one : 1 ≤ s.2.size) (placed : Placed c s) (fresh : ¬ Queued s.2 e)
    {grow : Bool} (room : ¬ Full grow s.2) :
    (insert c grow s e).1 = true ∧ Shelved c (insert c grow s e).2 (fun x => x = e ∨ Queued s.2 x) := by
  rw [insert, if_neg room]
  refine ⟨rfl,?_⟩
  simp only [bubbleUp,Function.update_self]
  exact riseShelved lawful (insertGap one placed fresh _)

theorem popShelvedFrom (lawful : Lawful c) (one : 1 ≤ s.2.size) (placed : Placed c s) (some_ : s.2.size ≠ 1) {m : M}
    (pos : ∀ x, x ≠ s.2.d 1 → c.getpos m x = c.getpos s.1 x) :
    Shelved c (pop c (m,s.2)).2 (fun x => Queued s.2 x ∧ x ≠ s.2.d 1) := by
  rw [pop, if_neg some_]
  change Shelved c (percolateDown c (cut (m,s.2) 1) 1) _
  by_cases two : s.2.size = 2
  · have size : (percolateDown c (cut (m,s.2) 1) 1).2.size = 1 := by
      rw [percolateDown, sinkSifted.size]
      simp [cut,two]
    refine ⟨size.ge,fun i lower upper => ?_,fun x => ⟨?_,?_⟩⟩
    · omega
    · rintro ⟨i,lower,upper,_⟩
      omega
    · rintro ⟨⟨i,lower,upper,rfl⟩,ne⟩
      exact absurd (congrArg s.2.d (show i = 1 by omega)) ne
  · have old := cutGap placed (p := 1) le_rfl (by omega)
    have gap : Gap c (cut (m,s.2) 1) 1 (s.2.d (s.2.size - 1)) (fun x => Queued s.2 x ∧ x ≠ s.2.d 1) := by
      refine ⟨old.first,old.last,fun i lower upper ne => ?_,old.apart,old.members⟩
      have away := ((old.members _).mpr (.inr ⟨i,lower,upper,ne,rfl⟩)).2
      exact (pos _ away).trans (old.placed i lower upper ne)
    have node : (cut (m,s.2) 1).2.d 1 = s.2.d (s.2.size - 1) := by simp [cut]
    rw [percolateDown, node]
    exact sinkShelved lawful gap

def Displaces (c : Callbacks M E P) (s : M × Queue E) (e : E) : Prop :=
  c.getpos s.1 e = s.2.size - 1 ∧ 1 < c.getpos s.1 e ∧
    c.cmppri (c.getpri s.1 (s.2.d (c.getpos s.1 e / 2))) (c.getpri s.1 e) = true

theorem riseStops (lawful : Lawful c) {i : Nat} : c.getpos (rise c node pri s i).1 node ≤ i := by
  induction s, i using rise.induct c pri with
  | case1 s i more ih =>
    rw [rise, dif_pos more]
    exact ih.trans (Nat.div_le_self _ _)
  | case2 s i stop =>
    rw [rise, dif_neg stop]
    simp [place,lawful.posSetpos]

theorem riseSpares (lawful : Lawful c) {i : Nat} (inner : 1 < i) (stays : c.getpos (rise c node pri s i).1 node = i) :
    c.cmppri (c.getpri (rise c node pri s i).1 ((rise c node pri s i).2.d (i / 2))) pri ≠ true := by
  intro less
  by_cases more : 1 < i ∧ c.cmppri (c.getpri s.1 (s.2.d (i / 2))) pri = true
  · have low : c.getpos (rise c node pri (place c s i (s.2.d (i / 2))) (i / 2)).1 node ≤ i / 2 := riseStops lawful
    rw [rise, dif_pos more] at stays
    omega
  · rw [rise, dif_neg more] at less
    refine more ⟨inner,?_⟩
    simpa [place,lawful.priSetpos,Function.update_of_ne (show i / 2 ≠ i by omega)] using less

theorem insertSpares (lawful : Lawful c) {grow : Bool} (room : ¬ Full grow s.2) :
    ¬ Displaces c (insert c grow s e).2 e := by
  rw [insert, if_neg room]
  simp only [bubbleUp,Function.update_self]
  rintro ⟨last,inner,less⟩
  rw [riseSifted.size, Nat.add_sub_cancel] at last
  rw [last] at inner less
  rw [riseSifted.frame (fun m => c.getpri m e) fun m x n => lawful.priSetpos m x n e] at less
  exact riseSpares lawful inner last less

theorem removeShelved (lawful : Lawful c) (placed : Placed c s) (queued : Queued s.2 e) (spares : ¬ Displaces c s e) :
    Shelved c (remove c s e) (fun x => Queued s.2 x ∧ x ≠ e) := by
  obtain ⟨first,last,slot⟩ := placed.slotOf queued
  by_cases end_ : c.getpos s.1 e = s.2.size - 1
  · -- the removed element is compared with itself, in a slot that is dead already
    have stop : ¬ (1 < s.2.size - 1 ∧ c.cmppri (c.getpri (cut s (s.2.size - 1)).1
        ((cut s (s.2.size - 1)).2.d ((s.2.size - 1) / 2))) (c.getpri s.1 e) = true) := by
      rintro ⟨inner,less⟩
      refine spares ⟨end_,by omega,?_⟩
      rw [end_]
      simpa [cut,Function.update_of_ne (show (s.2.size - 1) / 2 ≠ s.2.size - 1 by omega)] using less
    have away : ∀ {i}, 1 ≤ i → i < s.2.size - 1 → s.2.d i ≠ e := by
      intro i lower upper same
      have := placed.slotUnique ⟨lower,by omega⟩ ⟨first,last⟩ (same.trans slot.symm)
      omega
    have slots : ∀ {i}, i < s.2.size - 1 → (place c (cut s (s.2.size - 1)) (s.2.size - 1) e).2.d i = s.2.d i := by
      intro i upper
      simp [place,cut,Function.update_of_ne (show i ≠ s.2.size - 1 by omega)]
    rw [removeLast lawful placed queued end_, rise, dif_neg stop]
    refine ⟨by simp only [placeSize,cut]; omega,fun i lower upper => ?_,fun x => ⟨?_,?_⟩⟩
    · change i < s.2.size - 1 at upper
      rw [slots upper]
      simpa [place,cut,lawful.posSetpos,away lower upper] using placed i lower (by omega)
    · rintro ⟨i,lower,upper,rfl⟩
      change i < s.2.size - 1 at upper
      rw [slots upper]
      exact ⟨⟨i,lower,by omega,rfl⟩,away lower upper⟩
    · rintro ⟨⟨i,lower,upper,rfl⟩,ne⟩
      have inside : i < s.2.size - 1 := by
        have : i ≠ s.2.size - 1 := fun same => ne (by rw [same, ← end_, slot])
        omega
      exact ⟨i,lower,inside,slots inside⟩
  · have gap := cutGap placed first (by omega)
    have node : (cut s (c.getpos s.1 e)).2.d (c.getpos s.1 e) = s.2.d (s.2.size - 1) := by simp [cut]
    rw [slot] at gap
    change Shelved c (if _ then bubbleUp c (cut s (c.getpos s.1 e)) _
      else percolateDown c (cut s (c.getpos s.1 e)) _) _
    split
    · rw [bubbleUp, node]
      exact riseShelved lawful gap
    · rw [percolateDown, node]
      exact sinkShelved lawful gap

theorem bubbleUpShelved (lawful : Lawful c) (placed : Placed c s) (queued : Queued s.2 e) {m : M}
    (pos : ∀ x, c.getpos m x = c.getpos s.1 x) : Shelved c (bubbleUp c (m,s.2) (c.getpos s.1 e)) (Queued s.2) := by
  have slot := (placed.slotOf queued).2.2
  rw [bubbleUp, slot]
  exact riseShelved lawful (carryGap placed queued pos)

end slots
end LibProc.PriorityQueue
