import LibProc.HeapOrder
import Mathlib.Tactic.Linarith

/-! priorityQueue.c. The queue stores element addresses in `d`; slot 0 is unused
and `size` counts it. Priorities and positions live in the elements themselves and
are reached only through the five callbacks given to `ps_pqueue_init`. -/
namespace LibProc.PriorityQueue
open HeapOrder

structure Callbacks (M E P : Type) where
  cmppri : P → P → Bool
  getpri : M → E → P
  setpri : M → E → P → M
  getpos : M → E → Nat
  setpos : M → E → Nat → M

structure Queue (E : Type) where
  size : Nat
  avail : Nat
  step : Nat
  d : Nat → E

def init {E : Type} (n : Nat) (d : Nat → E) : Queue E := ⟨1,n + 1,n + 1,d⟩

section model
variable {M E P : Type} (c : Callbacks M E P)

def place (s : M × Queue E) (i : Nat) (e : E) : M × Queue E :=
  (c.setpos s.1 e i, {s.2 with d := Function.update s.2.d i e})

@[simp] theorem placeSize (s : M × Queue E) (i : Nat) (e : E) : (place c s i e).2.size = s.2.size := rfl

def rise (node : E) (pri : P) (s : M × Queue E) (i : Nat) : M × Queue E :=
  if _ : 1 < i ∧ c.cmppri (c.getpri s.1 (s.2.d (i / 2))) pri = true then
    rise node pri (place c s i (s.2.d (i / 2))) (i / 2)
  else place c s i node
termination_by i
decreasing_by omega

def bubbleUp (s : M × Queue E) (i : Nat) : M × Queue E :=
  rise c (s.2.d i) (c.getpri s.1 (s.2.d i)) s i

def maxchild (s : M × Queue E) (i : Nat) : Nat :=
  if s.2.size ≤ 2 * i then 0
  else if 2 * i + 1 < s.2.size ∧
      c.cmppri (c.getpri s.1 (s.2.d (2 * i))) (c.getpri s.1 (s.2.d (2 * i + 1))) = true then 2 * i + 1
  else 2 * i

theorem maxchildRange {s : M × Queue E} {i : Nat} (some : maxchild c s i ≠ 0) :
    i < maxchild c s i ∧ maxchild c s i < s.2.size ∧ maxchild c s i / 2 = i := by
  unfold maxchild at some ⊢
  by_cases none : s.2.size ≤ 2 * i
  · simp [none] at some
  · simp only [if_neg none] at some ⊢
    split <;> simp_all <;> omega

def sink (node : E) (pri : P) (s : M × Queue E) (i : Nat) : M × Queue E :=
  if _ : maxchild c s i ≠ 0 ∧ c.cmppri pri (c.getpri s.1 (s.2.d (maxchild c s i))) = true then
    sink node pri (place c s i (s.2.d (maxchild c s i))) (maxchild c s i)
  else place c s i node
termination_by s.2.size - i
decreasing_by
  rename_i more
  have := maxchildRange c more.1
  simp only [placeSize]
  omega

def percolateDown (s : M × Queue E) (i : Nat) : M × Queue E :=
  sink c (s.2.d i) (c.getpri s.1 (s.2.d i)) s i

/- The slots are used up and `realloc` fails: it is out of memory (`grow` is false), or
sizeof(void *) * newsize is no size_t. -/
def Full (grow : Bool) (q : Queue E) : Prop :=
  q.avail ≤ q.size ∧ (grow = false ∨ 2 ^ 64 ≤ 8 * (q.size + q.step))

instance (grow : Bool) (q : Queue E) : Decidable (Full grow q) := inferInstanceAs (Decidable (_ ∧ _))

def insert (grow : Bool) (s : M × Queue E) (e : E) : Bool × M × Queue E :=
  if Full grow s.2 then (false,s)
  else
    let avail := if s.2.avail ≤ s.2.size then s.2.size + s.2.step else s.2.avail
    let q := {s.2 with avail := avail, size := s.2.size + 1, d := Function.update s.2.d s.2.size e}
    (true,bubbleUp c (s.1,q) s.2.size)

def changePriority (s : M × Queue E) (pri : P) (e : E) : M × Queue E :=
  let old := c.getpri s.1 e
  let m := c.setpri s.1 e pri
  if c.cmppri old pri then bubbleUp c (m,s.2) (c.getpos m e)
  else percolateDown c (m,s.2) (c.getpos m e)

def remove (s : M × Queue E) (e : E) : M × Queue E :=
  let posn := c.getpos s.1 e
  let q := {s.2 with size := s.2.size - 1, d := Function.update s.2.d posn (s.2.d (s.2.size - 1))}
  if c.cmppri (c.getpri s.1 e) (c.getpri s.1 (q.d posn)) then bubbleUp c (s.1,q) posn
  else percolateDown c (s.1,q) posn

def pop (s : M × Queue E) : Option E × M × Queue E :=
  if s.2.size = 1 then (none,s)
  else
    let q := {s.2 with size := s.2.size - 1, d := Function.update s.2.d 1 (s.2.d (s.2.size - 1))}
    (some (s.2.d 1),percolateDown c (s.1,q) 1)

def peek (q : Queue E) : Option E := if q.size = 1 then none else some (q.d 1)

end model

section slots
variable {M E P : Type} {c : Callbacks M E P} {s : M × Queue E} {e node : E} {pri : P}
  {i hole : Nat} {others : E → Prop}

def key (c : Callbacks M E P) (s : M × Queue E) (i : Nat) : P := c.getpri s.1 (s.2.d i)

def Queued (q : Queue E) (e : E) : Prop := ∃ i, 1 ≤ i ∧ i < q.size ∧ q.d i = e

instance [DecidableEq E] (q : Queue E) (e : E) : Decidable (Queued q e) :=
  decidable_of_iff (∃ i, i < q.size ∧ 1 ≤ i ∧ q.d i = e)
    ⟨fun ⟨i,last,first,found⟩ => ⟨i,first,last,found⟩,fun ⟨i,first,last,found⟩ => ⟨i,last,first,found⟩⟩

def Placed (c : Callbacks M E P) (s : M × Queue E) : Prop :=
  ∀ i, 1 ≤ i → i < s.2.size → c.getpos s.1 (s.2.d i) = i

theorem Placed.slotUnique (placed : Placed c s) {i j : Nat} (hi : 1 ≤ i ∧ i < s.2.size)
    (hj : 1 ≤ j ∧ j < s.2.size) (same : s.2.d i = s.2.d j) : i = j := by
  rw [← placed i hi.1 hi.2, ← placed j hj.1 hj.2, same]

theorem Placed.slotOf (placed : Placed c s) (queued : Queued s.2 e) :
    1 ≤ c.getpos s.1 e ∧ c.getpos s.1 e < s.2.size ∧ s.2.d (c.getpos s.1 e) = e := by
  obtain ⟨i,first,last,rfl⟩ := queued
  rw [placed i first last]
  exact ⟨first,last,rfl⟩

structure Sifted (c : Callbacks M E P) (s t : M × Queue E) : Prop where
  size : t.2.size = s.2.size
  avail : t.2.avail = s.2.avail
  step : t.2.step = s.2.step
  frame : ∀ {X : Type} (f : M → X), (∀ m e n, f (c.setpos m e n) = f m) → f t.1 = f s.1

theorem placeSifted (s : M × Queue E) (i : Nat) (e : E) : Sifted c s (place c s i e) :=
  ⟨rfl,rfl,rfl,fun _ keep => keep _ _ _⟩

theorem Sifted.trans {r t : M × Queue E} (first : Sifted c r s) (next : Sifted c s t) : Sifted c r t :=
  ⟨next.size.trans first.size,next.avail.trans first.avail,next.step.trans first.step,
    fun f keep => (next.frame f keep).trans (first.frame f keep)⟩

theorem riseSifted : Sifted c s (rise c node pri s i) := by
  induction s, i using rise.induct c pri with
  | case1 s i more ih =>
    rw [rise, dif_pos more]
    exact (placeSifted s i _).trans ih
  | case2 s i stop =>
    rw [rise, dif_neg stop]
    exact placeSifted s i node

theorem sinkSifted : Sifted c s (sink c node pri s i) := by
  induction s, i using sink.induct c pri with
  | case1 s i more ih =>
    rw [sink, dif_pos more]
    exact (placeSifted s i _).trans ih
  | case2 s i stop =>
    rw [sink, dif_neg stop]
    exact placeSifted s i node

theorem riseLands (first : 1 ≤ i) :
    ∃ j, 1 ≤ j ∧ j ≤ i ∧ (rise c node pri s i).2.d j = node := by
  induction s, i using rise.induct c pri with
  | case1 s i more ih =>
    obtain ⟨j,lower,upper,found⟩ := ih (by omega)
    refine ⟨j,lower,by omega,?_⟩
    rw [rise, dif_pos more]
    exact found
  | case2 s i stop =>
    refine ⟨i,first,le_rfl,?_⟩
    rw [rise, dif_neg stop]
    simp [place]

/- The queue while `node` is carried: every slot but the hole is settled, and the
elements of the queue are `node` and those of the other slots. -/
structure Gap (c : Callbacks M E P) (s : M × Queue E) (hole : Nat) (node : E) (others : E → Prop) : Prop where
  first : 1 ≤ hole
  last : hole < s.2.size
  placed : ∀ i, 1 ≤ i → i < s.2.size → i ≠ hole → c.getpos s.1 (s.2.d i) = i
  apart : ∀ i, 1 ≤ i → i < s.2.size → i ≠ hole → s.2.d i ≠ node
  members : ∀ e, others e ↔ e = node ∨ ∃ i, 1 ≤ i ∧ i < s.2.size ∧ i ≠ hole ∧ s.2.d i = e

theorem Gap.queuedClosed (gap : Gap c s hole node others) (e : E) :
    Queued (place c s hole node).2 e ↔ others e := by
  rw [gap.members e]
  constructor
  · rintro ⟨i,lower,upper,rfl⟩
    by_cases here : i = hole
    · exact .inl (by simp [place,here])
    · exact .inr ⟨i,lower,upper,here,by simp [place,Function.update_of_ne here]⟩
  · rintro (rfl | ⟨i,lower,upper,ne,rfl⟩)
    · exact ⟨hole,gap.first,gap.last,by simp [place]⟩
    · exact ⟨i,lower,upper,by simp [place,Function.update_of_ne ne]⟩

theorem insertFull {grow : Bool} (full : Full grow s.2) :
    insert c grow s e = (false,s) := by
  rw [insert, if_pos full]

theorem insertFrame {grow : Bool} {X : Type} (f : M → X) (keep : ∀ m e n, f (c.setpos m e n) = f m) :
    f (insert c grow s e).2.1 = f s.1 := by
  unfold insert
  split
  · rfl
  · exact riseSifted.frame f keep

def cut (s : M × Queue E) (p : Nat) : M × Queue E :=
  (s.1,{s.2 with size := s.2.size - 1, d := Function.update s.2.d p (s.2.d (s.2.size - 1))})

theorem cutKey (s : M × Queue E) (p i : Nat) (ne : i ≠ p) : key c (cut s p) i = key c s i := by
  simp [key,cut,Function.update_of_ne ne]

structure Allocated (q : Queue E) : Prop where
  size : q.size ≤ q.avail
  step : 1 ≤ q.step
  bytes : 8 * q.avail < 2 ^ 64

theorem initAllocated {n : Nat} (d : Nat → E) (fits : 8 * (n + 1) < 2 ^ 64) : Allocated (init n d) :=
  ⟨by simp [init],by simp [init],fits⟩

theorem Sifted.allocated {t : M × Queue E} (sifted : Sifted c s t) (allocated : Allocated s.2) :
    Allocated t.2 :=
  ⟨by rw [sifted.size, sifted.avail]; exact allocated.size,by rw [sifted.step]; exact allocated.step,
    by rw [sifted.avail]; exact allocated.bytes⟩

theorem insertAllocated {grow : Bool} (allocated : Allocated s.2) : Allocated (insert c grow s e).2.2 := by
  unfold insert
  split
  · exact allocated
  · rename_i room
    obtain ⟨size,step,bytes⟩ := allocated
    refine Sifted.allocated riseSifted ⟨?_,step,?_⟩
    · simp only
      split <;> omega
    · simp only [Full,not_and_or,not_or,not_le] at room
      simp only
      split <;> omega

theorem cutAllocated (allocated : Allocated s.2) (p : Nat) : Allocated (cut s p).2 :=
  ⟨(Nat.sub_le _ _).trans allocated.size,allocated.step,allocated.bytes⟩

theorem popAllocated (allocated : Allocated s.2) : Allocated (pop c s).2.2 := by
  unfold pop
  split
  · exact allocated
  · exact Sifted.allocated sinkSifted (cutAllocated allocated 1)

theorem removeAllocated (allocated : Allocated s.2) : Allocated (remove c s e).2 := by
  simp only [remove]
  split
  · exact Sifted.allocated riseSifted (cutAllocated allocated _)
  · exact Sifted.allocated sinkSifted (cutAllocated allocated _)

theorem popFrame {X : Type} (f : M → X) (keep : ∀ m e n, f (c.setpos m e n) = f m) :
    f (pop c s).2.1 = f s.1 := by
  unfold pop
  split
  · rfl
  · exact sinkSifted.frame f keep

theorem removeFrame {X : Type} (f : M → X) (keep : ∀ m e n, f (c.setpos m e n) = f m) :
    f (remove c s e).1 = f s.1 := by
  simp only [remove]
  split
  · exact riseSifted.frame f keep
  · exact sinkSifted.frame f keep

theorem insertGap (one : 1 ≤ s.2.size) (placed : Placed c s) (fresh : ¬ Queued s.2 e) (avail : Nat) :
    Gap c (s.1,{s.2 with avail := avail, size := s.2.size + 1, d := Function.update s.2.d s.2.size e}) s.2.size e
      (fun x => x = e ∨ Queued s.2 x) := by
  refine ⟨one,by simp,?_,?_,?_⟩
  · intro i lower upper ne
    simp only [Function.update_of_ne ne]
    exact placed i lower (by simp only at upper; omega)
  · intro i lower upper ne same
    simp only [Function.update_of_ne ne] at same
    exact fresh ⟨i,lower,by simp only at upper; omega,same⟩
  · intro x
    refine or_congr Iff.rfl ⟨?_,?_⟩
    · rintro ⟨i,lower,upper,rfl⟩
      exact ⟨i,lower,by simp only; omega,by omega,by simp [Function.update_of_ne (show i ≠ s.2.size by omega)]⟩
    · rintro ⟨i,lower,upper,ne,rfl⟩
      exact ⟨i,lower,by simp only at upper; omega,by simp [Function.update_of_ne ne]⟩

theorem cutGap (placed : Placed c s) {p : Nat} (first : 1 ≤ p) (last : p < s.2.size - 1) :
    Gap c (cut s p) p (s.2.d (s.2.size - 1)) (fun x => Queued s.2 x ∧ x ≠ s.2.d p) := by
  have apart : ∀ {i j}, 1 ≤ i → i < s.2.size → 1 ≤ j → j < s.2.size → i ≠ j → s.2.d i ≠ s.2.d j :=
    fun hi hi' hj hj' ne same => ne (placed.slotUnique ⟨hi,hi'⟩ ⟨hj,hj'⟩ same)
  refine ⟨first,last,?_,?_,?_⟩
  · intro i lower upper ne
    simp only [cut,Function.update_of_ne ne]
    exact placed i lower (by simp only [cut] at upper; omega)
  · intro i lower upper ne
    simp only [cut] at upper
    simp only [cut,Function.update_of_ne ne]
    exact apart lower (by omega) (by omega) (by omega) (by omega)
  · intro x
    constructor
    · rintro ⟨⟨i,lower,upper,rfl⟩,ne⟩
      by_cases end_ : i = s.2.size - 1
      · exact .inl (by rw [end_])
      · have away : i ≠ p := fun same => ne (by rw [same])
        exact .inr ⟨i,lower,by simp only [cut]; omega,away,by simp [cut,Function.update_of_ne away]⟩
    · rintro (rfl | ⟨i,lower,upper,ne,rfl⟩)
      · exact ⟨⟨s.2.size - 1,by omega,by omega,rfl⟩,apart (by omega) (by omega) first (by omega) (by omega)⟩
      · simp only [cut] at upper
        simp only [cut,Function.update_of_ne ne]
        exact ⟨⟨i,lower,by omega,rfl⟩,apart lower (by omega) first (by omega) ne⟩

theorem carryGap (placed : Placed c s) (queued : Queued s.2 e) {m : M} (pos : ∀ x, c.getpos m x = c.getpos s.1 x) :
    Gap c (m,s.2) (c.getpos s.1 e) e (Queued s.2) := by
  obtain ⟨first,last,slot⟩ := placed.slotOf queued
  refine ⟨first,last,?_,?_,?_⟩
  · intro i lower upper _
    exact (pos _).trans (placed i lower upper)
  · intro i lower upper ne same
    exact ne (placed.slotUnique ⟨lower,upper⟩ ⟨first,last⟩ (same.trans slot.symm))
  · intro x
    constructor
    · rintro ⟨i,lower,upper,rfl⟩
      by_cases here : i = c.getpos s.1 e
      · exact .inl (by rw [here, slot])
      · exact .inr ⟨i,lower,upper,here,rfl⟩
    · rintro (rfl | ⟨i,lower,upper,_,rfl⟩)
      · exact queued
      · exact ⟨i,lower,upper,rfl⟩

end slots

section spec
variable {M E P : Type} [LinearOrder P] {c : Callbacks M E P} {s : M × Queue E} {e node : E}
  {pri : P} {hole : Nat} {others : E → Prop}

open Classical in
structure Lawful (c : Callbacks M E P) : Prop where
  cmp : ∀ a b, c.cmppri a b = true ↔ b ≤ a
  posSetpos : ∀ m e n x, c.getpos (c.setpos m e n) x = if x = e then n else c.getpos m x
  priSetpos : ∀ m e n x, c.getpri (c.setpos m e n) x = c.getpri m x
  priSetpri : ∀ m e p x, c.getpri (c.setpri m e p) x = if x = e then p else c.getpri m x
  posSetpri : ∀ m e p x, c.getpos (c.setpri m e p) x = c.getpos m x

theorem lawfulRecords [DecidableEq E] {R : Type} {cmp : P → P → Bool} (pri : R → P) (pos : R → Nat) (setPri : R → P → R)
    (setPos : R → Nat → R) (order : ∀ a b, cmp a b = true ↔ b ≤ a) (posSelf : ∀ r n, pos (setPos r n) = n)
    (priKept : ∀ r n, pri (setPos r n) = pri r) (priSelf : ∀ r p, pri (setPri r p) = p)
    (posKept : ∀ r p, pos (setPri r p) = pos r) :
    Lawful (M := E → R) (E := E) ⟨cmp,fun m e => pri (m e),fun m e p => Function.update m e (setPri (m e) p),fun m e => pos (m e),
      fun m e n => Function.update m e (setPos (m e) n)⟩ where
  cmp := order
  posSetpos m e n x := by
    dsimp only
    by_cases same : x = e
    · rw [if_pos same, same, Function.update_self, posSelf]
    · rw [if_neg same, Function.update_of_ne same]
  priSetpos m e n x := by
    dsimp only
    by_cases same : x = e
    · rw [same, Function.update_self, priKept]
    · rw [Function.update_of_ne same]
  priSetpri m e p x := by
    dsimp only
    by_cases same : x = e
    · rw [if_pos same, same, Function.update_self, priSelf]
    · rw [if_neg same, Function.update_of_ne same]
  posSetpri m e p x := by
    dsimp only
    by_cases same : x = e
    · rw [same, Function.update_self, posKept]
    · rw [Function.update_of_ne same]

structure Sound (c : Callbacks M E P) (s : M × Queue E) : Prop where
  one : 1 ≤ s.2.size
  placed : Placed c s
  ordered : Ordered (key c s) s.2.size

theorem peekLeast (sound : Sound c s) {head : E} (found : peek s.2 = some head) (queued : Queued s.2 e) :
    c.getpri s.1 head ≤ c.getpri s.1 e := by
  obtain ⟨i,first,last,rfl⟩ := queued
  unfold peek at found
  split at found
  · contradiction
  · cases Option.some.inj found
    exact rootLeast sound.ordered first last

theorem keyPlace (lawful : Lawful c) (s : M × Queue E) (i : Nat) (e : E) :
    key c (place c s i e) = Function.update (key c s) i (c.getpri s.1 e) := by
  funext j
  by_cases same : j = i
  · subst same
    simp [key,place,lawful.priSetpos]
  · simp [key,place,lawful.priSetpos,Function.update_of_ne same]

theorem riseUntouched (lawful : Lawful c) {x : E} {i : Nat} (apart : x ≠ node)
    (away : ∀ j, 1 ≤ j → j < i → s.2.d j ≠ x) : c.getpos (rise c node pri s i).1 x = c.getpos s.1 x := by
  induction s, i using rise.induct c pri with
  | case1 s i more ih =>
    have parent : s.2.d (i / 2) ≠ x := away (i / 2) (by omega) (by omega)
    rw [rise, dif_pos more, ih]
    · simp [place,lawful.posSetpos,Ne.symm parent]
    · intro j first last
      simpa [place,Function.update_of_ne (show j ≠ i by omega)] using away j first (by omega)
  | case2 s i stop =>
    rw [rise, dif_neg stop]
    simp [place,lawful.posSetpos,apart]

theorem sinkUntouched (lawful : Lawful c) {x : E} {i : Nat} (apart : x ≠ node)
    (away : ∀ j, i < j → j < s.2.size → s.2.d j ≠ x) : c.getpos (sink c node pri s i).1 x = c.getpos s.1 x := by
  induction s, i using sink.induct c pri with
  | case1 s i more ih =>
    obtain ⟨deeper,live,-⟩ := maxchildRange c more.1
    have child : s.2.d (maxchild c s i) ≠ x := away _ deeper live
    rw [sink, dif_pos more, ih]
    · simp [place,lawful.posSetpos,Ne.symm child]
    · intro j first last
      simpa [place,Function.update_of_ne (show j ≠ i by omega)] using away j (by omega) last
  | case2 s i stop =>
    rw [sink, dif_neg stop]
    simp [place,lawful.posSetpos,apart]

theorem insertUntouched (lawful : Lawful c) {grow : Bool} {x : E} (apart : x ≠ e) (absent : ¬ Queued s.2 x) :
    c.getpos (insert c grow s e).2.1 x = c.getpos s.1 x := by
  unfold insert
  split
  · rfl
  · refine riseUntouched lawful (by simpa using apart) fun j first last same => absent ⟨j,first,last,?_⟩
    simpa [Function.update_of_ne (show j ≠ s.2.size by omega)] using same

theorem cutAway {x : E} (absent : ¬ Queued s.2 x) {p : Nat} (more : 1 < s.2.size) (j : Nat) (first : 1 ≤ j)
    (last : j < s.2.size) : (cut s p).2.d j ≠ x := by
  intro same
  by_cases here : j = p
  · subst here
    exact absent ⟨s.2.size - 1,by omega,by omega,by simpa [cut] using same⟩
  · exact absent ⟨j,first,last,by simpa [cut,Function.update_of_ne here] using same⟩

theorem popUntouched (lawful : Lawful c) (one : 1 ≤ s.2.size) {x : E} (absent : ¬ Queued s.2 x) :
    c.getpos (pop c s).2.1 x = c.getpos s.1 x := by
  unfold pop
  split
  · rfl
  · have away := fun j => cutAway absent (p := 1) (by omega) j
    refine sinkUntouched lawful (Ne.symm (away 1 le_rfl (by omega))) fun j first last => away j (by omega) ?_
    simp only at last
    omega

theorem removeUntouched (lawful : Lawful c) (placed : Placed c s) (queued : Queued s.2 e) {x : E}
    (absent : ¬ Queued s.2 x) : c.getpos (remove c s e).1 x = c.getpos s.1 x := by
  obtain ⟨first,last,-⟩ := placed.slotOf queued
  have away := fun j => cutAway absent (p := c.getpos s.1 e) (by omega) j
  have node : x ≠ (cut s (c.getpos s.1 e)).2.d (c.getpos s.1 e) := Ne.symm (away _ first last)
  simp only [remove]
  split
  · exact riseUntouched lawful node fun j lower upper => away j lower (by omega)
  · refine sinkUntouched lawful node fun j lower upper => away j (by omega) ?_
    simp only at upper
    omega

theorem Gap.move (lawful : Lawful c) (gap : Gap c s hole node others) {j : Nat} (first : 1 ≤ j)
    (last : j < s.2.size) (different : j ≠ hole) :
    Gap c (place c s hole (s.2.d j)) j node others where
  first := first
  last := last
  placed i lower upper ne := by
    by_cases here : i = hole
    · subst here
      simp [place,lawful.posSetpos]
    · have apart : s.2.d i ≠ s.2.d j := by
        intro same
        have := gap.placed i lower upper here
        rw [same, gap.placed j first last different] at this
        exact ne this.symm
      simpa [place,lawful.posSetpos,Function.update_of_ne here,apart] using gap.placed i lower upper here
  apart i lower upper ne := by
    by_cases here : i = hole
    · subst here
      simpa [place] using gap.apart j first last different
    · simpa [place,Function.update_of_ne here] using gap.apart i lower upper here
  members e := by
    rw [gap.members e]
    refine or_congr Iff.rfl ⟨?_,?_⟩
    · rintro ⟨i,lower,upper,ne,rfl⟩
      by_cases here : i = j
      · exact ⟨hole,gap.first,gap.last,Ne.symm different,by simp [place,here]⟩
      · exact ⟨i,lower,upper,here,by simp [place,Function.update_of_ne ne]⟩
    · rintro ⟨i,lower,upper,ne,rfl⟩
      by_cases here : i = hole
      · exact ⟨j,first,last,different,by simp [place,here]⟩
      · exact ⟨i,lower,upper,here,by simp [place,Function.update_of_ne here]⟩

theorem Gap.placedClosed (lawful : Lawful c) (gap : Gap c s hole node others) :
    Placed c (place c s hole node) := by
  intro i lower upper
  by_cases here : i = hole
  · subst here
    simp [place,lawful.posSetpos]
  · simpa [place,lawful.posSetpos,Function.update_of_ne here,gap.apart i lower upper here] using
      gap.placed i lower upper here

structure Settled (c : Callbacks M E P) (s : M × Queue E) (others : E → Prop) : Prop where
  sound : Sound c s
  members : ∀ e, Queued s.2 e ↔ others e

theorem Gap.settle (lawful : Lawful c) (gap : Gap c s hole node others)
    (open_ : Hole (key c s) s.2.size hole) (below : Below (key c s) s.2.size hole (c.getpri s.1 node))
    (above : Above (key c s) hole (c.getpri s.1 node)) : Settled c (place c s hole node) others where
  sound :=
    { one := by
        have := gap.first
        have := gap.last
        rw [placeSize]
        omega
      placed := gap.placedClosed lawful
      ordered := by
        rw [keyPlace lawful, placeSize]
        exact close open_ below above }
  members := gap.queuedClosed

theorem riseSettled (lawful : Lawful c) (gap : Gap c s hole node others)
    (open_ : Hole (key c s) s.2.size hole) (below : Below (key c s) s.2.size hole pri)
    (carried : c.getpri s.1 node = pri) : Settled c (rise c node pri s hole) others := by
  induction s, hole using rise.induct c pri with
  | case1 s hole more ih =>
    rw [rise, dif_pos more]
    have less : pri ≤ key c s (hole / 2) := (lawful.cmp _ _).mp more.2
    have last := gap.last
    refine ih (gap.move lawful (by omega) (by omega) (by omega)) ?_ ?_ ?_
    · rw [keyPlace lawful]
      exact holeUp open_ more.1 gap.last
    · rw [keyPlace lawful]
      exact belowUp open_ more.1 less
    · simpa [place,lawful.priSetpos] using carried
  | case2 s hole stop =>
    rw [rise, dif_neg stop]
    refine gap.settle lawful open_ (carried ▸ below) ?_
    intro inner
    have : ¬ c.getpri s.1 node ≤ key c s (hole / 2) := fun less =>
      stop ⟨inner,(lawful.cmp _ _).mpr (carried ▸ less)⟩
    exact (not_le.mp this).le

theorem maxchildLeast (lawful : Lawful c) {other : Nat} (first : 1 < other) (parent : other / 2 = hole)
    (last : other < s.2.size) :
    maxchild c s hole ≠ 0 ∧ key c s (maxchild c s hole) ≤ key c s other := by
  have two : other = 2 * hole ∨ other = 2 * hole + 1 := by omega
  unfold maxchild
  rw [if_neg (by omega)]
  split
  · rename_i right
    refine ⟨by omega,?_⟩
    rcases two with rfl | rfl
    · exact (lawful.cmp _ _).mp right.2
    · exact le_rfl
  · rename_i left
    refine ⟨by omega,?_⟩
    rcases two with rfl | rfl
    · exact le_rfl
    · have : ¬ key c s (2 * hole + 1) ≤ key c s (2 * hole) := fun less =>
        left ⟨last,(lawful.cmp _ _).mpr less⟩
      exact (not_le.mp this).le

theorem sinkSettled (lawful : Lawful c) (gap : Gap c s hole node others)
    (open_ : Hole (key c s) s.2.size hole) (above : Above (key c s) hole pri)
    (carried : c.getpri s.1 node = pri) : Settled c (sink c node pri s hole) others := by
  induction s, hole using sink.induct c pri with
  | case1 s hole more ih =>
    rw [sink, dif_pos more]
    have range := maxchildRange c more.1
    have first := gap.first
    have less : key c s (maxchild c s hole) ≤ pri := (lawful.cmp _ _).mp more.2
    refine ih (gap.move lawful (by omega) range.2.1 (by omega)) ?_ ?_ ?_
    · rw [keyPlace lawful]
      exact holeDown open_ range.2.2 (by omega) range.2.1
        fun other inner parent last => (maxchildLeast (s := s) lawful inner parent last).2
    · rw [keyPlace lawful]
      exact aboveDown range.2.2 less
    · simpa [place,lawful.priSetpos] using carried
  | case2 s hole stop =>
    rw [sink, dif_neg stop]
    refine gap.settle lawful open_ ?_ (carried ▸ above)
    intro child inner parent last
    obtain ⟨more,least⟩ := maxchildLeast lawful inner parent last
    have : ¬ key c s (maxchild c s hole) ≤ c.getpri s.1 node := fun less =>
      stop ⟨more,(lawful.cmp _ _).mpr (carried ▸ less)⟩
    exact (not_le.mp this).le.trans least

theorem insertSettled (lawful : Lawful c) (sound : Sound c s) (fresh : ¬ Queued s.2 e) {grow : Bool}
    (room : ¬ Full grow s.2) :
    (insert c grow s e).1 = true ∧
      Settled c (insert c grow s e).2 (fun x => x = e ∨ Queued s.2 x) := by
  rw [insert, if_neg room]
  refine ⟨rfl,?_⟩
  simp only [bubbleUp,Function.update_self]
  refine riseSettled lawful (insertGap sound.one sound.placed fresh _) ?_ ?_ rfl
  · refine holeOfLast sound.ordered ?_
    intro i _ live
    simp [key,Function.update_of_ne (show i ≠ s.2.size by omega)]
  · intro child first parent last
    simp only at last
    omega

theorem cutOpen (sound : Sound c s) {p : Nat} (last : p < s.2.size - 1) :
    Hole (key c (cut s p)) (cut s p).2.size p :=
  holeOfOrdered sound.ordered (by omega) (fun i _ _ => cutKey s p i) (by simp only [cut]; omega)

theorem popSettledFrom (lawful : Lawful c) (sound : Sound c s) (some_ : s.2.size ≠ 1) {m : M}
    (pos : ∀ x, x ≠ s.2.d 1 → c.getpos m x = c.getpos s.1 x) (pri : ∀ x, c.getpri m x = c.getpri s.1 x) :
    (pop c (m,s.2)).1 = some (s.2.d 1) ∧
      Settled c (pop c (m,s.2)).2 (fun x => Queued s.2 x ∧ x ≠ s.2.d 1) := by
  have one := sound.one
  rw [pop, if_neg some_]
  refine ⟨rfl,?_⟩
  change Settled c (percolateDown c (cut (m,s.2) 1) 1) _
  by_cases two : s.2.size = 2
  · -- The only element is cut off, and the sift writes its dead slot.
    have size : (percolateDown c (cut (m,s.2) 1) 1).2.size = 1 := by
      rw [percolateDown, sinkSifted.size]
      simp [cut,two]
    refine ⟨⟨size.ge,?_,?_⟩,?_⟩
    · intro i lower upper
      omega
    · intro i lower upper
      omega
    · intro x
      constructor
      · rintro ⟨i,lower,upper,_⟩
        omega
      · rintro ⟨⟨i,lower,upper,rfl⟩,ne⟩
        exact absurd (congrArg s.2.d (show i = 1 by omega)) ne
  · have old := cutGap sound.placed (p := 1) le_rfl (by omega)
    have gap : Gap c (cut (m,s.2) 1) 1 (s.2.d (s.2.size - 1)) (fun x => Queued s.2 x ∧ x ≠ s.2.d 1) := by
      refine ⟨old.first,old.last,fun i lower upper ne => ?_,old.apart,old.members⟩
      have away := ((old.members _).mpr (.inr ⟨i,lower,upper,ne,rfl⟩)).2
      exact (pos _ away).trans (old.placed i lower upper ne)
    have keys : key c (cut (m,s.2) 1) = key c (cut s 1) := funext fun i => pri _
    simp only [percolateDown]
    have node : (cut (m,s.2) 1).2.d 1 = s.2.d (s.2.size - 1) := by simp [cut]
    rw [node]
    refine sinkSettled lawful gap ?_ ?_ rfl
    · rw [keys]
      exact cutOpen sound (by omega)
    · intro inner
      omega

theorem popSettled (lawful : Lawful c) (sound : Sound c s) (some_ : s.2.size ≠ 1) :
    (pop c s).1 = some (s.2.d 1) ∧
      Settled c (pop c s).2 (fun x => Queued s.2 x ∧ x ≠ s.2.d 1) :=
  popSettledFrom lawful sound some_ (fun _ _ => rfl) (fun _ => rfl)

theorem removeInner (lawful : Lawful c) (sound : Sound c s) (queued : Queued s.2 e)
    (inner : c.getpos s.1 e ≠ s.2.size - 1) :
    Settled c (remove c s e) (fun x => Queued s.2 x ∧ x ≠ e) := by
  obtain ⟨first,last,slot⟩ := sound.placed.slotOf queued
  have gap := cutGap sound.placed first (by omega)
  have open_ := cutOpen sound (p := c.getpos s.1 e) (by omega)
  have priority : key c s (c.getpos s.1 e) = c.getpri s.1 e := congrArg (c.getpri s.1) slot
  have node : (cut s (c.getpos s.1 e)).2.d (c.getpos s.1 e) = s.2.d (s.2.size - 1) := by simp [cut]
  rw [slot] at gap
  change Settled c (if _ then bubbleUp c (cut s (c.getpos s.1 e)) _
    else percolateDown c (cut s (c.getpos s.1 e)) _) _
  simp only [Function.update_self]
  split
  · rename_i less
    rw [bubbleUp, node]
    refine riseSettled lawful gap open_ ?_ rfl
    exact belowOfOrdered sound.ordered (fun i _ _ => cutKey s _ i) (by simp only [cut]; omega)
      (priority ▸ (lawful.cmp _ _).mp less)
  · rename_i more
    rw [percolateDown, node]
    refine sinkSettled lawful gap open_ ?_ rfl
    have less : c.getpri s.1 e ≤ c.getpri s.1 (s.2.d (s.2.size - 1)) :=
      (not_le.mp fun h => more ((lawful.cmp _ _).mpr h)).le
    exact aboveOfOrdered sound.ordered (by omega) (fun i _ _ => cutKey s _ i) (priority ▸ less)

/- Removing the element of the last slot compares it with itself, so the dead slot is
sifted up; a parent of equal priority then drops out of the live slots. -/
theorem removeLast (lawful : Lawful c) (placed : Placed c s) (queued : Queued s.2 e)
    (last : c.getpos s.1 e = s.2.size - 1) :
    remove c s e = rise c e (c.getpri s.1 e) (cut s (s.2.size - 1)) (s.2.size - 1) := by
  obtain ⟨_,_,slot⟩ := placed.slotOf queued
  rw [last] at slot
  simp only [remove,last,Function.update_self,slot]
  rw [if_pos ((lawful.cmp _ _).mpr le_rfl), bubbleUp]
  simp [cut,slot]

theorem removeLastUntied (lawful : Lawful c) (sound : Sound c s) (queued : Queued s.2 e)
    (last : c.getpos s.1 e = s.2.size - 1)
    (untied : 1 < s.2.size - 1 → key c s ((s.2.size - 1) / 2) ≠ c.getpri s.1 e) :
    Settled c (remove c s e) (fun x => Queued s.2 x ∧ x ≠ e) := by
  obtain ⟨first,live,slot⟩ := sound.placed.slotOf queued
  rw [last] at first live slot
  have priority : key c s (s.2.size - 1) = c.getpri s.1 e := congrArg (c.getpri s.1) slot
  have stop : ¬ (1 < s.2.size - 1 ∧ c.cmppri (c.getpri (cut s (s.2.size - 1)).1
      ((cut s (s.2.size - 1)).2.d ((s.2.size - 1) / 2))) (c.getpri s.1 e) = true) := by
    rintro ⟨inner,le⟩
    have up := sound.ordered (s.2.size - 1) inner live
    have down := (lawful.cmp _ _).mp le
    rw [show (cut s (s.2.size - 1)).2.d ((s.2.size - 1) / 2) = s.2.d ((s.2.size - 1) / 2) by
      simp [cut]] at down
    exact untied inner (le_antisymm (priority ▸ up) down)
  have away : ∀ {i}, 1 ≤ i → i < s.2.size - 1 → s.2.d i ≠ e := by
    intro i lower upper same
    have := sound.placed.slotUnique ⟨lower,by omega⟩ ⟨first,live⟩ (same.trans slot.symm)
    omega
  have slots : ∀ {i}, i < s.2.size - 1 → (place c (cut s (s.2.size - 1)) (s.2.size - 1) e).2.d i = s.2.d i := by
    intro i upper
    simp [place,cut,Function.update_of_ne (show i ≠ s.2.size - 1 by omega)]
  rw [removeLast lawful sound.placed queued last, rise, dif_neg stop]
  refine ⟨⟨first,?_,?_⟩,?_⟩
  · intro i lower upper
    change i < s.2.size - 1 at upper
    rw [slots upper]
    simpa [place,cut,lawful.posSetpos,away lower upper] using sound.placed i lower (by omega)
  · intro i inner upper
    change i < s.2.size - 1 at upper
    rw [keyPlace lawful, Function.update_of_ne (by omega), Function.update_of_ne (by omega),
      cutKey s _ _ (by omega), cutKey s _ _ (by omega)]
    exact sound.ordered i inner (by omega)
  · intro x
    constructor
    · rintro ⟨i,lower,upper,rfl⟩
      rw [slots upper]
      exact ⟨⟨i,lower,by simp only [place,cut] at upper; omega,rfl⟩,away lower upper⟩
    · rintro ⟨⟨i,lower,upper,rfl⟩,ne⟩
      have inside : i < s.2.size - 1 := by
        have : i ≠ s.2.size - 1 := fun same => ne (by rw [same, slot])
        omega
      exact ⟨i,lower,inside,slots inside⟩

theorem removeLastTied (lawful : Lawful c) (sound : Sound c s) (queued : Queued s.2 e)
    (last : c.getpos s.1 e = s.2.size - 1) (inner : 1 < s.2.size - 1)
    (tied : key c s ((s.2.size - 1) / 2) = c.getpri s.1 e) : Queued (remove c s e).2 e := by
  have parent : (cut s (s.2.size - 1)).2.d ((s.2.size - 1) / 2) = s.2.d ((s.2.size - 1) / 2) := by
    simp [cut]
  have more : c.cmppri (c.getpri (cut s (s.2.size - 1)).1
      ((cut s (s.2.size - 1)).2.d ((s.2.size - 1) / 2))) (c.getpri s.1 e) = true := by
    rw [parent]
    exact (lawful.cmp _ _).mpr tied.ge
  rw [removeLast lawful sound.placed queued last, rise, dif_pos ⟨inner,more⟩]
  have lands : ∃ j, 1 ≤ j ∧ j ≤ (s.2.size - 1) / 2 ∧ (rise c e (c.getpri s.1 e)
      (place c (cut s (s.2.size - 1)) (s.2.size - 1) ((cut s (s.2.size - 1)).2.d ((s.2.size - 1) / 2)))
      ((s.2.size - 1) / 2)).2.d j = e := riseLands (by omega)
  obtain ⟨j,lower,upper,found⟩ := lands
  refine ⟨j,lower,?_,found⟩
  rw [riseSifted.size, placeSize]
  simp only [cut]
  omega

def TiedLast (c : Callbacks M E P) (s : M × Queue E) (e : E) : Prop :=
  c.getpos s.1 e = s.2.size - 1 ∧ 1 < c.getpos s.1 e ∧
    c.getpri s.1 (s.2.d (c.getpos s.1 e / 2)) = c.getpri s.1 e

theorem removeSettled (lawful : Lawful c) (sound : Sound c s) (queued : Queued s.2 e) :
    Settled c (remove c s e) (fun x => Queued s.2 x ∧ x ≠ e) ↔ ¬ TiedLast c s e := by
  constructor
  · rintro settled ⟨last,inner,tied⟩
    rw [last] at inner tied
    exact ((settled.members e).mp (removeLastTied lawful sound queued last inner tied)).2 rfl
  · intro untied
    by_cases last : c.getpos s.1 e = s.2.size - 1
    · refine removeLastUntied lawful sound queued last fun inner tied => untied ⟨last,?_,?_⟩
      · rw [last]
        exact inner
      · rw [last]
        exact tied
    · exact removeInner lawful sound queued last

theorem bubbleUpSettled (lawful : Lawful c) (sound : Sound c s) (queued : Queued s.2 e) {m : M}
    (pos : ∀ x, c.getpos m x = c.getpos s.1 x) (pri : ∀ x, x ≠ e → c.getpri m x = c.getpri s.1 x) :
    Settled c (bubbleUp c (m,s.2) (c.getpos s.1 e)) (Queued s.2) ↔
      Below (key c s) s.2.size (c.getpos s.1 e) (c.getpri m e) := by
  obtain ⟨first,last,slot⟩ := sound.placed.slotOf queued
  have gap := carryGap sound.placed queued pos
  have same : ∀ i, 1 ≤ i → i < s.2.size → i ≠ c.getpos s.1 e → key c (m,s.2) i = key c s i :=
    fun i lower upper ne => pri _ (gap.apart i lower upper ne)
  have open_ : Hole (key c (m,s.2)) s.2.size (c.getpos s.1 e) :=
    holeOfOrdered sound.ordered last same le_rfl
  have keys : Below (key c (m,s.2)) s.2.size (c.getpos s.1 e) (c.getpri m e) ↔
      Below (key c s) s.2.size (c.getpos s.1 e) (c.getpri m e) := by
    refine forall_congr' fun child => forall_congr' fun inner => forall_congr' fun parent =>
      forall_congr' fun live => ?_
    rw [same child (by omega) live (by omega)]
  simp only [bubbleUp,slot]
  rw [← keys]
  constructor
  · intro settled child inner parent live
    by_contra lower
    have stop : ¬ (1 < c.getpos s.1 e ∧
        c.cmppri (c.getpri m (s.2.d (c.getpos s.1 e / 2))) (c.getpri m e) = true) := by
      rintro ⟨deep,le⟩
      exact lower (((lawful.cmp _ _).mp le).trans (open_.across child parent live deep))
    rw [rise, dif_neg stop] at settled
    have pair := settled.sound.ordered child inner live
    rw [keyPlace lawful, parent, Function.update_self, Function.update_of_ne (by omega)] at pair
    exact lower pair
  · intro below
    exact riseSettled lawful gap open_ below rfl

theorem changePriorityStored (lawful : Lawful c) (m : M) (q : Queue E) (e : E) :
    changePriority c (m,q) (c.getpri m e) e =
      bubbleUp c (c.setpri m e (c.getpri m e),q) (c.getpos m e) := by
  simp only [changePriority,lawful.posSetpri]
  rw [if_pos ((lawful.cmp _ _).mpr le_rfl)]

end spec
end LibProc.PriorityQueue
