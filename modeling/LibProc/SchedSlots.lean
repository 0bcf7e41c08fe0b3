import LibProc.SchedulerSpec
import LibProc.QueueSlots

/-! The two queues of a handler share one memory of events. An operation on one queue moves one
event and writes the positions of the events it sifts past, all of them in that queue. Whatever
order the queues are in, each event stays in the slot its position says. -/
namespace LibProc.Scheduler
open PriorityQueue

variable {A : Type} {ctx ctx' : EventState A} {e : EventId} {id : QueueId} {place : Option QueueId} {cb cb' : ScheduleCB A}

@[simp] theorem heapSet (r : Memory A × Queue EventId) : (ctx.setHeap id r).heap id = r := by
  cases id <;> rfl

@[simp] theorem heapSetOther {other : QueueId} (apart : other ≠ id) (r : Memory A × Queue EventId) :
    (ctx.setHeap id r).heap other = (r.1,(ctx.heap other).2) := by
  cases id <;> cases other <;> first | rfl | exact absurd rfl apart

@[simp] theorem setHeapEvents (r : Memory A × Queue EventId) : (ctx.setHeap id r).events = r.1 := by
  cases id <;> rfl

theorem heapEvents : (ctx.heap id).1 = ctx.events := by
  cases id <;> rfl

theorem heapModify (f : ScheduleCB A → ScheduleCB A) :
    (ctx.modify e f).heap id = ((ctx.modify e f).events,(ctx.heap id).2) := by
  cases id <;> rfl

def scalars (ctx : EventState A) : EventId × Int × Option EventId :=
  (ctx.fresh,ctx.criticalSchedCount,ctx.nextTimedEvent)

theorem scalarsEq {fresh : EventId} {count : Int} {next : Option EventId}
    (same : scalars ctx = (fresh,count,next)) :
    ctx.fresh = fresh ∧ ctx.criticalSchedCount = count ∧ ctx.nextTimedEvent = next := by
  simpa only [scalars,Prod.mk.injEq] using same

theorem scalarsSetHeap (r : Memory A × Queue EventId) : scalars (ctx.setHeap id r) = scalars ctx := by
  cases id <;> rfl

structure Shelves (ctx : EventState A) : Prop where
  one : ∀ id, 1 ≤ (ctx.heap id).2.size
  placed : ∀ id, Placed callbacks (ctx.heap id)
  allocated : ∀ id, Allocated (ctx.heap id).2
  apart : ∀ i j x, Queued (ctx.heap i).2 x → Queued (ctx.heap j).2 x → i = j

def Off (ctx : EventState A) (x : EventId) : Prop := ∀ id, ¬ Queued (ctx.heap id).2 x

/- From `ctx` to `ctx'` the one event `e` moves, to the queue `place` or off the queues; what
it then holds is `cb`, up to the position. -/
structure Shifted (ctx ctx' : EventState A) (e : EventId) (place : Option QueueId) (cb : ScheduleCB A) : Prop where
  shelves : Shelves ctx'
  members : ∀ id x, Queued (ctx'.heap id).2 x ↔ (x ≠ e ∧ Queued (ctx.heap id).2 x) ∨ (x = e ∧ place = some id)
  others : ∀ x, x ≠ e → body (ctx'.events x) = body (ctx.events x)
  untouched : ∀ x, x ≠ e → Off ctx x → (ctx'.events x).pos = (ctx.events x).pos
  self : body (ctx'.events e) = body cb

theorem Shifted.off (shifted : Shifted ctx ctx' e place cb) {x : EventId} (apart : x ≠ e) : Off ctx' x ↔ Off ctx x :=
  forall_congr' fun id => not_congr ((shifted.members id x).trans (by simp [apart]))

theorem Shifted.gone (shifted : Shifted ctx ctx' e none cb) : Off ctx' e :=
  fun id queued => by simpa using (shifted.members id e).mp queued

theorem Shifted.trans {ctx₁ ctx₂ : EventState A} {first second : Option QueueId} (one : Shifted ctx ctx₁ e first cb)
    (two : Shifted ctx₁ ctx₂ e second cb') : Shifted ctx ctx₂ e second cb' where
  shelves := two.shelves
  members id x := by
    rw [two.members id x, one.members id x]
    by_cases here : x = e <;> simp [here]
  others x ne := (two.others x ne).trans (one.others x ne)
  untouched x ne off := (two.untouched x ne ((one.off ne).mpr off)).trans (one.untouched x ne off)
  self := two.self

theorem Shifted.congr (shifted : Shifted ctx ctx' e place cb) (same : body cb = body cb') : Shifted ctx ctx' e place cb' :=
  ⟨shifted.shelves,shifted.members,shifted.others,shifted.untouched,shifted.self.trans same⟩

theorem Shelves.view {other : EventState A} (shelves : Shelves ctx) (same : ∀ id, other.heap id = ctx.heap id) : Shelves other := by
  refine ⟨fun id => ?_,fun id => ?_,fun id => ?_,fun i j x => ?_⟩
  · rw [same]
    exact shelves.one id
  · rw [same]
    exact shelves.placed id
  · rw [same]
    exact shelves.allocated id
  · rw [same, same]
    exact shelves.apart i j x

theorem Shifted.view {other : EventState A} (shifted : Shifted ctx ctx' e place cb)
    (same : ∀ id, other.heap id = ctx'.heap id) : Shifted ctx other e place cb := by
  have events : other.events = ctx'.events := congrArg Prod.fst (same .queue)
  refine ⟨shifted.shelves.view same,fun id x => ?_,?_,?_,?_⟩
  · rw [same]
    exact shifted.members id x
  · rw [events]
    exact shifted.others
  · rw [events]
    exact shifted.untouched
  · rw [events]
    exact shifted.self

theorem placeOf (apart : ∀ i j x, Queued (ctx.heap i).2 x → Queued (ctx.heap j).2 x → i = j) (e : EventId) :
    ∃ place, ∀ id, Queued (ctx.heap id).2 e ↔ place = some id := by
  by_cases off : Off ctx e
  · exact ⟨none,fun id => by simpa using off id⟩
  · obtain ⟨id,queued⟩ := not_forall.mp off
    refine ⟨some id,fun other => ⟨fun here => ?_,fun is => ?_⟩⟩
    · rw [apart _ _ e (not_not.mp queued) here]
    · rw [← Option.some.inj is]
      exact not_not.mp queued

theorem setHeapSelf : ctx.setHeap id (ctx.heap id) = ctx := by
  cases id <;> rfl

theorem reshelved (shelves : Shelves ctx) {r : Memory A × Queue EventId} {inside : EventId → Prop}
    (shelved : Shelved callbacks r inside) (allocated : Allocated r.2)
    (members : ∀ x, inside x ↔ (x ≠ e ∧ Queued (ctx.heap id).2 x) ∨ (x = e ∧ place = some id))
    (stays : ∀ other, place = some other → other = id) (alone : ∀ other ≠ id, ¬ Queued (ctx.heap other).2 e)
    (bodies : ∀ x, x ≠ e → body (r.1 x) = body (ctx.events x))
    (far : ∀ x, x ≠ e → ¬ Queued (ctx.heap id).2 x → (r.1 x).pos = (ctx.events x).pos) :
    Shifted ctx (ctx.setHeap id r) e place (r.1 e) := by
  have here : ∀ x, Queued ((ctx.setHeap id r).heap id).2 x ↔
      (x ≠ e ∧ Queued (ctx.heap id).2 x) ∨ (x = e ∧ place = some id) := by
    intro x
    rw [heapSet, shelved.members x, members x]
  have away : ∀ other ≠ id, ∀ x, Queued (ctx.heap other).2 x → x ≠ e ∧ ¬ Queued (ctx.heap id).2 x := by
    intro other apart x queued
    exact ⟨fun same => alone other apart (same ▸ queued),fun inside => apart (shelves.apart _ _ x queued inside)⟩
  have all : ∀ other x, Queued ((ctx.setHeap id r).heap other).2 x ↔
      (x ≠ e ∧ Queued (ctx.heap other).2 x) ∨ (x = e ∧ place = some other) := by
    intro other x
    by_cases same : other = id
    · subst same
      exact here x
    · rw [heapSetOther same]
      constructor
      · exact fun queued => .inl ⟨(away other same x queued).1,queued⟩
      · rintro (⟨-,queued⟩ | ⟨-,placed⟩)
        · exact queued
        · exact absurd (stays other placed) same
  refine ⟨⟨fun other => ?_,fun other => ?_,fun other => ?_,?_⟩,all,?_,?_,?_⟩
  · by_cases same : other = id
    · subst same
      rw [heapSet]
      exact shelved.one
    · rw [heapSetOther same]
      exact shelves.one other
  · by_cases same : other = id
    · subst same
      rw [heapSet]
      exact shelved.placed
    · rw [heapSetOther same]
      refine placedModify (m := ctx.events) (fun x queued => ?_) ?_
      · exact far x (away other same x queued).1 (away other same x queued).2
      · have placed := shelves.placed other
        rwa [← Prod.eta (ctx.heap other), heapEvents] at placed
  · by_cases same : other = id
    · subst same
      rw [heapSet]
      exact allocated
    · rw [heapSetOther same]
      exact shelves.allocated other
  · intro i j x left right
    rcases (all i x).mp left with ⟨ne,left⟩ | ⟨rfl,left⟩ <;>
      rcases (all j x).mp right with ⟨ne',right⟩ | ⟨is,right⟩
    · exact shelves.apart i j x left right
    · exact absurd is ne
    · exact absurd rfl ne'
    · exact Option.some.inj (left.symm.trans right)
  · intro x ne
    rw [setHeapEvents]
    exact bodies x ne
  · intro x ne off
    rw [setHeapEvents]
    exact far x ne (off id)
  · rw [setHeapEvents]

theorem insertShifted (shelves : Shelves ctx) (off : Off ctx e) {grow : Bool} (room : ¬ Full grow (ctx.heap id).2) :
    Shifted ctx (ctx.setHeap id (insert callbacks grow (ctx.heap id) e).2) e (some id) (ctx.events e) := by
  obtain ⟨-,shelved⟩ := insertShelved lawful (shelves.one id) (shelves.placed id) (off id) room
  refine (reshelved shelves shelved (insertAllocated (shelves.allocated id)) ?_ ?_ (fun other _ => off other) ?_ ?_).congr ?_
  · intro x
    by_cases here : x = e <;> simp [here]
  · exact fun other is => (Option.some.inj is).symm
  · intro x _
    rw [insertBody, heapEvents]
  · intro x ne absent
    have kept : callbacks.getpos (PriorityQueue.insert callbacks grow (ctx.heap id) e).2.1 x = _ :=
      insertUntouched lawful ne absent
    rwa [heapEvents] at kept
  · rw [insertBody, heapEvents]

theorem Shifted.insert (shifted : Shifted ctx ctx' e none cb) (id : QueueId) (grow : Bool) :
    ∃ place, (place = none ∨ place = some id) ∧ (place = none ↔ Full grow (ctx'.heap id).2) ∧
      ((PriorityQueue.insert callbacks grow (ctx'.heap id) e).1 = place.isSome) ∧
      Shifted ctx (ctx'.setHeap id (PriorityQueue.insert callbacks grow (ctx'.heap id) e).2) e place cb := by
  by_cases full : Full grow (ctx'.heap id).2
  · refine ⟨none,.inl rfl,by simp [full],?_,?_⟩
    · rw [insertFull full]
      rfl
    · rw [insertFull full, setHeapSelf]
      exact shifted
  · refine ⟨some id,.inr rfl,by simp [full],?_,?_⟩
    · exact (insertShelved lawful (shifted.shelves.one id) (shifted.shelves.placed id) (shifted.gone id) full).1
    · exact shifted.trans ((insertShifted shifted.shelves shifted.gone full).congr shifted.self)

theorem removeShifted (shelves : Shelves ctx) (queued : Queued (ctx.heap id).2 e)
    (spares : ¬ Displaces callbacks (ctx.heap id) e) :
    Shifted ctx (ctx.setHeap id (remove callbacks (ctx.heap id) e)) e none (ctx.events e) := by
  have shelved := removeShelved lawful (shelves.placed id) queued spares
  refine (reshelved shelves shelved (removeAllocated (shelves.allocated id)) ?_ (by simp) ?_ ?_ ?_).congr ?_
  · intro x
    simp [and_comm]
  · exact fun other apart twice => apart (shelves.apart other id e twice queued)
  · intro x _
    rw [removeBody, heapEvents]
  · intro x _ absent
    have kept := removeUntouched lawful (shelves.placed id) queued absent
    rwa [heapEvents] at kept
  · rw [removeBody, heapEvents]

theorem modifyShifted (shelves : Shelves ctx) (f : ScheduleCB A → ScheduleCB A)
    (here : ∀ id, Queued (ctx.heap id).2 e ↔ place = some id)
    (keeps : place ≠ none → (f (ctx.events e)).pos = (ctx.events e).pos) :
    Shifted ctx (ctx.modify e f) e place (f (ctx.events e)) := by
  have queue : ∀ id, ((ctx.modify e f).heap id).2 = (ctx.heap id).2 := fun id => by rw [heapModify]
  have kept : ∀ id x, Queued (ctx.heap id).2 x → ((ctx.modify e f).events x).pos = (ctx.events x).pos := by
    intro id x queued
    by_cases same : x = e
    · subst same
      rw [modifySelf]
      exact keeps (by simp [(here id).mp queued])
    · rw [modifyOther f same]
  refine ⟨⟨fun id => ?_,fun id => ?_,fun id => ?_,fun i j x left right => ?_⟩,fun id x => ?_,fun x ne => ?_,fun x ne _ => ?_,?_⟩
  · rw [queue]
    exact shelves.one id
  · rw [heapModify]
    refine placedModify (m := ctx.events) (fun x queued => kept id x queued) ?_
    have placed := shelves.placed id
    rwa [← Prod.eta (ctx.heap id), heapEvents] at placed
  · rw [queue]
    exact shelves.allocated id
  · rw [queue] at left right
    exact shelves.apart i j x left right
  · rw [queue]
    by_cases same : x = e
    · simp [same,here id]
    · simp [same]
  · rw [modifyOther f ne]
  · rw [modifyOther f ne]
  · rw [modifySelf]

theorem modifyAway (shelves : Shelves ctx) (off : Off ctx e) (f : ScheduleCB A → ScheduleCB A) :
    Shifted ctx (ctx.modify e f) e none (f (ctx.events e)) :=
  modifyShifted shelves f (fun id => by simpa using off id) (fun some => absurd rfl some)

theorem Shifted.modify (shifted : Shifted ctx ctx' e none cb) (f : ScheduleCB A → ScheduleCB A)
    (stable : ∀ a b, body a = body b → body (f a) = body (f b)) : Shifted ctx (ctx'.modify e f) e none (f cb) :=
  shifted.trans ((modifyAway shifted.shelves shifted.gone f).congr (stable _ _ shifted.self))

theorem offShifted (shelves : Shelves ctx) (off : Off ctx e) : Shifted ctx ctx e none (ctx.events e) := by
  refine (modifyAway shelves off id).view fun id => ?_
  rw [heapModify, EventState.modify]
  simp only [id_eq,Function.update_eq_self]
  cases id <;> rfl

theorem popShifted (shelves : Shelves ctx) {head : EventId} (found : peek (ctx.heap id).2 = some head) {n : Nat} :
    Queued (ctx.heap id).2 head ∧
      Shifted ctx (ctx.setHeap id (pop callbacks (setPos ctx.events head n,(ctx.heap id).2)).2) head none (ctx.events head) := by
  have one := shelves.one id
  unfold peek at found
  split at found
  · cases found
  rename_i more
  have root : (ctx.heap id).2.d 1 = head := Option.some.inj found
  have queued : Queued (ctx.heap id).2 head := ⟨1,le_rfl,by omega,root⟩
  have pos : ∀ x, x ≠ (ctx.heap id).2.d 1 → callbacks.getpos (setPos ctx.events head n) x =
      callbacks.getpos (ctx.heap id).1 x := by
    intro x ne
    rw [root] at ne
    simp [callbacks,getPos,setPos,ne,heapEvents]
  have shelved := popShelvedFrom lawful (shelves.one id) (shelves.placed id) more pos
  rw [root] at shelved
  have bodies : ∀ x, body ((pop callbacks (setPos ctx.events head n,(ctx.heap id).2)).2.1 x) = body (ctx.events x) :=
    fun x => (popBody x).trans (bodySetPos ctx.events head n x)
  refine ⟨queued,(reshelved shelves shelved (popAllocated (shelves.allocated id)) ?_ (by simp) ?_ ?_ ?_).congr (bodies head)⟩
  · intro x
    simp [and_comm]
  · exact fun other apart twice => apart (shelves.apart other id head twice queued)
  · exact fun x _ => bodies x
  · intro x ne absent
    have kept := popUntouched lawful (s := (setPos ctx.events head n,(ctx.heap id).2)) one absent
    refine Eq.trans kept ?_
    simp [callbacks,getPos,setPos,ne]

theorem popTimedShifted (shelves : Shelves ctx) {head : EventId} (found : peek ctx.queue = some head) :
    Queued ctx.queue head ∧ Shifted ctx (popTimedEvent ctx head) head none (ctx.events head) := by
  obtain ⟨queued,shifted⟩ := popShifted shelves (show peek (ctx.heap .queue).2 = some head from found)
    (n := (ctx.events head).pos)
  refine ⟨queued,?_⟩
  have self : setPos ctx.events head (ctx.events head).pos = ctx.events := by
    simp [setPos]
  rw [self] at shifted
  exact (shifted.modify (fun evt => {evt with pos := sizeMax}) fun _ _ same => same).congr rfl

theorem popDbgShifted (shelves : Shelves ctx) {head : EventId} (found : peek ctx.dbgQueue = some head) :
    Queued ctx.dbgQueue head ∧ Shifted ctx (popDbgEvent ctx head) head none (ctx.events head) := by
  obtain ⟨queued,shifted⟩ := popShifted shelves (show peek (ctx.heap .dbgQueue).2 = some head from found) (n := sizeMax)
  exact ⟨queued,shifted.view fun id => by cases id <;> rfl⟩

theorem bubbleUpShifted (shelves : Shelves ctx) (queued : Queued (ctx.heap id).2 e) :
    Shifted ctx (ctx.setHeap id (bubbleUp callbacks (ctx.heap id) (ctx.events e).pos)) e (some id) (ctx.events e) := by
  have pos : (ctx.events e).pos = callbacks.getpos (ctx.heap id).1 e := by rw [heapEvents]; rfl
  have shelved : Shelved callbacks (bubbleUp callbacks (ctx.heap id) (ctx.events e).pos) (Queued (ctx.heap id).2) := by
    rw [pos]
    exact bubbleUpShelved lawful (shelves.placed id) queued fun _ => rfl
  have bodies : ∀ x, body ((bubbleUp callbacks (ctx.heap id) (ctx.events e).pos).1 x) = body (ctx.events x) := by
    intro x
    have events : (ctx.heap id).1 = ctx.events := heapEvents
    rw [← events]
    exact riseSifted.frame (fun m => body (m x)) fun m e n => bodySetPos m e n x
  obtain ⟨first,last,slot⟩ := (shelves.placed id).slotOf queued
  rw [← pos] at first last slot
  refine (reshelved shelves shelved (riseSifted.allocated (shelves.allocated id)) ?_ ?_ ?_ (fun x _ => bodies x) ?_).congr (bodies e)
  · intro x
    by_cases here : x = e
    · simp [here,queued]
    · simp [here]
  · exact fun other is => (Option.some.inj is).symm
  · exact fun other apart twice => apart (shelves.apart other id e twice queued)
  · intro x ne absent
    have kept : callbacks.getpos (bubbleUp callbacks (ctx.heap id) (ctx.events e).pos).1 x = callbacks.getpos (ctx.heap id).1 x := by
      rw [bubbleUp, slot]
      exact riseUntouched lawful ne fun j lower upper same => absent ⟨j,lower,by omega,same⟩
    rwa [heapEvents] at kept

theorem requeueShifted (shelves : Shelves ctx) {f : ScheduleCB A → ScheduleCB A} (r : Rescheduling f)
    (queued : Queued (ctx.heap (ctx.events e).queue).2 e) (idle : (ctx.events e).inCallback = 0) :
    Shifted ctx (requeue (ctx.modify e f) e) e (some (ctx.events e).queue) (f (ctx.events e)) := by
  have only : ∀ id, Queued (ctx.heap id).2 e ↔ some (ctx.events e).queue = some id :=
    fun id => ⟨fun here => congrArg some (shelves.apart _ _ e queued here),fun is => Option.some.inj is ▸ queued⟩
  have modified := modifyShifted shelves f only fun _ => r.pos _
  have stays : Queued ((ctx.modify e f).heap (ctx.events e).queue).2 e := by
    rw [heapModify]
    exact queued
  have risen := modified.trans (bubbleUpShifted modified.shelves stays)
  rw [modifySelf] at risen
  rw [requeueIdle r idle]
  rwa [r.pos] at risen

end LibProc.Scheduler
