import LibProc.SchedSlots

/-! The same two queues in order. An operation on one of them leaves the other in order too, for
the events there keep their times and their slots. -/
namespace LibProc.Scheduler
open PriorityQueue

variable {A : Type} {ctx ctx' : EventState A} {e : EventId} {id : QueueId} {place : Option QueueId} {cb cb' : ScheduleCB A}

structure Heaps (ctx : EventState A) : Prop where
  sound : ∀ id, Sound callbacks (ctx.heap id)
  allocated : ∀ id, Allocated (ctx.heap id).2
  apart : ∀ i j x, Queued (ctx.heap i).2 x → Queued (ctx.heap j).2 x → i = j

structure Moved (ctx ctx' : EventState A) (e : EventId) (place : Option QueueId) (cb : ScheduleCB A) : Prop where
  heaps : Heaps ctx'
  members : ∀ id x, Queued (ctx'.heap id).2 x ↔ (x ≠ e ∧ Queued (ctx.heap id).2 x) ∨ (x = e ∧ place = some id)
  others : ∀ x, x ≠ e → body (ctx'.events x) = body (ctx.events x)
  untouched : ∀ x, x ≠ e → Off ctx x → (ctx'.events x).pos = (ctx.events x).pos
  self : body (ctx'.events e) = body cb

theorem Heaps.shelves (heaps : Heaps ctx) : Shelves ctx :=
  ⟨fun id => (heaps.sound id).one,fun id => (heaps.sound id).placed,heaps.allocated,heaps.apart⟩

theorem Moved.shifted (moved : Moved ctx ctx' e place cb) : Shifted ctx ctx' e place cb :=
  ⟨moved.heaps.shelves,moved.members,moved.others,moved.untouched,moved.self⟩

theorem Shifted.ordered (shifted : Shifted ctx ctx' e place cb) (sound : ∀ id, Sound callbacks (ctx'.heap id)) :
    Moved ctx ctx' e place cb :=
  ⟨⟨sound,shifted.shelves.allocated,shifted.shelves.apart⟩,shifted.members,shifted.others,shifted.untouched,shifted.self⟩

theorem Moved.gone (moved : Moved ctx ctx' e none cb) : Off ctx' e := moved.shifted.gone

theorem Moved.trans {ctx₁ ctx₂ : EventState A} {first second : Option QueueId} (one : Moved ctx ctx₁ e first cb)
    (two : Moved ctx₁ ctx₂ e second cb') : Moved ctx ctx₂ e second cb' :=
  (one.shifted.trans two.shifted).ordered two.heaps.sound

theorem Moved.congr (moved : Moved ctx ctx' e place cb) (same : body cb = body cb') : Moved ctx ctx' e place cb' :=
  (moved.shifted.congr same).ordered moved.heaps.sound

theorem Moved.view {other : EventState A} (moved : Moved ctx ctx' e place cb)
    (same : ∀ id, other.heap id = ctx'.heap id) : Moved ctx other e place cb :=
  (moved.shifted.view same).ordered fun id => by
    rw [same]
    exact moved.heaps.sound id

theorem Shifted.moved {r : Memory A × Queue EventId} (shifted : Shifted ctx (ctx.setHeap id r) e place cb)
    (heaps : Heaps ctx) (sound : Sound callbacks r) (stays : ∀ other, place = some other → other = id) :
    Moved ctx (ctx.setHeap id r) e place cb := by
  refine shifted.ordered fun other => ?_
  by_cases same : other = id
  · subst same
    rw [heapSet]
    exact sound
  have placed := shifted.shelves.placed other
  have before := heaps.sound other
  have still : ∀ x, Queued (ctx.heap other).2 x → x ≠ e := by
    rintro x queued rfl
    have now : Queued ((ctx.setHeap id r).heap other).2 x := by
      rw [heapSetOther same]
      exact queued
    rcases (shifted.members other x).mp now with ⟨ne,-⟩ | ⟨-,is⟩
    · exact ne rfl
    · exact same (stays other is)
  rw [heapSetOther same] at placed ⊢
  rw [← Prod.eta (ctx.heap other), heapEvents] at before
  refine soundModify (m := ctx.events) (fun x queued => ?_) (fun x queued => ?_) before
  · obtain ⟨i,first,last,rfl⟩ := queued
    exact (placed i first last).trans (before.placed i first last).symm
  · have kept := shifted.others x (still x queued)
    rw [setHeapEvents] at kept
    exact sameField kept ScheduleCB.nextAwake fun _ => rfl

theorem insertMoved (heaps : Heaps ctx) (off : Off ctx e) {grow : Bool} (room : ¬ Full grow (ctx.heap id).2) :
    Moved ctx (ctx.setHeap id (insert callbacks grow (ctx.heap id) e).2) e (some id) (ctx.events e) :=
  (insertShifted heaps.shelves off room).moved heaps (insertSettled lawful (heaps.sound id) (off id) room).2.sound
    fun _ is => (Option.some.inj is).symm

theorem Moved.insert (moved : Moved ctx ctx' e none cb) (id : QueueId) (grow : Bool) :
    ∃ place, (place = none ∨ place = some id) ∧ (place = none ↔ Full grow (ctx'.heap id).2) ∧
      ((PriorityQueue.insert callbacks grow (ctx'.heap id) e).1 = place.isSome) ∧
      Moved ctx (ctx'.setHeap id (PriorityQueue.insert callbacks grow (ctx'.heap id) e).2) e place cb := by
  by_cases full : Full grow (ctx'.heap id).2
  · refine ⟨none,.inl rfl,by simp [full],?_,?_⟩
    · rw [insertFull full]
      rfl
    · rw [insertFull full, setHeapSelf]
      exact moved
  · refine ⟨some id,.inr rfl,by simp [full],?_,?_⟩
    · exact (insertSettled lawful (moved.heaps.sound id) (moved.gone id) full).1
    · exact moved.trans ((insertMoved moved.heaps moved.gone full).congr moved.self)

theorem tiedOfDisplaces {s : Memory A × Queue EventId} (sound : Sound callbacks s) (queued : Queued s.2 e)
    (displaces : Displaces callbacks s e) : TiedLast callbacks s e := by
  obtain ⟨last,inner,late⟩ := displaces
  obtain ⟨-,live,slot⟩ := sound.placed.slotOf queued
  refine ⟨last,inner,le_antisymm ?_ ((lawful.cmp _ _).mp late)⟩
  have above := sound.ordered _ inner live
  rwa [key, key, slot] at above

theorem removeMoved (heaps : Heaps ctx) (queued : Queued (ctx.heap id).2 e)
    (untied : ¬ TiedLast callbacks (ctx.heap id) e) :
    Moved ctx (ctx.setHeap id (remove callbacks (ctx.heap id) e)) e none (ctx.events e) :=
  (removeShifted heaps.shelves queued fun displaces => untied (tiedOfDisplaces (heaps.sound id) queued displaces)).moved heaps
    ((removeSettled lawful (heaps.sound id) queued).mpr untied).sound (by simp)

theorem modifyMoved (heaps : Heaps ctx) (f : ScheduleCB A → ScheduleCB A)
    (here : ∀ id, Queued (ctx.heap id).2 e ↔ place = some id)
    (keeps : place ≠ none → (f (ctx.events e)).pos = (ctx.events e).pos ∧
      (f (ctx.events e)).nextAwake = (ctx.events e).nextAwake) :
    Moved ctx (ctx.modify e f) e place (f (ctx.events e)) := by
  refine (modifyShifted heaps.shelves f here fun some => (keeps some).1).ordered fun id => ?_
  have kept : ∀ x, Queued (ctx.heap id).2 x → ((ctx.modify e f).events x).pos = (ctx.events x).pos ∧
      ((ctx.modify e f).events x).nextAwake = (ctx.events x).nextAwake := by
    intro x queued
    by_cases same : x = e
    · subst same
      rw [modifySelf]
      exact keeps (by simp [(here id).mp queued])
    · rw [modifyOther f same]
      exact ⟨rfl,rfl⟩
  have before := heaps.sound id
  rw [← Prod.eta (ctx.heap id), heapEvents] at before
  rw [heapModify]
  exact soundModify (fun x queued => (kept x queued).1) (fun x queued => (kept x queued).2) before

theorem modifyOff (heaps : Heaps ctx) (off : Off ctx e) (f : ScheduleCB A → ScheduleCB A) :
    Moved ctx (ctx.modify e f) e none (f (ctx.events e)) :=
  modifyMoved heaps f (fun id => by simpa using off id) (fun some => absurd rfl some)

theorem offMoved (heaps : Heaps ctx) (off : Off ctx e) : Moved ctx ctx e none (ctx.events e) :=
  (offShifted heaps.shelves off).ordered heaps.sound

theorem Moved.modify (moved : Moved ctx ctx' e none cb) (f : ScheduleCB A → ScheduleCB A)
    (stable : ∀ a b, body a = body b → body (f a) = body (f b)) : Moved ctx (ctx'.modify e f) e none (f cb) :=
  moved.trans ((modifyOff moved.heaps moved.gone f).congr (stable _ _ moved.self))

theorem popMoved (heaps : Heaps ctx) {head : EventId} (found : peek (ctx.heap id).2 = some head) {n : Nat} :
    Moved ctx (ctx.setHeap id (pop callbacks (setPos ctx.events head n,(ctx.heap id).2)).2) head none (ctx.events head) := by
  have shifted := (popShifted heaps.shelves found (n := n)).2
  unfold peek at found
  split at found
  · cases found
  rename_i more
  have root : (ctx.heap id).2.d 1 = head := Option.some.inj found
  have settled := (popSettledFrom lawful (heaps.sound id) more (m := setPos ctx.events head n) (fun x ne => ?_) fun x => ?_).2
  · exact shifted.moved heaps settled.sound (by simp)
  · rw [root] at ne
    simp [callbacks,getPos,setPos,ne,heapEvents]
  · rw [heapEvents]
    exact lawful.priSetpos ctx.events head n x

theorem popTimedMoved (heaps : Heaps ctx) {head : EventId} (found : peek ctx.queue = some head) :
    Queued ctx.queue head ∧ Moved ctx (popTimedEvent ctx head) head none (ctx.events head) := by
  obtain ⟨queued,shifted⟩ := popTimedShifted heaps.shelves found
  have moved := popMoved heaps (show peek (ctx.heap .queue).2 = some head from found) (n := (ctx.events head).pos)
  have self : setPos ctx.events head (ctx.events head).pos = ctx.events := by
    simp [setPos]
  rw [self] at moved
  exact ⟨queued,(moved.modify (fun evt => {evt with pos := sizeMax}) fun _ _ same => same).congr rfl⟩

theorem popDbgMoved (heaps : Heaps ctx) {head : EventId} (found : peek ctx.dbgQueue = some head) :
    Queued ctx.dbgQueue head ∧ Moved ctx (popDbgEvent ctx head) head none (ctx.events head) := by
  have moved := popMoved heaps (show peek (ctx.heap .dbgQueue).2 = some head from found) (n := sizeMax)
  exact ⟨(popDbgShifted heaps.shelves found).1,moved.view fun id => by cases id <;> rfl⟩

end LibProc.Scheduler
