import LibProc.SchedHeaps
import LibProc.SchedTimed
import LibProc.Tallies
import LibProc.Runs

/-! critical_sched_count over whole runs, debugger included. An event counts while it is
queued, in its callback or held at a breakpoint. Every step moves one event at most; what
the step owes is the standing of that event, and the adjustment of the counter. -/
namespace LibProc.SchedCounter
open PriorityQueue Scheduler Runs Tallies

variable {A : Type}

def criticalEvents (w : Timed A) : Set EventId := {e | InPlay w e ∧ (w.ctx.events e).critical = true}

/- Who may call what: a handle is good while its event is in play, the loop fires between
callbacks only, and a held event pauses the main queue. -/
def allowed (w : Timed A) : SchedAct A → Prop
  | .add .. => True
  | .setCritical e _ => InPlay w e
  | .makeBreakpoint e => InPlay w e
  | .moveToMono _ _ e => Waiting w e
  | .remove e => InPlay w e
  | .fire _ => w.running = none ∧ w.ctx.nextTimedEvent = none
  | .fireDbg _ => w.running = none
  | .singleStep _ => w.running = none
  | .ret .. => True
  | .debugger .. => True

instance (w : Timed A) : ∀ act, Decidable (allowed w act)
  | .add .. => inferInstanceAs (Decidable True)
  | .setCritical e _ => inferInstanceAs (Decidable (InPlay w e))
  | .makeBreakpoint e => inferInstanceAs (Decidable (InPlay w e))
  | .moveToMono _ _ e => inferInstanceAs (Decidable (Waiting w e))
  | .remove e => inferInstanceAs (Decidable (InPlay w e))
  | .fire _ => inferInstanceAs (Decidable (_ ∧ _))
  | .fireDbg _ => inferInstanceAs (Decidable (_ = _))
  | .singleStep _ => inferInstanceAs (Decidable (_ = _))
  | .ret .. => inferInstanceAs (Decidable True)
  | .debugger .. => inferInstanceAs (Decidable True)

def heapRight (w : Timed A) : SchedAct A → Prop
  | .moveToMono _ _ e => ¬ TiedLast callbacks (w.ctx.heap (w.ctx.events e).queue) e
  | .remove e => Waiting w e → ¬ TiedLast callbacks (w.ctx.heap (w.ctx.events e).queue) e
  | _ => True

def kept (w : Timed A) : SchedAct A → Prop
  | .setCritical _ critical => charTruth critical
  | .ret true grow => ∀ run ∈ w.running, ¬ Full grow (w.ctx.heap (w.ctx.events run.event).queue).2
  | _ => True

structure Counted (w : Timed A) : Prop where
  heaps : Heaps w.ctx
  started : nullEvt < w.ctx.fresh
  standing : ∀ x, Standing w x
  stepping : ∀ run, w.running = some run → (run.singleStep = true ↔ Held w run.event)
  null : (w.ctx.events nullEvt).critical = false
  tally : Tally w.ctx.criticalSchedCount (criticalEvents w)

structure Affects (w w' : Timed A) (e : EventId) (place : Option QueueId) (cb : ScheduleCB A) : Prop where
  moved : Moved w.ctx w'.ctx e place cb
  running : ∀ x, x ≠ e → (Running w' x ↔ Running w x)
  held : ∀ x, x ≠ e → (Held w' x ↔ Held w x)
  fresh : w.ctx.fresh ≤ w'.ctx.fresh

section
variable {w w' : Timed A} {e x : EventId} {place : Option QueueId} {cb : ScheduleCB A}

theorem Affects.touches (affects : Affects w w' e place cb) : Touches w w' e place cb :=
  ⟨affects.moved.shifted,affects.running,affects.held,affects.fresh⟩

theorem Touches.affects (touches : Touches w w' e place cb) (heaps : Heaps w'.ctx) : Affects w w' e place cb :=
  ⟨touches.shifted.ordered heaps.sound,touches.running,touches.held,touches.fresh⟩

theorem Counted.stands (inv : Counted w) : Stands w := ⟨inv.standing,inv.stepping⟩

theorem Counted.after (inv : Counted w) (affects : Affects w w' e place cb) (owed : Owed w' e)
    (null : e = nullEvt → cb.critical = false) (before after : Bool) (was : e ∈ criticalEvents w ↔ before = true)
    (is : e ∈ criticalEvents w' ↔ after = true)
    (count : w'.ctx.criticalSchedCount =
      w.ctx.criticalSchedCount + (if after then 1 else 0) - (if before then 1 else 0)) : Counted w' where
  heaps := affects.moved.heaps
  started := inv.started.trans_le affects.fresh
  standing := (inv.stands.after affects.touches owed).standing
  stepping := owed.stepping
  null := by
    by_cases same : nullEvt = e
    · rw [same, sameField affects.moved.self ScheduleCB.critical fun _ => rfl]
      exact null same.symm
    · rw [sameField (affects.moved.others _ same) ScheduleCB.critical fun _ => rfl]
      exact inv.null
  tally := by
    rw [count]
    refine inv.tally.move was is fun x ne => and_congr (affects.touches.inPlay ne) ?_
    rw [sameField (affects.moved.others x ne) ScheduleCB.critical fun _ => rfl]

theorem memCritical (affects : Affects w w' e place cb) (rests : ¬ Running w' e) (free : ¬ Held w' e) :
    e ∈ criticalEvents w' ↔ (place.isSome && cb.critical) = true := by
  have critical := sameField affects.moved.self ScheduleCB.critical fun _ => rfl
  rw [Bool.and_eq_true, Option.isSome_iff_ne_none, ← affects.touches.waiting, ← critical]
  simp [criticalEvents,InPlay,rests,free]

theorem Counted.called (inv : Counted w) {ctx' : EventState A} (fresh : EventId) (count : Int)
    (moved : Moved w.ctx ctx' e place cb) (same : scalars ctx' = (fresh,count,w.ctx.nextTimedEvent))
    (rests : ¬ Running w e) (free : ¬ Held w e) (grows : w.ctx.fresh ≤ fresh) (bound : nullEvt < e ∧ e < fresh)
    (home : ∀ id, place = some id → cb.queue = id) (idle : cb.inCallback = 0) (before : Bool)
    (was : e ∈ criticalEvents w ↔ before = true)
    (adjusted : count = w.ctx.criticalSchedCount + (if place.isSome && cb.critical then 1 else 0) -
      (if before then 1 else 0)) : Counted {w with ctx := ctx'} := by
  obtain ⟨last,counted,next⟩ := scalarsEq same
  have touches := callTouches moved.shifted next (grows.trans_eq last.symm)
  have affects := touches.affects moved.heaps
  have owed := inv.stands.called touches next rests free (last.symm ▸ bound) home idle
  refine inv.after affects owed (fun null => absurd null (Nat.ne_of_gt bound.1)) before _ was
    (memCritical affects rests ?_) (counted.trans adjusted)
  rw [heldSame next]
  exact free

theorem addMoved {ctx : EventState A} (heaps : Heaps ctx) (off : Off ctx ctx.fresh) (grow : Bool)
    (now time timestep : Timeval) (call : A) : ∃ place, (place = none ∨ place = some .queue) ∧
      Moved ctx (evtSchedAddWithTimestep ctx true grow now time timestep call).2 ctx.fresh place
        (newSchedCB now time timestep call) ∧
      scalars (evtSchedAddWithTimestep ctx true grow now time timestep call).2 =
        (ctx.fresh + 1,ctx.criticalSchedCount + (if place.isSome then 1 else 0),ctx.nextTimedEvent) := by
  let new := newSchedCB now time timestep call
  let made : EventState A := {ctx with events := Function.update ctx.events ctx.fresh new, fresh := ctx.fresh + 1}
  have fresh : Moved ctx made ctx.fresh none new :=
    (modifyOff heaps off fun _ => new).view fun id => by cases id <;> rfl
  obtain ⟨place,where_,-,done,moved⟩ := fresh.insert .queue grow
  have result : (evtSchedAddWithTimestep ctx true grow now time timestep call).2 =
      if place.isSome = true then
        {made.setHeap .queue (insert callbacks grow (made.heap .queue) ctx.fresh).2 with
          criticalSchedCount := ctx.criticalSchedCount + 1}
      else made.setHeap .queue (insert callbacks grow (made.heap .queue) ctx.fresh).2 := by
    rw [← done]
    simp only [evtSchedAddWithTimestep,if_true]
    exact apply_ite Prod.snd _ _ _
  rw [result]
  refine ⟨place,where_,?_⟩
  cases place.isSome with
  | false => exact ⟨moved,by simp [scalars,EventState.setHeap,made]⟩
  | true => exact ⟨moved.view fun id => by cases id <;> rfl,by simp [scalars,EventState.setHeap,made]⟩

theorem Counted.add (inv : Counted w) (malloc grow : Bool) (now time timestep : Timeval) (call : A) :
    Counted (schedStep w (.add malloc grow now time timestep call)) := by
  cases malloc with
  | false => exact inv
  | true =>
    have out := inv.stands.outOfPlay
    have off : Off w.ctx w.ctx.fresh := fun id queued => out (.inl (waitingIff.mpr ⟨id,queued⟩))
    obtain ⟨place,where_,moved,same⟩ := addMoved inv.heaps off grow now time timestep call
    have rests : ¬ Running w w.ctx.fresh := fun running => out (.inr (.inl running))
    have free : ¬ Held w w.ctx.fresh := fun held => out (.inr (.inr held))
    refine inv.called _ _ moved same rests free (Nat.le_succ _) ⟨inv.started,Nat.lt_succ_self _⟩ ?_ rfl false ?_ ?_
    · rintro id is
      rcases where_ with none | main
      · rw [none] at is
        cases is
      · rw [main] at is
        exact Option.some.inj is
    · exact iff_of_false (fun member => out member.1) (by simp)
    · simp [newSchedCB]

theorem Counted.flagged (inv : Counted w) (inPlay : InPlay w e) {ctx' : EventState A} {count : Int}
    (f : ScheduleCB A → ScheduleCB A) (view : ∀ id, ctx'.heap id = (w.ctx.modify e f).heap id)
    (same : scalars ctx' = (w.ctx.fresh,count,w.ctx.nextTimedEvent)) (pos : ∀ cb, (f cb).pos = cb.pos)
    (nextAwake : ∀ cb, (f cb).nextAwake = cb.nextAwake) (queue : ∀ cb, (f cb).queue = cb.queue)
    (inCallback : ∀ cb, (f cb).inCallback = cb.inCallback)
    (adjusted : count = w.ctx.criticalSchedCount + (if (f (w.ctx.events e)).critical then 1 else 0) -
      (if (w.ctx.events e).critical then 1 else 0)) : Counted {w with ctx := ctx'} := by
  obtain ⟨place,here⟩ := placeOf inv.heaps.apart e
  obtain ⟨last,counted,next⟩ := scalarsEq same
  have moved := (modifyMoved inv.heaps f here fun _ => ⟨pos _,nextAwake _⟩).view view
  have affects := (callTouches moved.shifted next last.ge).affects moved.heaps
  obtain ⟨now,plays,owed⟩ := inv.stands.written inPlay f view last next pos queue (by rw [inCallback])
  refine inv.after affects owed (fun null => ?_) (w.ctx.events e).critical (f (w.ctx.events e)).critical ?_ ?_
    (counted.trans adjusted)
  · exact absurd null (Nat.ne_of_gt ((inv.standing e).bound inPlay).1)
  · simp [criticalEvents,inPlay]
  · simp [criticalEvents,plays,now]

theorem Counted.setCritical (inv : Counted w) (inPlay : InPlay w e) {critical : Int} (fits : charTruth critical) :
    Counted (schedStep w (.setCritical e critical)) := by
  refine inv.flagged inPlay (fun evt => {evt with critical := decide (critical % 256 ≠ 0)})
    (fun id => by cases id <;> rfl) rfl (fun _ => rfl) (fun _ => rfl) (fun _ => rfl) (fun _ => rfl) ?_
  simp only [charTruthKept fits,evtSchedSetCritical,EventState.modify]
  cases (w.ctx.events e).critical <;> by_cases zero : critical = 0 <;> simp [zero]

theorem Counted.makeBreakpoint (inv : Counted w) (inPlay : InPlay w e) :
    Counted (schedStep w (.makeBreakpoint e)) :=
  inv.flagged inPlay (fun evt => {evt with breakpoint := true}) (fun id => by cases id <;> rfl) rfl
    (fun _ => rfl) (fun _ => rfl) (fun _ => rfl) (fun _ => rfl) (by simp [evtSchedMakeBreakpoint,EventState.modify])

theorem monoMoved {ctx : EventState A} (heaps : Heaps ctx) (queued : Queued (ctx.heap (ctx.events e).queue).2 e)
    (untied : ¬ TiedLast callbacks (ctx.heap (ctx.events e).queue) e) (grow : Bool) (now : Timeval) :
    ∃ place, (place = none ∨ place = some .dbgQueue) ∧
      Moved ctx (evtSchedMoveToMono ctx grow now e) e place {monoEvent now (ctx.events e) with critical := false} ∧
      scalars (evtSchedMoveToMono ctx grow now e) =
        (ctx.fresh,ctx.criticalSchedCount - (if (ctx.events e).critical then 1 else 0),ctx.nextTimedEvent) := by
  let id := (ctx.events e).queue
  let out := ctx.setHeap id (remove callbacks (ctx.heap id) e)
  let timed := out.modify e (monoEvent now)
  have removed : Moved ctx timed e none (monoEvent now (ctx.events e)) :=
    (removeMoved heaps queued untied).modify (monoEvent now) fun a b same => by
      simpa [monoEvent,body] using congrArg (monoEvent now) same
  obtain ⟨place,where_,-,-,moved⟩ := removed.insert .dbgQueue grow
  let back := timed.setHeap .dbgQueue (insert callbacks grow (timed.heap .dbgQueue) e).2
  have critical : (back.events e).critical = (ctx.events e).critical :=
    sameField moved.self ScheduleCB.critical fun _ => rfl
  have scalar : scalars back = scalars ctx := (scalarsSetHeap _).trans (scalarsSetHeap _)
  let counted := if (back.events e).critical then {back with criticalSchedCount := back.criticalSchedCount - 1}
    else back
  have view : ∀ other, counted.heap other = back.heap other := by
    intro other
    simp only [counted]
    split
    · cases other <;> rfl
    · rfl
  have recounted : scalars counted =
      (ctx.fresh,ctx.criticalSchedCount - (if (ctx.events e).critical then 1 else 0),ctx.nextTimedEvent) := by
    obtain ⟨fresh,count,next⟩ := scalarsEq scalar
    simp only [counted,critical]
    cases (ctx.events e).critical <;> simp [scalars,fresh,count,next]
  refine ⟨place,where_,?_,recounted⟩
  have here : ∀ other, Queued (counted.heap other).2 e ↔ place = some other := by
    intro other
    rw [view]
    simpa using moved.members other e
  have quiet := (moved.view view).trans (modifyMoved (moved.view view).heaps
    (fun evt => {evt with critical := false}) here fun _ => ⟨rfl,rfl⟩)
  exact quiet.congr (congrArg (fun evt => ({evt with critical := false} : ScheduleCB A)) (moved.view view).self)

theorem Counted.moveToMono (inv : Counted w) (waiting : Waiting w e)
    (untied : ¬ TiedLast callbacks (w.ctx.heap (w.ctx.events e).queue) e) (grow : Bool) (now : Timeval) :
    Counted (schedStep w (.moveToMono grow now e)) := by
  obtain ⟨queued,idle,rests,free⟩ := inv.stands.queued waiting
  obtain ⟨place,where_,moved,same⟩ := monoMoved inv.heaps queued untied grow now
  refine inv.called _ _ moved same rests free le_rfl ((inv.standing e).bound (.inl waiting)) ?_ idle
    (w.ctx.events e).critical ?_ ?_
  · rintro id is
    rcases where_ with none | debug
    · rw [none] at is
      cases is
    · rw [debug] at is
      exact Option.some.inj is
  · simp [criticalEvents,InPlay,waiting]
  · simp

theorem Counted.removeHeld (inv : Counted w) (held : Held w e) (rests : ¬ Running w e) :
    Counted {w with ctx := unheld w.ctx e} := by
  obtain ⟨off,-⟩ := (inv.standing e).held held
  have moved : Moved w.ctx (unheld w.ctx e) e none (w.ctx.events e) :=
    (offMoved inv.heaps off).view fun id => by cases id <;> rfl
  obtain ⟨touches,free,owed⟩ := inv.stands.unheld inv.heaps.shelves held rests
  have affects := touches.affects moved.heaps
  refine inv.after affects owed (fun null => absurd null held.2) (w.ctx.events e).critical false ?_ ?_ ?_
  · simp [criticalEvents,InPlay,held]
  · simpa using memCritical affects rests (free e)
  · simp [unheld]

theorem Counted.remove (inv : Counted w) (inPlay : InPlay w e)
    (untied : Waiting w e → ¬ TiedLast callbacks (w.ctx.heap (w.ctx.events e).queue) e) :
    Counted (schedStep w (.remove e)) := by
  have standing := inv.standing e
  simp only [schedStep]
  by_cases running : Running w e
  · have busy : (evtSchedRemove w.ctx e).2 = w.ctx := by
      simp [evtSchedRemove,standing.busy running]
    rw [busy]
    exact inv
  by_cases waiting : Waiting w e
  · obtain ⟨queued,idle,-,free⟩ := inv.stands.queued waiting
    have bound := standing.bound inPlay
    have next : w.ctx.nextTimedEvent ≠ some e := fun is => free ⟨is,Nat.ne_of_gt bound.1⟩
    have out := (removeMoved inv.heaps queued (untied waiting)).modify (fun evt => {evt with pos := sizeMax})
      fun _ _ same => same
    rw [schedRemoveEq idle, if_neg (inv.stands.slot inv.heaps.shelves waiting).2.2]
    refine inv.called w.ctx.fresh (unheld w.ctx e).criticalSchedCount (out.view fun id => ?_) ?_ running free le_rfl
      bound (by simp) idle (w.ctx.events e).critical ?_ ?_
    · cases (w.ctx.events e).queue <;> cases id <;> rfl
    · refine (scalarsSetHeap _).trans ?_
      simp [scalars,unheld,next]
    · simp [criticalEvents,inPlay]
    · simp [unheld]
  · have held : Held w e := by
      rcases inPlay with is | is | held
      · exact absurd is waiting
      · exact absurd is running
      · exact held
    obtain ⟨idle,out⟩ := (standing.held held).2 running
    rw [schedRemoveEq idle, if_pos out]
    exact inv.removeHeld held running

theorem Counted.entered (inv : Counted w) (still : w.running = none) {ctx' : EventState A}
    (moved : Moved w.ctx ctx' e none cb) (same : scalars ctx' = scalars w.ctx) (inPlay : InPlay w e)
    (busy : cb.inCallback ≠ 0) (critical : cb.critical = (w.ctx.events e).critical) (now : Timeval) {singleStep : Bool}
    (stepping : singleStep = true ↔ Held w e) : Counted ⟨ctx',some ⟨e,now,singleStep⟩⟩ := by
  obtain ⟨last,counted,next⟩ := scalarsEq same
  obtain ⟨touches,owed⟩ := inv.stands.entered still moved.shifted last next inPlay busy now stepping
  have flag := sameField moved.self ScheduleCB.critical fun _ => rfl
  refine inv.after (touches.affects moved.heaps) owed (fun null => ?_) (w.ctx.events e).critical
    (w.ctx.events e).critical ?_ ?_ (by rw [counted]; omega)
  · exact absurd null (Nat.ne_of_gt ((inv.standing e).bound inPlay).1)
  · simp [criticalEvents,inPlay]
  · rw [← critical, ← flag]
    exact and_iff_right (.inr (.inl rfl))

theorem Counted.stopped (inv : Counted w) (still : w.running = none) (free : w.ctx.nextTimedEvent = none)
    {ctx' : EventState A} (moved : Moved w.ctx ctx' e none (w.ctx.events e))
    (same : scalars ctx' = (w.ctx.fresh,w.ctx.criticalSchedCount,some e)) (waiting : Waiting w e)
    (out : (ctx'.events e).pos = sizeMax) : Counted {w with ctx := ctx'} := by
  obtain ⟨last,counted,next⟩ := scalarsEq same
  obtain ⟨touches,held,owed⟩ := inv.stands.stopped still free moved.shifted last next waiting out
  have flag := sameField moved.self ScheduleCB.critical fun _ => rfl
  refine inv.after (touches.affects moved.heaps) owed (fun null => ?_) (w.ctx.events e).critical
    (w.ctx.events e).critical ?_ ?_ (by rw [counted]; omega)
  · exact absurd null (Nat.ne_of_gt ((inv.standing e).bound (.inl waiting)).1)
  · simp [criticalEvents,InPlay,waiting]
  · rw [← flag]
    exact and_iff_right (.inr (.inr held))

theorem enterMoved {ctx : EventState A} (heaps : Heaps ctx) (off : Off ctx e) :
    Moved ctx (enterCallback ctx e) e none (Scheduler.entered (ctx.events e)) ∧
      scalars (enterCallback ctx e) = scalars ctx :=
  ⟨(modifyOff heaps off Scheduler.entered).view fun id => by cases id <;> rfl,rfl⟩

theorem Counted.begun (inv : Counted w) (still : w.running = none) {popped ctx₀ : EventState A}
    (moved : Moved w.ctx popped e none (w.ctx.events e)) (same : scalars popped = scalars w.ctx) (inPlay : InPlay w e)
    (view : ∀ id, ctx₀.heap id = popped.heap id) (counted : scalars ctx₀ = scalars popped) (now : Timeval)
    {singleStep : Bool} (stepping : singleStep = true ↔ Held w e) :
    Counted ⟨enterCallback ctx₀ e,some ⟨e,now,singleStep⟩⟩ := by
  have out := moved.view view
  obtain ⟨entry,scalar⟩ := enterMoved out.heaps out.gone
  have into : Moved w.ctx (enterCallback ctx₀ e) e none (Scheduler.entered (w.ctx.events e)) := by
    refine (out.trans entry).congr ?_
    simpa [Scheduler.entered,body] using congrArg Scheduler.entered out.self
  exact inv.entered still into (scalar.trans (counted.trans same)) inPlay (by simp [Scheduler.entered]) rfl now stepping

theorem Counted.fire (inv : Counted w) (still : w.running = none) (free : w.ctx.nextTimedEvent = none)
    (now : Timeval) : Counted (schedStep w (.fire now)) := by
  simp only [schedStep,fireTimedEvent]
  cases found : peek w.ctx.queue with
  | none => exact inv
  | some head =>
    by_cases late : Timeval.timercmp (· > ·) (w.ctx.events head).nextAwake now = true
    · simp only [late,if_true]
      exact inv
    simp only [late]
    obtain ⟨queued,moved⟩ := popTimedMoved inv.heaps found
    obtain ⟨ctx₀,view,counted,stops | goes⟩ := beginCases (popTimedEvent w.ctx head) head false
    · rw [stops.2]
      refine inv.stopped still free (moved.view fun id => ?_) ?_ (.inl queued) ?_
      · rw [← view]
        cases id <;> rfl
      · obtain ⟨fresh,count,-⟩ := scalarsEq counted
        simp only [scalars,fresh,count]
        rfl
      · have events : ctx₀.events = (popTimedEvent w.ctx head).events := congrArg Prod.fst (view .queue)
        show (ctx₀.events head).pos = sizeMax
        rw [events, popTimedEvent, modifySelf]
    · rw [goes]
      exact inv.begun still moved rfl (.inl (.inl queued)) view counted now (by simp [Held,free])

theorem Counted.fireDbg (inv : Counted w) (still : w.running = none) (now : Timeval) :
    Counted (schedStep w (.fireDbg now)) := by
  simp only [schedStep,fireDbgEvent]
  cases found : peek w.ctx.dbgQueue with
  | none => exact inv
  | some head =>
    by_cases late : Timeval.timercmp (· > ·) (w.ctx.events head).nextAwake now = true
    · simp only [late,if_true]
      exact inv
    simp only [late]
    obtain ⟨queued,moved⟩ := popDbgMoved inv.heaps found
    obtain ⟨ctx₀,view,counted,stops | goes⟩ := beginCases (popDbgEvent w.ctx head) head true
    · cases stops.1
    · have free := (inv.stands.queued (.inr queued)).2.2.2
      rw [goes]
      exact inv.begun still moved rfl (.inl (.inr queued)) view counted now (by simpa using free)

/- The null event has been put in the place of a removed one; its step changes only its own
counters. -/
theorem Counted.stepNull (inv : Counted w) (held : w.ctx.nextTimedEvent = some nullEvt) {ctx₀ : EventState A}
    (view : ∀ id, ctx₀.heap id = w.ctx.heap id) (same : scalars ctx₀ = scalars w.ctx) (now : Timeval) :
    Counted {w with ctx := forget (finishTimedEvent (enterCallback ctx₀ nullEvt) nullEvt now false false)} := by
  have out : ¬ InPlay w nullEvt := fun inPlay => absurd ((inv.standing _).bound inPlay).1 (lt_irrefl _)
  have off : Off w.ctx nullEvt := fun id queued => out (.inl (waitingIff.mpr ⟨id,queued⟩))
  have here := (offMoved inv.heaps off).view view
  obtain ⟨entry,scalar⟩ := enterMoved here.heaps here.gone
  have moved := here.trans entry
  have plain : ((enterCallback ctx₀ nullEvt).events nullEvt).critical = false := by
    rw [sameField entry.self ScheduleCB.critical fun _ => rfl]
    exact (sameField here.self ScheduleCB.critical fun _ => rfl).trans inv.null
  have done : finishTimedEvent (enterCallback ctx₀ nullEvt) nullEvt now false false = enterCallback ctx₀ nullEvt := by
    simp [finishTimedEvent,plain]
  rw [done]
  obtain ⟨last,counted,-⟩ := scalarsEq (scalar.trans same)
  have free : ∀ x, ¬ Held {w with ctx := forget (enterCallback ctx₀ nullEvt)} x := fun x is => by
    simpa [forget] using is.1
  have before : ∀ x, ¬ Held w x := fun x is => is.2 (Option.some.inj (is.1.symm.trans held))
  have touches : Touches w {w with ctx := forget (enterCallback ctx₀ nullEvt)} nullEvt none
      (Scheduler.entered (ctx₀.events nullEvt)) :=
    ⟨moved.shifted.view fun id => by cases id <;> rfl,fun _ _ => Iff.rfl,fun x _ => iff_of_false (free x) (before x),last.ge⟩
  have affects := touches.affects (moved.view fun id => by cases id <;> rfl).heaps
  have rests : ¬ Running w nullEvt := fun running => out (.inr (.inl running))
  refine inv.after affects (inv.stands.released touches rests free fun x _ => before x) (fun _ => ?_) false false ?_ ?_ ?_
  · exact (sameField here.self ScheduleCB.critical fun _ => rfl).trans inv.null
  · exact iff_of_false (fun member => out member.1) (by simp)
  · simpa using memCritical affects rests (free _)
  · simpa [forget] using counted

theorem Counted.singleStep (inv : Counted w) (still : w.running = none) (now : Timeval) :
    Counted (schedStep w (.singleStep now)) := by
  simp only [schedStep,stepHeld]
  cases held : w.ctx.nextTimedEvent with
  | none => exact inv
  | some e =>
    obtain ⟨ctx₀,view,same,stops | goes⟩ := beginCases w.ctx e true
    · cases stops.1
    · simp only [goes]
      by_cases null : e = nullEvt
      · subst null
        rw [if_pos rfl]
        exact inv.stepNull held view same now
      · rw [if_neg null]
        have is : Held w e := ⟨held,null⟩
        have off := ((inv.standing e).held is).1
        exact inv.begun still (offMoved inv.heaps off) rfl (.inr (.inr is)) view same now (by simp [is])

theorem Counted.returned (inv : Counted w) {run : Firing} (is : w.running = some run) {done : EventState A}
    {count : Int} (moved : Moved w.ctx done run.event place cb)
    (same : scalars done = (w.ctx.fresh,count,w.ctx.nextTimedEvent))
    (home : ∀ id, place = some id → cb.queue = id) (idle : place ≠ none → cb.inCallback = 0)
    (adjusted : count = w.ctx.criticalSchedCount + (if place.isSome && cb.critical then 1 else 0) -
      (if (w.ctx.events run.event).critical then 1 else 0)) :
    Counted ⟨if run.singleStep then forget done else done,none⟩ := by
  have inPlay : InPlay w run.event := .inr (.inl (by rw [Running, is]; rfl))
  obtain ⟨last,counted,next⟩ := scalarsEq same
  obtain ⟨view,-,recounted,-⟩ := forgotten (inv.stepping run is) next
  obtain ⟨touches,free,owed⟩ := inv.stands.returned is moved.shifted last next home idle
  have affects := touches.affects (moved.view view).heaps
  refine inv.after affects owed (fun null => ?_) (w.ctx.events run.event).critical _ ?_
    (memCritical affects (by simp [Running]) free) ((recounted.trans counted).trans adjusted)
  · exact absurd null (Nat.ne_of_gt ((inv.standing run.event).bound inPlay).1)
  · simp [criticalEvents,inPlay]

theorem Counted.ret (inv : Counted w) {keep grow : Bool} (room : kept w (.ret keep grow)) :
    Counted (schedStep w (.ret keep grow)) := by
  simp only [schedStep]
  cases is : w.running with
  | none => exact inv
  | some run =>
    have running : Running w run.event := by rw [Running, is]; rfl
    have off : Off w.ctx run.event := fun id queued =>
      (inv.standing _).busy running ((inv.standing _).home id queued).2
    simp only [finish,finishTimedEvent]
    cases keep with
    | false =>
      simp only [Bool.false_eq_true,if_false]
      cases critical : (w.ctx.events run.event).critical with
      | false =>
        refine inv.returned is (offMoved inv.heaps off) rfl (by simp) (by simp) ?_
        simp [critical]
      | true =>
        refine inv.returned is ((offMoved inv.heaps off).view fun id => by cases id <;> rfl) rfl (by simp) (by simp) ?_
        simp [critical]
    | true =>
      obtain ⟨queue,-,done⟩ := keptQueue run.curTime (w.ctx.events run.event)
      have critical : (keptEvent run.curTime (w.ctx.events run.event)).critical = (w.ctx.events run.event).critical := by
        by_cases first : (w.ctx.events run.event).inCallback = 1 <;> simp [keptEvent,first]
      have changed := modifyOff inv.heaps off (keptEvent run.curTime)
      obtain ⟨place,where_,full,-,moved⟩ := changed.insert (w.ctx.events run.event).queue grow
      have some_ : place = some (w.ctx.events run.event).queue := by
        refine where_.resolve_left fun none => room run is ?_
        simpa [heapModify] using full.mp none
      simp only [if_true,modifySelf,queue]
      refine inv.returned is moved (scalarsSetHeap _) ?_ (fun _ => done) ?_
      · intro id placed
        rw [queue]
        exact Option.some.inj (some_.symm.trans placed)
      · simp [some_,critical,EventState.modify]

theorem Counted.debugger (inv : Counted w) (breakOnNext : Bool) (stepsToBreak : Int) :
    Counted (schedStep w (.debugger breakOnNext stepsToBreak)) := by
  let set : EventState A := {w.ctx with breakOnNext := breakOnNext, stepsToBreak := stepsToBreak}
  have view : ∀ id, set.heap id = w.ctx.heap id := fun id => by cases id <;> rfl
  refine ⟨⟨?_,?_,?_⟩,inv.started,fun x => ?_,inv.stepping,inv.null,inv.tally⟩
  · exact fun id => view id ▸ inv.heaps.sound id
  · exact fun id => view id ▸ inv.heaps.allocated id
  · exact fun i j => view i ▸ view j ▸ inv.heaps.apart i j
  · obtain ⟨bound,home,busy,held⟩ := inv.standing x
    refine ⟨bound,fun id => view id ▸ home id,busy,fun is => ⟨fun id => view id ▸ (held is).1 id,(held is).2⟩⟩

theorem Counted.step (inv : Counted w) {act : SchedAct A} (may : allowed w act) (right : heapRight w act)
    (fits : kept w act) : Counted (schedStep w act) := by
  cases act with
  | add malloc grow now time timestep call => exact inv.add malloc grow now time timestep call
  | setCritical e critical => exact inv.setCritical may fits
  | makeBreakpoint e => exact inv.makeBreakpoint may
  | moveToMono grow now e => exact inv.moveToMono may right grow now
  | remove e => exact inv.remove may right
  | fire now => exact inv.fire may.1 may.2 now
  | fireDbg now => exact inv.fireDbg may now
  | singleStep now => exact inv.singleStep may now
  | ret keep grow => exact inv.ret fits
  | debugger breakOnNext stepsToBreak => exact inv.debugger breakOnNext stepsToBreak

end

theorem startCounted {hashSize : Nat} (fits : 8 * (hashSize + 1) < 2 ^ 64) (events : Memory A)
    (d dbg : Nat → EventId) : Counted (startTimed hashSize events d dbg) := by
  obtain ⟨shelves,stands,out⟩ := startStands fits events d dbg
  have size : ∀ id, ((startTimed hashSize events d dbg).ctx.heap id).2.size = 1 := fun id => by cases id <;> rfl
  refine ⟨⟨fun id => ⟨shelves.one id,shelves.placed id,fun i first last => ?_⟩,shelves.allocated,shelves.apart⟩,
    Nat.one_pos,stands.standing,stands.stepping,?_,?_⟩
  · rw [size] at last
    omega
  · simp [startTimed,evtInitWithSize,clearedCB]
  · exact tallyEmpty.same fun x => iff_of_false (fun member => out x member.1) (by simp)

end LibProc.SchedCounter
