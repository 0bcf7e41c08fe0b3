import LibProc.SchedTimed
import LibProc.Runs

/-! What a handle of a timed event leads to. An event that was added and not yet freed is on the
queue it points at, in its callback, or held by the debugger; only on the queue does its
position name a slot, and the calls do not all ask where it is. -/
namespace LibProc.SchedHandles
open PriorityQueue Scheduler Runs SchedCounter

variable {A : Type}

structure Handles (A : Type) where
  timed : Timed A
  live : EventId → Bool

inductive HandleAct (A : Type) where
  | sched (act : SchedAct A)
  | update (now : Timeval) (e : EventId) (time : Timeval)
  | updatePartialCredit (now : Timeval) (e : EventId) (time : Timeval)

def liveAfter (w : Handles A) : SchedAct A → EventId → Bool
  | .add malloc grow now time timestep call =>
    match (evtSchedAddWithTimestep w.timed.ctx malloc grow now time timestep call).1 with
    | some e => Function.update w.live e true
    | none => w.live
  | .remove e => if (w.timed.ctx.events e).inCallback = 0 then Function.update w.live e false else w.live
  | .ret false _ =>
    match w.timed.running with
    | some run => Function.update w.live run.event false
    | none => w.live
  | _ => w.live

def handleStep (w : Handles A) : HandleAct A → Handles A
  | .sched act => ⟨schedStep w.timed act,liveAfter w act⟩
  | .update now e time => {w with timed := {w.timed with ctx := evtSchedUpdate w.timed.ctx now e time}}
  | .updatePartialCredit now e time =>
    {w with timed := {w.timed with ctx := evtSchedUpdatePartialCredit w.timed.ctx now e time}}

def startHandles (hashSize : Nat) (events : Memory A) (d dbg : Nat → EventId) : Handles A :=
  ⟨startTimed hashSize events d dbg,fun _ => false⟩

def updated (now time : Timeval) (evt : ScheduleCB A) : ScheduleCB A :=
  {evt with scheduleTime := now, nextAwake := Timeval.timeradd now time, timeStep := time}

def credited (now time : Timeval) (evt : ScheduleCB A) : ScheduleCB A :=
  {evt with nextAwake := creditedAwake now evt.scheduleTime time, timeStep := time}

def requeueWithin (ctx : EventState A) (e : EventId) : Prop :=
  (ctx.events e).inCallback = 0 → Within (ctx.heap (ctx.events e).queue).2.size
    (changePriorityTouches callbacks (ctx.heap (ctx.events e).queue) (ctx.events e).nextAwake e)

def removeWithin (ctx : EventState A) (e : EventId) : Prop :=
  Within (ctx.heap (ctx.events e).queue).2.size (removeTouches callbacks (ctx.heap (ctx.events e).queue) e)

def monoRemoved (ctx : EventState A) (now : Timeval) (e : EventId) : EventState A :=
  (ctx.setHeap (ctx.events e).queue (remove callbacks (ctx.heap (ctx.events e).queue) e)).modify e (monoEvent now)

def inUse (ctx : EventState A) : HandleAct A → Prop
  | .update now e time => requeueWithin (ctx.modify e (updated now time)) e
  | .updatePartialCredit now e time => requeueWithin (ctx.modify e (credited now time)) e
  | .sched (.remove e) => (ctx.events e).inCallback = 0 → (ctx.events e).pos ≠ sizeMax → removeWithin ctx e
  | .sched (.moveToMono grow now e) => removeWithin ctx e ∧
    Within ((monoRemoved ctx now e).dbgQueue.size + 1) (insertTouches callbacks grow ((monoRemoved ctx now e).heap .dbgQueue) e)
  | _ => True

/- A call is given an event that was added and not yet freed; the loop fires between callbacks
only, and a held event pauses the main queue. -/
def mayCall (w : Handles A) : HandleAct A → Prop
  | .update _ e _ => w.live e = true
  | .updatePartialCredit _ e _ => w.live e = true
  | .sched (.setCritical e _) => w.live e = true
  | .sched (.makeBreakpoint e) => w.live e = true
  | .sched (.moveToMono _ _ e) => w.live e = true
  | .sched (.remove e) => w.live e = true
  | .sched (.fire _) => w.timed.running = none ∧ w.timed.ctx.nextTimedEvent = none
  | .sched (.fireDbg _) => w.timed.running = none
  | .sched (.singleStep _) => w.timed.running = none
  | _ => True

def Paused (w : Timed A) (e : EventId) : Prop := Held w e ∧ ¬ Running w e

/- No update of a paused event, no move of one that is paused or in its callback, nothing taken
out of a last slot from below a parent that is no earlier, and memory for what comes back. -/
def sparesSlots (w : Timed A) : HandleAct A → Prop
  | .update _ e _ => ¬ Paused w e
  | .updatePartialCredit _ e _ => ¬ Paused w e
  | .sched (.remove e) => Waiting w e → ¬ Displaces callbacks (w.ctx.heap (w.ctx.events e).queue) e
  | .sched (.moveToMono grow _ e) => ¬ Held w e ∧ ¬ Running w e ∧
    ¬ Displaces callbacks (w.ctx.heap (w.ctx.events e).queue) e ∧
    ((w.ctx.events e).queue = .queue → ¬ Full grow w.ctx.dbgQueue)
  | .sched (.ret true grow) => ∀ run ∈ w.running, ¬ Full grow (w.ctx.heap (w.ctx.events run.event).queue).2
  | _ => True

structure Handled (w : Handles A) : Prop where
  shelves : Shelves w.timed.ctx
  started : nullEvt < w.timed.ctx.fresh
  standing : ∀ x, Standing w.timed x
  stepping : ∀ run, w.timed.running = some run → (run.singleStep = true ↔ Held w.timed run.event)
  live : ∀ x, w.live x = true ↔ InPlay w.timed x

structure Reached (w w' : Handles A) (e : EventId) : Prop where
  handled : Handled w'
  touches : ∃ place cb, Touches w.timed w'.timed e place cb
  call : ∀ x, x < w.timed.ctx.fresh → (w'.timed.ctx.events x).call = (w.timed.ctx.events x).call

def touched (w : Handles A) : HandleAct A → EventId
  | .update _ e _ => e
  | .updatePartialCredit _ e _ => e
  | .sched (.add ..) => w.timed.ctx.fresh
  | .sched (.setCritical e _) => e
  | .sched (.makeBreakpoint e) => e
  | .sched (.moveToMono _ _ e) => e
  | .sched (.remove e) => e
  | .sched (.fire now) => ((fireTimedEvent w.timed.ctx now).1.map Prod.fst).getD nullEvt
  | .sched (.fireDbg now) => (fireDbgEvent w.timed.ctx now).1.getD nullEvt
  | .sched (.singleStep _) => w.timed.ctx.nextTimedEvent.getD nullEvt
  | .sched (.ret ..) => (w.timed.running.map Firing.event).getD nullEvt
  | .sched (.debugger ..) => nullEvt

section
variable {w : Handles A} {w' : Timed A} {e x : EventId} {place : Option QueueId} {cb : ScheduleCB A}

theorem Handled.stands (inv : Handled w) : Stands w.timed := ⟨inv.standing,inv.stepping⟩

theorem Handled.after (inv : Handled w) (touches : Touches w.timed w' e place cb) (owed : Owed w' e)
    (calls : e < w.timed.ctx.fresh → cb.call = (w.timed.ctx.events e).call) {live : EventId → Bool}
    (others : ∀ x, x ≠ e → live x = w.live x) (own : live e = true ↔ InPlay w' e) : Reached w ⟨w',live⟩ e := by
  have stands := inv.stands.after touches owed
  refine ⟨⟨touches.shifted.shelves,inv.started.trans_le touches.fresh,stands.standing,stands.stepping,fun x => ?_⟩,
    ⟨place,cb,touches⟩,fun x old => ?_⟩
  · by_cases same : x = e
    · exact same ▸ own
    · change live x = true ↔ InPlay w' x
      rw [others x same, inv.live x]
      exact (touches.inPlay same).symm
  · by_cases same : x = e
    · subst same
      exact (sameField touches.shifted.self ScheduleCB.call fun _ => rfl).trans (calls old)
    · exact sameField (touches.shifted.others x same) ScheduleCB.call fun _ => rfl

theorem Handled.same (inv : Handled w) (e : EventId) : Reached w w e := by
  obtain ⟨place,here⟩ := placeOf inv.shelves.apart e
  have shifted := (modifyShifted inv.shelves id here fun _ => rfl).view fun id => show w.timed.ctx.heap id = _ by
    rw [heapModify, EventState.modify]
    simp only [id_eq,Function.update_eq_self]
    cases id <;> rfl
  exact ⟨inv,⟨place,_,shifted,fun _ _ => Iff.rfl,fun _ _ => Iff.rfl,le_rfl⟩,fun _ _ => rfl⟩

theorem Handled.called (inv : Handled w) {ctx' : EventState A} (shifted : Shifted w.timed.ctx ctx' e place cb)
    (next : ctx'.nextTimedEvent = w.timed.ctx.nextTimedEvent) (rests : ¬ Running w.timed e) (free : ¬ Held w.timed e)
    (grows : w.timed.ctx.fresh ≤ ctx'.fresh) (bound : nullEvt < e ∧ e < ctx'.fresh)
    (home : ∀ id, place = some id → cb.queue = id) (idle : cb.inCallback = 0)
    (calls : e < w.timed.ctx.fresh → cb.call = (w.timed.ctx.events e).call) {live : EventId → Bool}
    (others : ∀ x, x ≠ e → live x = w.live x) (own : live e = place.isSome) :
    Reached w ⟨{w.timed with ctx := ctx'},live⟩ e := by
  have touches := callTouches shifted next grows
  have owed := inv.stands.called touches next rests free bound home idle
  refine inv.after touches owed calls others ?_
  rw [own, Option.isSome_iff_ne_none, ← touches.waiting]
  refine ⟨fun waiting => .inl waiting,fun inPlay => inPlay.resolve_right fun other => other.elim rests ?_⟩
  rw [heldSame next]
  exact free

theorem Handled.written (inv : Handled w) (live : w.live e = true) {ctx' : EventState A} (f : ScheduleCB A → ScheduleCB A)
    (view : ∀ id, ctx'.heap id = (w.timed.ctx.modify e f).heap id) (fresh : ctx'.fresh = w.timed.ctx.fresh)
    (next : ctx'.nextTimedEvent = w.timed.ctx.nextTimedEvent) (pos : ∀ cb, (f cb).pos = cb.pos)
    (queue : ∀ cb, (f cb).queue = cb.queue) (call : ∀ cb, (f cb).call = cb.call)
    (idle : (f (w.timed.ctx.events e)).inCallback = 0 ↔ (w.timed.ctx.events e).inCallback = 0) :
    Reached w ⟨{w.timed with ctx := ctx'},w.live⟩ e := by
  obtain ⟨place,here⟩ := placeOf inv.shelves.apart e
  have shifted := (modifyShifted inv.shelves f here fun _ => pos _).view view
  obtain ⟨-,plays,owed⟩ := inv.stands.written ((inv.live e).mp live) f view fresh next pos queue idle
  exact inv.after (callTouches shifted next fresh.ge) owed (fun _ => call _) (fun _ _ => rfl) (iff_of_true live plays)

theorem Handled.updated (inv : Handled w) (live : w.live e = true) (spared : ¬ Paused w.timed e)
    {f : ScheduleCB A → ScheduleCB A} (r : Rescheduling f) (call : ∀ cb, (f cb).call = cb.call) :
    Reached w ⟨{w.timed with ctx := requeue (w.timed.ctx.modify e f) e},w.live⟩ e := by
  have inPlay := (inv.live e).mp live
  have standing := inv.standing e
  by_cases waiting : Waiting w.timed e
  · obtain ⟨queued,idle,rests,free⟩ := inv.stands.queued waiting
    have shifted := requeueShifted inv.shelves r queued idle
    have same : scalars (requeue (w.timed.ctx.modify e f) e) = scalars w.timed.ctx := by
      rw [requeue]
      split
      · exact scalarsSetHeap _
      · rfl
    obtain ⟨fresh,-,next⟩ := scalarsEq same
    refine inv.called shifted next rests free fresh.ge ?_ ?_ ((r.inCallback _).trans idle) (fun _ => call _)
      (fun _ _ => rfl) live
    · rw [fresh]
      exact standing.bound inPlay
    · intro id is
      rw [r.queue]
      exact Option.some.inj is
  · have busy : (w.timed.ctx.events e).inCallback ≠ 0 := by
      rcases inPlay with waits | running | held
      · exact absurd waits waiting
      · exact standing.busy running
      · exact standing.busy (not_not.mp fun rests => spared ⟨held,rests⟩)
    rw [requeueRunning r busy]
    exact inv.written live (fun evt => {f evt with inCallback := 2}) (fun _ => rfl) rfl rfl r.pos r.queue call
      (iff_of_false (by simp) busy)

theorem addShifted {ctx : EventState A} (shelves : Shelves ctx) (off : Off ctx ctx.fresh) (grow : Bool)
    (now time timestep : Timeval) (call : A) : ∃ place, (place = none ∨ place = some .queue) ∧
      Shifted ctx (evtSchedAddWithTimestep ctx true grow now time timestep call).2 ctx.fresh place
        (newSchedCB now time timestep call) ∧
      (evtSchedAddWithTimestep ctx true grow now time timestep call).1 = (if place.isSome then some ctx.fresh else none) ∧
      (evtSchedAddWithTimestep ctx true grow now time timestep call).2.fresh = ctx.fresh + 1 ∧
      (evtSchedAddWithTimestep ctx true grow now time timestep call).2.nextTimedEvent = ctx.nextTimedEvent := by
  let new := newSchedCB now time timestep call
  let made : EventState A := {ctx with events := Function.update ctx.events ctx.fresh new, fresh := ctx.fresh + 1}
  have fresh : Shifted ctx made ctx.fresh none new :=
    (modifyAway shelves off fun _ => new).view fun id => by cases id <;> rfl
  obtain ⟨place,where_,-,done,shifted⟩ := fresh.insert .queue grow
  refine ⟨place,where_,?_⟩
  simp only [evtSchedAddWithTimestep,if_true]
  cases some_ : place.isSome with
  | false =>
    rw [some_] at done
    rw [if_neg (by rw [done]; exact Bool.false_ne_true)]
    exact ⟨shifted,rfl,rfl,rfl⟩
  | true =>
    rw [some_] at done
    rw [if_pos done]
    exact ⟨shifted.view fun id => by cases id <;> rfl,rfl,rfl,rfl⟩

theorem Handled.add (inv : Handled w) (malloc grow : Bool) (now time timestep : Timeval) (call : A) :
    Reached w (handleStep w (.sched (.add malloc grow now time timestep call))) w.timed.ctx.fresh := by
  cases malloc with
  | false => exact inv.same _
  | true =>
    have out := inv.stands.outOfPlay
    have off : Off w.timed.ctx w.timed.ctx.fresh := fun id queued => out (.inl (waitingIff.mpr ⟨id,queued⟩))
    obtain ⟨place,where_,shifted,result,fresh,next⟩ := addShifted inv.shelves off grow now time timestep call
    have gone : w.live w.timed.ctx.fresh = false := Bool.eq_false_iff.mpr fun live => out ((inv.live _).mp live)
    refine inv.called shifted next (fun running => out (.inr (.inl running))) (fun held => out (.inr (.inr held))) ?_ ?_ ?_ rfl
      (fun old => absurd old (lt_irrefl _)) (fun x ne => ?_) ?_
    · rw [fresh]
      exact Nat.le_succ _
    · rw [fresh]
      exact ⟨inv.started,Nat.lt_succ_self _⟩
    · rintro id rfl
      exact (Option.some.inj (where_.resolve_left (Option.some_ne_none _))).symm
    · rw [liveAfter, result]
      cases place with
      | none => rfl
      | some id => exact Function.update_of_ne ne _ _
    · rw [liveAfter, result]
      cases place with
      | none => exact gone
      | some id => exact Function.update_self _ _ _

theorem monoRoom {ctx : EventState A} (shelves : Shelves ctx) (queued : Queued (ctx.heap (ctx.events e).queue).2 e)
    {grow : Bool} (room : (ctx.events e).queue = .queue → ¬ Full grow ctx.dbgQueue) (now : Timeval) :
    ¬ Full grow ((monoRemoved ctx now e).heap .dbgQueue).2 := by
  rw [monoRemoved, heapModify]
  cases own : (ctx.events e).queue with
  | queue => exact room own
  | dbgQueue =>
    rw [own] at queued
    obtain ⟨i,first,last,-⟩ := queued
    have size : (ctx.heap .dbgQueue).2.size ≤ (ctx.heap .dbgQueue).2.avail := (shelves.allocated .dbgQueue).size
    rintro ⟨full,-⟩
    rw [heapSet] at full
    have sifted : (PriorityQueue.remove callbacks (ctx.heap .dbgQueue) e).2.avail = (ctx.heap .dbgQueue).2.avail ∧
        (PriorityQueue.remove callbacks (ctx.heap .dbgQueue) e).2.size = (ctx.heap .dbgQueue).2.size - 1 := by
      simp only [PriorityQueue.remove]
      split
      · exact ⟨riseSifted.avail,riseSifted.size⟩
      · exact ⟨sinkSifted.avail,sinkSifted.size⟩
    rw [sifted.1, sifted.2] at full
    omega

theorem monoRemovedShifted {ctx : EventState A} (shelves : Shelves ctx) (queued : Queued (ctx.heap (ctx.events e).queue).2 e)
    (spares : ¬ Displaces callbacks (ctx.heap (ctx.events e).queue) e) (now : Timeval) :
    Shifted ctx (monoRemoved ctx now e) e none (monoEvent now (ctx.events e)) :=
  (removeShifted shelves queued spares).modify (monoEvent now) fun a b same => by
    simpa [monoEvent,body] using congrArg (monoEvent now) same

theorem monoShifted {ctx : EventState A} (shelves : Shelves ctx) (queued : Queued (ctx.heap (ctx.events e).queue).2 e)
    (spares : ¬ Displaces callbacks (ctx.heap (ctx.events e).queue) e) {grow : Bool}
    (room : (ctx.events e).queue = .queue → ¬ Full grow ctx.dbgQueue) (now : Timeval) :
    Shifted ctx (evtSchedMoveToMono ctx grow now e) e (some .dbgQueue) {monoEvent now (ctx.events e) with critical := false} ∧
      (evtSchedMoveToMono ctx grow now e).fresh = ctx.fresh ∧
      (evtSchedMoveToMono ctx grow now e).nextTimedEvent = ctx.nextTimedEvent := by
  have removed := monoRemovedShifted shelves queued spares now
  have back := removed.trans ((insertShifted removed.shelves removed.gone (monoRoom shelves queued room now)).congr removed.self)
  let put := (monoRemoved ctx now e).setHeap .dbgQueue (insert callbacks grow ((monoRemoved ctx now e).heap .dbgQueue) e).2
  let counted := if (put.events e).critical then {put with criticalSchedCount := put.criticalSchedCount - 1} else put
  have view : ∀ other, counted.heap other = put.heap other := by
    intro other
    simp only [counted]
    split
    · cases other <;> rfl
    · rfl
  have scalar : scalars put = scalars ctx := (scalarsSetHeap _).trans (scalarsSetHeap _)
  obtain ⟨fresh,-,next⟩ := scalarsEq scalar
  have same : counted.fresh = ctx.fresh ∧ counted.nextTimedEvent = ctx.nextTimedEvent := by
    simp only [counted]
    split <;> exact ⟨fresh,next⟩
  have shifted : Shifted ctx counted e (some .dbgQueue) (monoEvent now (ctx.events e)) := back.view view
  have here : ∀ id, Queued (counted.heap id).2 e ↔ some QueueId.dbgQueue = some id := fun id => by
    simpa using shifted.members id e
  have quiet := shifted.trans (modifyShifted shifted.shelves (fun evt => {evt with critical := false}) here fun _ => rfl)
  exact ⟨quiet.congr (congrArg (fun evt => ({evt with critical := false} : ScheduleCB A)) shifted.self),same⟩

theorem Handled.moveToMono (inv : Handled w) (live : w.live e = true) {grow : Bool} (now : Timeval)
    (spared : sparesSlots w.timed (.sched (.moveToMono grow now e))) :
    Reached w (handleStep w (.sched (.moveToMono grow now e))) e := by
  obtain ⟨free,rests,untied,room⟩ := spared
  have inPlay := (inv.live e).mp live
  have waiting : Waiting w.timed e := inPlay.resolve_right fun other => other.elim rests free
  obtain ⟨queued,idle,-,-⟩ := inv.stands.queued waiting
  obtain ⟨shifted,fresh,next⟩ := monoShifted inv.shelves queued untied room now
  refine inv.called shifted next rests free fresh.ge ?_ (fun id is => Option.some.inj is) idle (fun _ => rfl)
    (fun _ _ => rfl) live
  rw [fresh]
  exact (inv.standing e).bound inPlay

theorem Handled.removeHeld (inv : Handled w) (held : Held w.timed e) (rests : ¬ Running w.timed e) :
    Reached w ⟨{w.timed with ctx := unheld w.timed.ctx e},Function.update w.live e false⟩ e := by
  obtain ⟨touches,free,owed⟩ := inv.stands.unheld inv.shelves held rests
  refine inv.after touches owed (fun _ => rfl) (fun x ne => Function.update_of_ne ne _ _) ?_
  rw [Function.update_self]
  refine iff_of_false Bool.false_ne_true ?_
  rintro (waiting | running | still)
  · exact touches.waiting.mp waiting rfl
  · exact rests running
  · exact free e still

theorem Handled.remove (inv : Handled w) (live : w.live e = true) (spared : sparesSlots w.timed (.sched (.remove e))) :
    Reached w (handleStep w (.sched (.remove e))) e := by
  have inPlay := (inv.live e).mp live
  have standing := inv.standing e
  rw [handleStep, liveAfter, schedStep]
  by_cases running : Running w.timed e
  · have busy := standing.busy running
    have same : (evtSchedRemove w.timed.ctx e).2 = w.timed.ctx := by simp [evtSchedRemove,busy]
    rw [if_neg busy, same]
    exact inv.same e
  by_cases waiting : Waiting w.timed e
  · obtain ⟨queued,idle,-,free⟩ := inv.stands.queued waiting
    have bound := standing.bound inPlay
    have next : w.timed.ctx.nextTimedEvent ≠ some e := fun is => free ⟨is,Nat.ne_of_gt bound.1⟩
    have out := (removeShifted inv.shelves queued (spared waiting)).modify (fun evt => {evt with pos := sizeMax})
      fun _ _ same => same
    have same : scalars ((unheld w.timed.ctx e).setHeap (w.timed.ctx.events e).queue
        (PriorityQueue.remove callbacks (w.timed.ctx.heap (w.timed.ctx.events e).queue) e)) =
        (w.timed.ctx.fresh,(unheld w.timed.ctx e).criticalSchedCount,w.timed.ctx.nextTimedEvent) :=
      (scalarsSetHeap _).trans (by simp [scalars,unheld,next])
    obtain ⟨fresh,-,next'⟩ := scalarsEq same
    have shifted : Shifted w.timed.ctx (((unheld w.timed.ctx e).setHeap (w.timed.ctx.events e).queue
        (PriorityQueue.remove callbacks (w.timed.ctx.heap (w.timed.ctx.events e).queue) e)).modify e
        fun evt => {evt with pos := sizeMax}) e none {w.timed.ctx.events e with pos := sizeMax} :=
      out.view fun id => by cases (w.timed.ctx.events e).queue <;> cases id <;> rfl
    rw [if_pos idle, schedRemoveEq idle, if_neg (inv.stands.slot inv.shelves waiting).2.2]
    exact inv.called shifted next' running free fresh.ge ⟨bound.1,fresh.symm ▸ bound.2⟩ (by simp) idle
      (fun _ => rfl) (fun x ne => Function.update_of_ne ne _ _) (Function.update_self _ _ _)
  · have held : Held w.timed e := by
      rcases inPlay with is | is | held
      · exact absurd is waiting
      · exact absurd is running
      · exact held
    obtain ⟨idle,out⟩ := (standing.held held).2 running
    rw [if_pos idle, schedRemoveEq idle, if_pos out]
    exact inv.removeHeld held running

theorem Handled.entered (inv : Handled w) (still : w.timed.running = none) {ctx' : EventState A}
    (shifted : Shifted w.timed.ctx ctx' e none cb) (same : scalars ctx' = scalars w.timed.ctx) (inPlay : InPlay w.timed e)
    (busy : cb.inCallback ≠ 0) (call : cb.call = (w.timed.ctx.events e).call) (now : Timeval) {singleStep : Bool}
    (stepping : singleStep = true ↔ Held w.timed e) : Reached w ⟨⟨ctx',some ⟨e,now,singleStep⟩⟩,w.live⟩ e := by
  obtain ⟨last,-,next⟩ := scalarsEq same
  obtain ⟨touches,owed⟩ := inv.stands.entered still shifted last next inPlay busy now stepping
  exact inv.after touches owed (fun _ => call) (fun _ _ => rfl) (iff_of_true ((inv.live e).mpr inPlay) (.inr (.inl rfl)))

theorem Handled.stopped (inv : Handled w) (still : w.timed.running = none) (free : w.timed.ctx.nextTimedEvent = none)
    {ctx' : EventState A} (shifted : Shifted w.timed.ctx ctx' e none (w.timed.ctx.events e))
    (fresh : ctx'.fresh = w.timed.ctx.fresh) (next : ctx'.nextTimedEvent = some e) (waiting : Waiting w.timed e)
    (out : (ctx'.events e).pos = sizeMax) : Reached w ⟨{w.timed with ctx := ctx'},w.live⟩ e := by
  obtain ⟨touches,held,owed⟩ := inv.stands.stopped still free shifted fresh next waiting out
  exact inv.after touches owed (fun _ => rfl) (fun _ _ => rfl)
    (iff_of_true ((inv.live e).mpr (.inl waiting)) (.inr (.inr held)))

theorem enterShifted {ctx : EventState A} (shelves : Shelves ctx) (off : Off ctx e) :
    Shifted ctx (enterCallback ctx e) e none (Scheduler.entered (ctx.events e)) :=
  (modifyAway shelves off Scheduler.entered).view fun id => by cases id <;> rfl

theorem Handled.begun (inv : Handled w) (still : w.timed.running = none) {popped ctx₀ : EventState A}
    (shifted : Shifted w.timed.ctx popped e none (w.timed.ctx.events e)) (same : scalars popped = scalars w.timed.ctx)
    (inPlay : InPlay w.timed e) (view : ∀ id, ctx₀.heap id = popped.heap id) (counted : scalars ctx₀ = scalars popped)
    (now : Timeval) {singleStep : Bool} (stepping : singleStep = true ↔ Held w.timed e) :
    Reached w ⟨⟨enterCallback ctx₀ e,some ⟨e,now,singleStep⟩⟩,w.live⟩ e := by
  have out := shifted.view view
  have into := out.trans (enterShifted out.shelves out.gone)
  have call : (Scheduler.entered (ctx₀.events e)).call = (w.timed.ctx.events e).call :=
    sameField out.self ScheduleCB.call fun _ => rfl
  exact inv.entered still into (counted.trans same) inPlay (by simp [Scheduler.entered]) call now stepping

theorem Handled.fire (inv : Handled w) (still : w.timed.running = none) (free : w.timed.ctx.nextTimedEvent = none)
    (now : Timeval) : Reached w (handleStep w (.sched (.fire now))) (touched w (.sched (.fire now))) := by
  simp only [handleStep,liveAfter,schedStep,touched,fireTimedEvent]
  cases found : peek w.timed.ctx.queue with
  | none => exact inv.same _
  | some head =>
    by_cases late : Timeval.timercmp (· > ·) (w.timed.ctx.events head).nextAwake now = true
    · simp only [late,if_true]
      exact inv.same _
    simp only [late]
    obtain ⟨queued,shifted⟩ := popTimedShifted inv.shelves found
    obtain ⟨ctx₀,view,counted,stops | goes⟩ := beginCases (popTimedEvent w.timed.ctx head) head false
    · rw [stops.2]
      refine inv.stopped still free (shifted.view fun id => ?_) (scalarsEq counted).1 rfl (.inl queued) ?_
      · rw [← view]
        cases id <;> rfl
      · have events : ctx₀.events = (popTimedEvent w.timed.ctx head).events := congrArg Prod.fst (view .queue)
        show (ctx₀.events head).pos = sizeMax
        rw [events, popTimedEvent, modifySelf]
    · rw [goes]
      exact inv.begun still shifted rfl (.inl (.inl queued)) view counted now (by simp [Held,free])

theorem Handled.fireDbg (inv : Handled w) (still : w.timed.running = none) (now : Timeval) :
    Reached w (handleStep w (.sched (.fireDbg now))) (touched w (.sched (.fireDbg now))) := by
  simp only [handleStep,liveAfter,schedStep,touched,fireDbgEvent]
  cases found : peek w.timed.ctx.dbgQueue with
  | none => exact inv.same _
  | some head =>
    by_cases late : Timeval.timercmp (· > ·) (w.timed.ctx.events head).nextAwake now = true
    · simp only [late,if_true]
      exact inv.same _
    simp only [late]
    obtain ⟨queued,shifted⟩ := popDbgShifted inv.shelves found
    obtain ⟨ctx₀,view,counted,stops | goes⟩ := beginCases (popDbgEvent w.timed.ctx head) head true
    · cases stops.1
    · have free := (inv.stands.queued (.inr queued)).2.2.2
      rw [goes]
      exact inv.begun still shifted rfl (.inl (.inr queued)) view counted now (by simpa using free)

theorem Handled.stepNull (inv : Handled w) (held : w.timed.ctx.nextTimedEvent = some nullEvt) {ctx₀ : EventState A}
    (view : ∀ id, ctx₀.heap id = w.timed.ctx.heap id) (same : scalars ctx₀ = scalars w.timed.ctx) (now : Timeval) :
    Reached w ⟨{w.timed with ctx := forget (finishTimedEvent (enterCallback ctx₀ nullEvt) nullEvt now false false)},w.live⟩
      nullEvt := by
  have out : ¬ InPlay w.timed nullEvt := fun inPlay => absurd ((inv.standing _).bound inPlay).1 (lt_irrefl _)
  have off : Off w.timed.ctx nullEvt := fun id queued => out (.inl (waitingIff.mpr ⟨id,queued⟩))
  have rests : ¬ Running w.timed nullEvt := fun running => out (.inr (.inl running))
  have here := (offShifted inv.shelves off).view view
  have entered := here.trans (enterShifted here.shelves here.gone)
  obtain ⟨last,-,-⟩ := scalarsEq same
  have done : (∀ id, (finishTimedEvent (enterCallback ctx₀ nullEvt) nullEvt now false false).heap id =
      (enterCallback ctx₀ nullEvt).heap id) ∧
      (finishTimedEvent (enterCallback ctx₀ nullEvt) nullEvt now false false).fresh = w.timed.ctx.fresh := by
    simp only [finishTimedEvent,Bool.false_eq_true,if_false]
    split
    · exact ⟨fun id => by cases id <;> rfl,last⟩
    · exact ⟨fun _ => rfl,last⟩
  generalize finishTimedEvent (enterCallback ctx₀ nullEvt) nullEvt now false false = ctx' at done ⊢
  have free : ∀ x, ¬ Held {w.timed with ctx := forget ctx'} x := fun x is => by simpa [forget] using is.1
  have before : ∀ x, ¬ Held w.timed x := fun x is => is.2 (Option.some.inj (is.1.symm.trans held))
  have touches : Touches w.timed {w.timed with ctx := forget ctx'} nullEvt none (Scheduler.entered (ctx₀.events nullEvt)) := by
    refine ⟨(entered.view done.1).view fun id => by cases id <;> rfl,fun _ _ => Iff.rfl,fun x _ => ?_,done.2.ge⟩
    exact iff_of_false (free x) (before x)
  refine inv.after touches (inv.stands.released touches rests free fun x _ => before x) (fun _ => ?_) (fun _ _ => rfl) ?_
  · have events : ctx₀.events = w.timed.ctx.events := congrArg Prod.fst (view .queue)
    rw [events]
    rfl
  · refine iff_of_false (fun live => out ((inv.live _).mp live)) ?_
    rintro (waiting | running | held')
    · exact touches.waiting.mp waiting rfl
    · exact rests running
    · exact free _ held'

theorem Handled.singleStep (inv : Handled w) (still : w.timed.running = none) (now : Timeval) :
    Reached w (handleStep w (.sched (.singleStep now))) (touched w (.sched (.singleStep now))) := by
  simp only [handleStep,liveAfter,schedStep,touched,stepHeld]
  cases held : w.timed.ctx.nextTimedEvent with
  | none => exact inv.same _
  | some e =>
    obtain ⟨ctx₀,view,same,stops | goes⟩ := beginCases w.timed.ctx e true
    · cases stops.1
    · simp only [goes]
      by_cases null : e = nullEvt
      · subst null
        rw [if_pos rfl]
        exact inv.stepNull held view same now
      · rw [if_neg null]
        have is : Held w.timed e := ⟨held,null⟩
        have off := ((inv.standing e).held is).1
        exact inv.begun still (offShifted inv.shelves off) rfl (.inr (.inr is)) view same now (by simp [is])

theorem Handled.returned (inv : Handled w) {run : Firing} (is : w.timed.running = some run) {done : EventState A}
    (shifted : Shifted w.timed.ctx done run.event place cb) (last : done.fresh = w.timed.ctx.fresh)
    (next : done.nextTimedEvent = w.timed.ctx.nextTimedEvent) (home : ∀ id, place = some id → cb.queue = id)
    (idle : place ≠ none → cb.inCallback = 0) (call : cb.call = (w.timed.ctx.events run.event).call)
    {live : EventId → Bool} (others : ∀ x, x ≠ run.event → live x = w.live x) (own : live run.event = place.isSome) :
    Reached w ⟨⟨if run.singleStep then forget done else done,none⟩,live⟩ run.event := by
  obtain ⟨touches,free,owed⟩ := inv.stands.returned is shifted last next home idle
  refine inv.after touches owed (fun _ => call) others ?_
  rw [own, Option.isSome_iff_ne_none, ← touches.waiting]
  refine ⟨fun waiting => .inl waiting,fun plays => plays.resolve_right fun other => other.elim (fun running => ?_) free⟩
  cases running

theorem Handled.ret (inv : Handled w) {keep grow : Bool} (spared : sparesSlots w.timed (.sched (.ret keep grow))) :
    Reached w (handleStep w (.sched (.ret keep grow))) (touched w (.sched (.ret keep grow))) := by
  simp only [handleStep,schedStep,touched]
  cases is : w.timed.running with
  | none =>
    have same : liveAfter w (.ret keep grow) = w.live := by
      cases keep with
      | false => simp [liveAfter,is]
      | true => rfl
    rw [same]
    exact inv.same _
  | some run =>
    have running : Running w.timed run.event := by rw [Running, is]; rfl
    have off : Off w.timed.ctx run.event := fun id queued =>
      (inv.standing _).busy running ((inv.standing _).home id queued).2
    simp only [finish,finishTimedEvent]
    cases keep with
    | false =>
      have live : liveAfter w (.ret false grow) = Function.update w.live run.event false := by simp [liveAfter,is]
      rw [live]
      simp only [Bool.false_eq_true,if_false]
      have same : ∀ done : EventState A, done = (if (w.timed.ctx.events run.event).critical then
          {w.timed.ctx with criticalSchedCount := w.timed.ctx.criticalSchedCount - 1} else w.timed.ctx) →
          (∀ id, done.heap id = w.timed.ctx.heap id) ∧ done.fresh = w.timed.ctx.fresh ∧
          done.nextTimedEvent = w.timed.ctx.nextTimedEvent := by
        rintro done rfl
        split
        · exact ⟨fun id => by cases id <;> rfl,rfl,rfl⟩
        · exact ⟨fun _ => rfl,rfl,rfl⟩
      obtain ⟨view,fresh,next⟩ := same _ rfl
      exact inv.returned is ((offShifted inv.shelves off).view view) fresh next (by simp) (by simp) rfl
        (fun x ne => Function.update_of_ne ne _ _) (Function.update_self _ _ _)
    | true =>
      obtain ⟨queue,-,done⟩ := keptQueue run.curTime (w.timed.ctx.events run.event)
      have changed := modifyAway inv.shelves off (keptEvent run.curTime)
      have room : ¬ Full grow ((w.timed.ctx.modify run.event (keptEvent run.curTime)).heap
          (w.timed.ctx.events run.event).queue).2 := by
        rw [heapModify]
        exact spared run is
      have back := changed.trans ((insertShifted changed.shelves changed.gone room).congr changed.self)
      simp only [if_true,modifySelf,queue]
      refine inv.returned is back (scalarsEq (scalarsSetHeap _)).1 (scalarsEq (scalarsSetHeap _)).2.2 (fun id placed => ?_)
        (fun _ => done) ?_ (fun _ _ => rfl) ?_
      · rw [queue]
        exact Option.some.inj placed
      · by_cases first : (w.timed.ctx.events run.event).inCallback = 1 <;> simp [keptEvent,first]
      · exact (inv.live _).mpr (.inr (.inl running))

theorem Handled.debugger (inv : Handled w) (breakOnNext : Bool) (stepsToBreak : Int) :
    Reached w (handleStep w (.sched (.debugger breakOnNext stepsToBreak))) nullEvt := by
  let set : EventState A := {w.timed.ctx with breakOnNext := breakOnNext, stepsToBreak := stepsToBreak}
  have view : ∀ id, set.heap id = w.timed.ctx.heap id := fun id => by cases id <;> rfl
  obtain ⟨-,⟨place,cb,touches⟩,call⟩ := inv.same nullEvt
  refine ⟨⟨inv.shelves.view view,inv.started,fun x => ?_,inv.stepping,inv.live⟩,
    ⟨place,cb,touches.shifted.view view,touches.running,touches.held,touches.fresh⟩,call⟩
  obtain ⟨bound,home,busy,held⟩ := inv.standing x
  refine ⟨bound,fun id => view id ▸ home id,busy,fun is => ⟨fun id => view id ▸ (held is).1 id,(held is).2⟩⟩

theorem Handled.reached (inv : Handled w) {act : HandleAct A} (may : mayCall w act) (spared : sparesSlots w.timed act) :
    Reached w (handleStep w act) (touched w act) := by
  cases act with
  | update now e time => exact inv.updated may spared (updateRescheduling now time) fun _ => rfl
  | updatePartialCredit now e time => exact inv.updated may spared (creditRescheduling now time) fun _ => rfl
  | sched act =>
    cases act with
    | add malloc grow now time timestep call => exact inv.add malloc grow now time timestep call
    | setCritical e critical =>
      exact inv.written may (fun evt => {evt with critical := decide (critical % 256 ≠ 0)})
        (fun id => by cases id <;> rfl) rfl rfl (fun _ => rfl) (fun _ => rfl) (fun _ => rfl) Iff.rfl
    | makeBreakpoint e =>
      exact inv.written may (fun evt => {evt with breakpoint := true}) (fun id => by cases id <;> rfl) rfl rfl
        (fun _ => rfl) (fun _ => rfl) (fun _ => rfl) Iff.rfl
    | moveToMono grow now e => exact inv.moveToMono may now spared
    | remove e => exact inv.remove may spared
    | fire now => exact inv.fire may.1 may.2 now
    | fireDbg now => exact inv.fireDbg may now
    | singleStep now => exact inv.singleStep may now
    | ret keep grow => exact inv.ret spared
    | debugger breakOnNext stepsToBreak => exact inv.debugger breakOnNext stepsToBreak

theorem Handled.requeueUses (inv : Handled w) (live : w.live e = true) (spared : ¬ Paused w.timed e)
    {f : ScheduleCB A → ScheduleCB A} (r : Rescheduling f) : requeueWithin (w.timed.ctx.modify e f) e := by
  intro idle
  rw [modifySelf, r.inCallback] at idle
  have rests : ¬ Running w.timed e := fun running => (inv.standing e).busy running idle
  have waiting : Waiting w.timed e := ((inv.live e).mp live).resolve_right fun other =>
    other.elim rests fun held => spared ⟨held,rests⟩
  obtain ⟨first,last,-⟩ := inv.stands.slot inv.shelves waiting
  rw [modifySelf, r.queue]
  refine (changePriorityWithin (lawful.posSetpri _ _ _ _)).mpr ?_
  rw [heapModify]
  simp only [callbacks,getPos,modifySelf,r.pos]
  exact ⟨first,last⟩

theorem Handled.removeUses (inv : Handled w) (waiting : Waiting w.timed e) : removeWithin w.timed.ctx e := by
  obtain ⟨first,last,-⟩ := inv.stands.slot inv.shelves waiting
  refine PriorityQueue.removeWithin.mpr ?_
  rw [heapEvents]
  exact ⟨first,last⟩

theorem Handled.inUse (inv : Handled w) {act : HandleAct A} (may : mayCall w act) (spared : sparesSlots w.timed act) :
    inUse w.timed.ctx act := by
  cases act with
  | update now e time => exact inv.requeueUses may spared (updateRescheduling now time)
  | updatePartialCredit now e time => exact inv.requeueUses may spared (creditRescheduling now time)
  | sched act =>
    cases act with
    | moveToMono grow now e =>
      obtain ⟨free,rests,untied,-⟩ := spared
      have waiting : Waiting w.timed e := ((inv.live e).mp may).resolve_right fun other => other.elim rests free
      have removed := monoRemovedShifted inv.shelves (inv.stands.queued waiting).1 untied now
      exact ⟨inv.removeUses waiting,insertWithin (removed.shelves.one .dbgQueue)⟩
    | remove e =>
      intro idle slot
      have rests : ¬ Running w.timed e := fun running => (inv.standing e).busy running idle
      rcases (inv.live e).mp may with waiting | running | held
      · exact inv.removeUses waiting
      · exact absurd running rests
      · exact absurd (((inv.standing e).held held).2 rests).2 slot
    | add | setCritical | makeBreakpoint | fire | fireDbg | singleStep | ret | debugger => trivial

end

theorem startHandled {hashSize : Nat} (fits : 8 * (hashSize + 1) < 2 ^ 64) (events : Memory A)
    (d dbg : Nat → EventId) : Handled (startHandles hashSize events d dbg) := by
  obtain ⟨shelves,stands,out⟩ := startStands fits events d dbg
  exact ⟨shelves,Nat.one_pos,stands.standing,stands.stepping,fun x => iff_of_false Bool.false_ne_true (out x)⟩

/- In any run that spares the slots, each call reads and writes slots in use only. -/
theorem slotsInUseAlong (hashSize : Nat) (int : hashSize < 2 ^ 31) (events : Memory A) (d dbg : Nat → EventId)
    (acts : List (HandleAct A))
    (along : Along handleStep (fun w act => mayCall w act ∧ sparesSlots w.timed act)
      (startHandles hashSize events d dbg) acts) :
    Along handleStep (fun w act => inUse w.timed.ctx act) (startHandles hashSize events d dbg) acts :=
  along.given (fun _ _ inv good => (inv.reached good.1 good.2).handled) (fun _ _ inv good => inv.inUse good.1 good.2)
    (startHandled (by omega) events d dbg)

instance (w : Handles A) : ∀ act, Decidable (mayCall w act)
  | .update _ e _ | .updatePartialCredit _ e _ | .sched (.setCritical e _) | .sched (.makeBreakpoint e)
  | .sched (.moveToMono _ _ e) | .sched (.remove e) => inferInstanceAs (Decidable (w.live e = true))
  | .sched (.fire _) => inferInstanceAs (Decidable (_ ∧ _))
  | .sched (.fireDbg _) | .sched (.singleStep _) => inferInstanceAs (Decidable (w.timed.running = none))
  | .sched (.add ..) | .sched (.ret ..) | .sched (.debugger ..) => inferInstanceAs (Decidable True)

instance (w : Timed A) (e : EventId) : Decidable (Paused w e) := inferInstanceAs (Decidable (_ ∧ _))

instance (c : Callbacks (Memory A) EventId Timeval) (s : Memory A × Queue EventId) (e : EventId) :
    Decidable (Displaces c s e) := inferInstanceAs (Decidable (_ ∧ _ ∧ _))

instance (w : Timed A) : ∀ act, Decidable (sparesSlots w act)
  | .update _ e _ | .updatePartialCredit _ e _ => inferInstanceAs (Decidable (¬ Paused w e))
  | .sched (.remove e) => inferInstanceAs
      (Decidable (Waiting w e → ¬ Displaces callbacks (w.ctx.heap (w.ctx.events e).queue) e))
  | .sched (.moveToMono grow _ e) => inferInstanceAs (Decidable (¬ Held w e ∧ ¬ Running w e ∧
      ¬ Displaces callbacks (w.ctx.heap (w.ctx.events e).queue) e ∧
      ((w.ctx.events e).queue = .queue → ¬ Full grow w.ctx.dbgQueue)))
  | .sched (.ret true grow) => inferInstanceAs
      (Decidable (∀ run ∈ w.running, ¬ Full grow (w.ctx.heap (w.ctx.events run.event).queue).2))
  | .sched (.ret false _) | .sched (.add ..) | .sched (.setCritical ..) | .sched (.makeBreakpoint _) | .sched (.fire _)
  | .sched (.fireDbg _) | .sched (.singleStep _) | .sched (.debugger ..) => inferInstanceAs (Decidable True)

instance (ctx : EventState A) (e : EventId) : Decidable (requeueWithin ctx e) := inferInstanceAs (Decidable (_ → _))
instance (ctx : EventState A) (e : EventId) : Decidable (removeWithin ctx e) := inferInstanceAs (Decidable (Within _ _))

instance (ctx : EventState A) : ∀ act, Decidable (inUse ctx act)
  | .update now e time => inferInstanceAs (Decidable (requeueWithin (ctx.modify e (updated now time)) e))
  | .updatePartialCredit now e time => inferInstanceAs (Decidable (requeueWithin (ctx.modify e (credited now time)) e))
  | .sched (.remove e) => inferInstanceAs (Decidable (_ → _ → removeWithin ctx e))
  | .sched (.moveToMono grow now e) => inferInstanceAs (Decidable (removeWithin ctx e ∧
      Within ((monoRemoved ctx now e).dbgQueue.size + 1)
        (insertTouches callbacks grow ((monoRemoved ctx now e).heap .dbgQueue) e)))
  | .sched (.add ..) | .sched (.setCritical ..) | .sched (.makeBreakpoint _) | .sched (.fire _) | .sched (.fireDbg _)
  | .sched (.singleStep _) | .sched (.ret ..) | .sched (.debugger ..) => inferInstanceAs (Decidable True)

def fresh : Handles Unit := startHandles 19 (fun _ => clearedCB ()) (fun _ => 0) (fun _ => 0)

def addAt (n : Int) : HandleAct Unit := .sched (.add true true ⟨0,0⟩ ⟨n,0⟩ ⟨n,0⟩ ())

def pausedUpdates : List (HandleAct Unit) :=
  [addAt 1,addAt 5,addAt 3,.sched (.makeBreakpoint 1),.sched (.fire ⟨1,0⟩),.update ⟨1,0⟩ 2 ⟨1,0⟩,
    .sched (.moveToMono true ⟨1,0⟩ 3),.sched (.singleStep ⟨2,0⟩),.update ⟨2,0⟩ 1 ⟨9,0⟩,.sched (.ret true true),
    .updatePartialCredit ⟨2,0⟩ 1 ⟨0,0⟩,.sched (.remove 1)]

theorem slotsInUseWhilePaused : Along handleStep (fun w act => inUse w.timed.ctx act) fresh pausedUpdates :=
  slotsInUseAlong 19 (by decide) _ _ _ pausedUpdates (by decide +kernel)

def heldUpdate : List (HandleAct Unit) :=
  [addAt 1,.sched (.makeBreakpoint 1),.sched (.fire ⟨1,0⟩),.update ⟨1,0⟩ 1 ⟨2,0⟩]

theorem heldUpdateOutside : Along handleStep mayCall fresh heldUpdate ∧
    ¬ Along handleStep (fun w act => inUse w.timed.ctx act) fresh heldUpdate := by
  decide +kernel

end LibProc.SchedHandles
