import LibProc.SchedSlots

/-! The timed events of a handler and what each of them stands for: on the queue it points at, in
its callback, or held at a breakpoint. Every step concerns one event at most; what it owes is the
standing of that event. -/
namespace LibProc.SchedCounter
open PriorityQueue Scheduler

variable {A : Type}

structure Firing where
  event : EventId
  curTime : Timeval
  singleStep : Bool
  deriving DecidableEq, Repr

structure Timed (A : Type) where
  ctx : EventState A
  running : Option Firing

inductive SchedAct (A : Type) where
  | add (malloc grow : Bool) (now time timestep : Timeval) (call : A)
  | setCritical (e : EventId) (critical : Int)
  | makeBreakpoint (e : EventId)
  | moveToMono (grow : Bool) (now : Timeval) (e : EventId)
  | remove (e : EventId)
  | fire (now : Timeval)
  | fireDbg (now : Timeval)
  | singleStep (now : Timeval)
  | ret (keep grow : Bool)
  | debugger (breakOnNext : Bool) (stepsToBreak : Int)

def forget (ctx : EventState A) : EventState A := {ctx with nextTimedEvent := none}

/- null_evt_callback only returns EVENT_REMOVE, so the step of a removed event is one step here. -/
def stepHeld (w : Timed A) (now : Timeval) : Timed A :=
  match w.ctx.nextTimedEvent with
  | none => w
  | some e =>
    let began := (beginTimedEvent w.ctx e true).2
    if e = nullEvt then {w with ctx := forget (finishTimedEvent began e now false false)}
    else ⟨began,some ⟨e,now,true⟩⟩

def finish (w : Timed A) (run : Firing) (keep grow : Bool) : Timed A :=
  let done := finishTimedEvent w.ctx run.event run.curTime keep grow
  ⟨if run.singleStep then forget done else done,none⟩

def schedStep (w : Timed A) : SchedAct A → Timed A
  | .add malloc grow now time timestep call =>
    {w with ctx := (evtSchedAddWithTimestep w.ctx malloc grow now time timestep call).2}
  | .setCritical e critical => {w with ctx := evtSchedSetCritical w.ctx e critical}
  | .makeBreakpoint e => {w with ctx := evtSchedMakeBreakpoint w.ctx e}
  | .moveToMono grow now e => {w with ctx := evtSchedMoveToMono w.ctx grow now e}
  | .remove e => {w with ctx := (evtSchedRemove w.ctx e).2}
  | .fire now =>
    let r := fireTimedEvent w.ctx now
    match r.1 with
    | some (e,true) => ⟨r.2,some ⟨e,now,false⟩⟩
    | _ => {w with ctx := r.2}
  | .fireDbg now =>
    let r := fireDbgEvent w.ctx now
    match r.1 with
    | some e => ⟨r.2,some ⟨e,now,false⟩⟩
    | none => {w with ctx := r.2}
  | .singleStep now => stepHeld w now
  | .ret keep grow =>
    match w.running with
    | none => w
    | some run => finish w run keep grow
  | .debugger breakOnNext stepsToBreak =>
    {w with ctx := {w.ctx with breakOnNext := breakOnNext, stepsToBreak := stepsToBreak}}

def Running (w : Timed A) (e : EventId) : Prop := w.running.map Firing.event = some e
def Held (w : Timed A) (e : EventId) : Prop := w.ctx.nextTimedEvent = some e ∧ e ≠ nullEvt
def Waiting (w : Timed A) (e : EventId) : Prop := Queued w.ctx.queue e ∨ Queued w.ctx.dbgQueue e
def InPlay (w : Timed A) (e : EventId) : Prop := Waiting w e ∨ Running w e ∨ Held w e

instance (w : Timed A) (e : EventId) : Decidable (Running w e) := inferInstanceAs (Decidable (_ = _))
instance (w : Timed A) (e : EventId) : Decidable (Held w e) := inferInstanceAs (Decidable (_ ∧ _))
instance (w : Timed A) (e : EventId) : Decidable (Waiting w e) := inferInstanceAs (Decidable (_ ∨ _))
instance (w : Timed A) (e : EventId) : Decidable (InPlay w e) := inferInstanceAs (Decidable (_ ∨ _))

structure Standing (w : Timed A) (x : EventId) : Prop where
  bound : InPlay w x → nullEvt < x ∧ x < w.ctx.fresh
  home : ∀ id, Queued (w.ctx.heap id).2 x → (w.ctx.events x).queue = id ∧ (w.ctx.events x).inCallback = 0
  busy : Running w x → (w.ctx.events x).inCallback ≠ 0
  held : Held w x → Off w.ctx x ∧
    (¬ Running w x → (w.ctx.events x).inCallback = 0 ∧ (w.ctx.events x).pos = sizeMax)

structure Touches (w w' : Timed A) (e : EventId) (place : Option QueueId) (cb : ScheduleCB A) : Prop where
  shifted : Shifted w.ctx w'.ctx e place cb
  running : ∀ x, x ≠ e → (Running w' x ↔ Running w x)
  held : ∀ x, x ≠ e → (Held w' x ↔ Held w x)
  fresh : w.ctx.fresh ≤ w'.ctx.fresh

section
variable {w w' : Timed A} {e x : EventId} {place : Option QueueId} {cb : ScheduleCB A}

theorem waitingIff : Waiting w x ↔ ∃ id, Queued (w.ctx.heap id).2 x := by
  constructor
  · rintro (main | debug)
    · exact ⟨.queue,main⟩
    · exact ⟨.dbgQueue,debug⟩
  · rintro ⟨id,queued⟩
    cases id with
    | queue => exact .inl queued
    | dbgQueue => exact .inr queued

theorem Touches.waiting (touches : Touches w w' e place cb) : Waiting w' e ↔ place ≠ none := by
  rw [waitingIff]
  constructor
  · rintro ⟨id,queued⟩ none
    simpa [none] using (touches.shifted.members id e).mp queued
  · intro some
    obtain ⟨id,is⟩ := Option.ne_none_iff_exists'.mp some
    exact ⟨id,(touches.shifted.members id e).mpr (.inr ⟨rfl,is⟩)⟩

theorem Touches.inPlay (touches : Touches w w' e place cb) (ne : x ≠ e) : InPlay w' x ↔ InPlay w x := by
  refine or_congr ?_ (or_congr (touches.running x ne) (touches.held x ne))
  rw [waitingIff, waitingIff]
  exact exists_congr fun id => (touches.shifted.members id x).trans (by simp [ne])

theorem Standing.frame (standing : Standing w x) (touches : Touches w w' e place cb) (ne : x ≠ e) :
    Standing w' x := by
  have same := touches.shifted.others x ne
  have inCallback := sameField same ScheduleCB.inCallback fun _ => rfl
  refine ⟨fun inPlay => ?_,fun id queued => ?_,fun running => ?_,fun held => ?_⟩
  · obtain ⟨first,last⟩ := standing.bound ((touches.inPlay ne).mp inPlay)
    exact ⟨first,last.trans_le touches.fresh⟩
  · have before : Queued (w.ctx.heap id).2 x := by
      simpa [ne] using (touches.shifted.members id x).mp queued
    rw [inCallback, sameField same ScheduleCB.queue fun _ => rfl]
    exact standing.home id before
  · rw [inCallback]
    exact standing.busy ((touches.running x ne).mp running)
  · obtain ⟨off,rest⟩ := standing.held ((touches.held x ne).mp held)
    refine ⟨(touches.shifted.off ne).mpr off,fun still => ?_⟩
    rw [inCallback, touches.shifted.untouched x ne off]
    exact rest fun running => still ((touches.running x ne).mpr running)

theorem standingQueued (touches : Touches w w' e place cb) (rests : ¬ Running w' e) (free : ¬ Held w' e)
    (bound : place ≠ none → nullEvt < e ∧ e < w'.ctx.fresh) (home : ∀ id, place = some id → cb.queue = id)
    (idle : place ≠ none → cb.inCallback = 0) : Standing w' e := by
  have same := touches.shifted.self
  refine ⟨fun inPlay => ?_,fun id queued => ?_,fun running => absurd running rests,fun held => absurd held free⟩
  · rcases inPlay with waiting | running | held
    · exact bound (touches.waiting.mp waiting)
    · exact absurd running rests
    · exact absurd held free
  · have placed : place = some id := by
      simpa using (touches.shifted.members id e).mp queued
    rw [sameField same ScheduleCB.queue fun _ => rfl, sameField same ScheduleCB.inCallback fun _ => rfl]
    exact ⟨home id placed,idle (by simp [placed])⟩

structure Owed (w : Timed A) (e : EventId) : Prop where
  self : Standing w e
  stepping : ∀ run, w.running = some run → (run.singleStep = true ↔ Held w run.event)

structure Stands (w : Timed A) : Prop where
  standing : ∀ x, Standing w x
  stepping : ∀ run, w.running = some run → (run.singleStep = true ↔ Held w run.event)

theorem Stands.after (stands : Stands w) (touches : Touches w w' e place cb) (owed : Owed w' e) : Stands w' := by
  refine ⟨fun x => ?_,owed.stepping⟩
  by_cases same : x = e
  · exact same ▸ owed.self
  · exact (stands.standing x).frame touches same

theorem Stands.outOfPlay (stands : Stands w) : ¬ InPlay w w.ctx.fresh :=
  fun inPlay => absurd ((stands.standing _).bound inPlay).2 (lt_irrefl _)

theorem Stands.queued (stands : Stands w) (waiting : Waiting w e) :
    Queued (w.ctx.heap (w.ctx.events e).queue).2 e ∧ (w.ctx.events e).inCallback = 0 ∧ ¬ Running w e ∧ ¬ Held w e := by
  obtain ⟨id,queued⟩ := waitingIff.mp waiting
  obtain ⟨home,idle⟩ := (stands.standing e).home id queued
  refine ⟨home.symm ▸ queued,idle,fun running => (stands.standing e).busy running idle,fun held => ?_⟩
  exact ((stands.standing e).held held).1 id queued

theorem Stands.slot (stands : Stands w) (shelves : Shelves w.ctx) (waiting : Waiting w e) : 1 ≤ (w.ctx.events e).pos ∧
    (w.ctx.events e).pos < (w.ctx.heap (w.ctx.events e).queue).2.size ∧ (w.ctx.events e).pos ≠ sizeMax := by
  obtain ⟨first,last,-⟩ := (shelves.placed _).slotOf (stands.queued waiting).1
  have size := (shelves.allocated (w.ctx.events e).queue).size
  have bytes := (shelves.allocated (w.ctx.events e).queue).bytes
  rw [heapEvents] at first last
  simp only [callbacks,getPos] at first last
  exact ⟨first,last,by unfold sizeMax; omega⟩

section
variable {ctx' : EventState A}

theorem heldSame (next : ctx'.nextTimedEvent = w.ctx.nextTimedEvent) (running : Option Firing) :
    Held ⟨ctx',running⟩ x ↔ Held w x := by
  simp [Held,next]

theorem callTouches (shifted : Shifted w.ctx ctx' e place cb) (next : ctx'.nextTimedEvent = w.ctx.nextTimedEvent)
    (grows : w.ctx.fresh ≤ ctx'.fresh) : Touches w {w with ctx := ctx'} e place cb :=
  ⟨shifted,fun _ _ => Iff.rfl,fun _ _ => heldSame next _,grows⟩

theorem Stands.called (stands : Stands w) (touches : Touches w {w with ctx := ctx'} e place cb)
    (next : ctx'.nextTimedEvent = w.ctx.nextTimedEvent) (rests : ¬ Running w e) (free : ¬ Held w e)
    (bound : nullEvt < e ∧ e < ctx'.fresh) (home : ∀ id, place = some id → cb.queue = id) (idle : cb.inCallback = 0) :
    Owed {w with ctx := ctx'} e := by
  refine ⟨standingQueued touches rests ?_ (fun _ => bound) home fun _ => idle,fun run is => ?_⟩
  · rw [heldSame next]
    exact free
  · rw [heldSame next]
    exact stands.stepping run is

theorem Stands.written (stands : Stands w) (inPlay : InPlay w e) (f : ScheduleCB A → ScheduleCB A)
    (view : ∀ id, ctx'.heap id = (w.ctx.modify e f).heap id) (fresh : ctx'.fresh = w.ctx.fresh)
    (next : ctx'.nextTimedEvent = w.ctx.nextTimedEvent) (pos : ∀ cb, (f cb).pos = cb.pos)
    (queue : ∀ cb, (f cb).queue = cb.queue)
    (idle : (f (w.ctx.events e)).inCallback = 0 ↔ (w.ctx.events e).inCallback = 0) :
    ctx'.events e = f (w.ctx.events e) ∧ InPlay {w with ctx := ctx'} e ∧ Owed {w with ctx := ctx'} e := by
  have now : ctx'.events e = f (w.ctx.events e) := by
    have events : ctx'.events = (w.ctx.modify e f).events := congrArg Prod.fst (view .queue)
    rw [events, modifySelf]
  have queues : ∀ id, Queued (ctx'.heap id).2 e ↔ Queued (w.ctx.heap id).2 e := fun id => by
    rw [view, heapModify]
  have standing := stands.standing e
  refine ⟨now,?_,⟨fun _ => ?_,fun id queued => ?_,fun running => ?_,fun is => ?_⟩,fun run is => ?_⟩
  · refine inPlay.imp (fun waiting => ?_) (Or.imp id (heldSame next _).mpr)
    obtain ⟨id,queued⟩ := waitingIff.mp waiting
    exact waitingIff.mpr ⟨id,(queues id).mpr queued⟩
  · rw [fresh]
    exact standing.bound inPlay
  · rw [now, queue, idle]
    exact standing.home id ((queues id).mp queued)
  · rw [now, ne_eq, idle]
    exact standing.busy running
  · obtain ⟨off,rest⟩ := standing.held ((heldSame next _).mp is)
    refine ⟨fun id queued => off id ((queues id).mp queued),fun rests => ?_⟩
    rw [now, idle, pos]
    exact rest rests
  · rw [heldSame next]
    exact stands.stepping run is

theorem Stands.entered (stands : Stands w) (still : w.running = none) (shifted : Shifted w.ctx ctx' e none cb)
    (fresh : ctx'.fresh = w.ctx.fresh) (next : ctx'.nextTimedEvent = w.ctx.nextTimedEvent) (inPlay : InPlay w e)
    (busy : cb.inCallback ≠ 0) (now : Timeval) {singleStep : Bool} (stepping : singleStep = true ↔ Held w e) :
    Touches w ⟨ctx',some ⟨e,now,singleStep⟩⟩ e none cb ∧ Owed ⟨ctx',some ⟨e,now,singleStep⟩⟩ e := by
  have running : Running (⟨ctx',some ⟨e,now,singleStep⟩⟩ : Timed A) e := rfl
  refine ⟨⟨shifted,fun x ne => iff_of_false ?_ ?_,fun _ _ => heldSame next _,fresh.ge⟩,
    ⟨fun _ => ?_,fun id queued => absurd queued (shifted.gone id),fun _ => ?_,fun _ => ?_⟩,fun run is => ?_⟩
  · exact fun other => ne (Option.some.inj other).symm
  · simp [Running,still]
  · rw [fresh]
    exact (stands.standing e).bound inPlay
  · rw [sameField shifted.self ScheduleCB.inCallback fun _ => rfl]
    exact busy
  · exact ⟨shifted.gone,fun rests => absurd running rests⟩
  · cases Option.some.inj is
    rw [heldSame next]
    exact stepping

theorem Stands.stopped (stands : Stands w) (still : w.running = none) (free : w.ctx.nextTimedEvent = none)
    (shifted : Shifted w.ctx ctx' e none (w.ctx.events e)) (fresh : ctx'.fresh = w.ctx.fresh)
    (next : ctx'.nextTimedEvent = some e) (waiting : Waiting w e) (out : (ctx'.events e).pos = sizeMax) :
    Touches w {w with ctx := ctx'} e none (w.ctx.events e) ∧ Held {w with ctx := ctx'} e ∧ Owed {w with ctx := ctx'} e := by
  obtain ⟨-,idle,rests,-⟩ := stands.queued waiting
  have bound := (stands.standing e).bound (.inl waiting)
  refine ⟨⟨shifted,fun _ _ => Iff.rfl,fun x ne => iff_of_false ?_ ?_,fresh.ge⟩,⟨next,Nat.ne_of_gt bound.1⟩,
    ⟨fun _ => ?_,fun id queued => absurd queued (shifted.gone id),fun running => absurd running rests,fun _ => ?_⟩,
    fun run is => ?_⟩
  · exact fun other => ne (Option.some.inj (other.1.symm.trans next))
  · exact fun other => by simpa [free] using other.1
  · rw [fresh]
    exact bound
  · refine ⟨shifted.gone,fun _ => ⟨?_,out⟩⟩
    rw [sameField shifted.self ScheduleCB.inCallback fun _ => rfl]
    exact idle
  · rw [still] at is
    cases is

theorem Stands.released (stands : Stands w) (touches : Touches w {w with ctx := ctx'} e none cb) (rests : ¬ Running w e)
    (free : ∀ x, ¬ Held {w with ctx := ctx'} x) (other : ∀ x, Running w x → ¬ Held w x) : Owed {w with ctx := ctx'} e := by
  refine ⟨standingQueued touches rests (free e) (by simp) (by simp) (by simp),fun run is => ?_⟩
  rw [stands.stepping run is]
  exact iff_of_false (other _ (by rw [Running, is]; rfl)) (free _)

theorem forgotten {run : Firing} (stepping : run.singleStep = true ↔ Held w run.event) {done : EventState A}
    (next : done.nextTimedEvent = w.ctx.nextTimedEvent) :
    (∀ id, (if run.singleStep then forget done else done).heap id = done.heap id) ∧
    (if run.singleStep then forget done else done).fresh = done.fresh ∧
    (if run.singleStep then forget done else done).criticalSchedCount = done.criticalSchedCount ∧
    ∀ x, Held (⟨if run.singleStep then forget done else done,none⟩ : Timed A) x ↔ x ≠ run.event ∧ Held w x := by
  cases single : run.singleStep with
  | true =>
    have held := stepping.mp single
    refine ⟨fun id => by cases id <;> rfl,rfl,rfl,fun x => iff_of_false (by simp [Held,forget]) fun other => other.1 ?_⟩
    exact Option.some.inj (other.2.1.symm.trans held.1)
  | false =>
    have kept : ¬ Held w run.event := fun held => by simpa [single] using stepping.mpr held
    refine ⟨fun _ => rfl,rfl,rfl,fun x => (heldSame next none).trans ?_⟩
    exact ⟨fun held => ⟨fun is => kept (is ▸ held),held⟩,And.right⟩

theorem Stands.returned (stands : Stands w) {run : Firing} (is : w.running = some run) {done : EventState A}
    (shifted : Shifted w.ctx done run.event place cb) (last : done.fresh = w.ctx.fresh)
    (next : done.nextTimedEvent = w.ctx.nextTimedEvent) (home : ∀ id, place = some id → cb.queue = id)
    (idle : place ≠ none → cb.inCallback = 0) :
    Touches w ⟨if run.singleStep then forget done else done,none⟩ run.event place cb ∧
    ¬ Held (⟨if run.singleStep then forget done else done,none⟩ : Timed A) run.event ∧
    Owed ⟨if run.singleStep then forget done else done,none⟩ run.event := by
  have running : Running w run.event := by rw [Running, is]; rfl
  obtain ⟨view,fresh,-,held⟩ := forgotten (stands.stepping run is) next
  have free : ¬ Held (⟨if run.singleStep then forget done else done,none⟩ : Timed A) run.event :=
    fun still => ((held _).mp still).1 rfl
  have touches : Touches w ⟨if run.singleStep then forget done else done,none⟩ run.event place cb := by
    refine ⟨shifted.view view,fun x ne => iff_of_false (by simp [Running]) ?_,fun x ne => (held x).trans (and_iff_right ne),
      (fresh.trans last).ge⟩
    exact fun other => ne (Option.some.inj (other.symm.trans running))
  refine ⟨touches,free,standingQueued touches (by simp [Running]) free (fun _ => ?_) home idle,fun _ none => by cases none⟩
  rw [fresh, last]
  exact (stands.standing run.event).bound (.inr (.inl running))

end

def unheld (ctx : EventState A) (e : EventId) : EventState A :=
  {ctx with
    criticalSchedCount := ctx.criticalSchedCount - if (ctx.events e).critical then 1 else 0
    nextTimedEvent := if ctx.nextTimedEvent = some e then some nullEvt else ctx.nextTimedEvent}

theorem schedRemoveEq {ctx : EventState A} (idle : (ctx.events e).inCallback = 0) : (evtSchedRemove ctx e).2 =
    if (ctx.events e).pos = sizeMax then unheld ctx e
    else ((unheld ctx e).setHeap (ctx.events e).queue (remove callbacks (ctx.heap (ctx.events e).queue) e)).modify e
      fun evt => {evt with pos := sizeMax} := by
  have view : ∀ id, (unheld ctx e).heap id = ctx.heap id := fun id => by cases id <;> rfl
  have dropped : (if ctx.nextTimedEvent = some e then
      {(if (ctx.events e).critical then {ctx with criticalSchedCount := ctx.criticalSchedCount - 1} else ctx) with
        nextTimedEvent := some nullEvt}
      else if (ctx.events e).critical then {ctx with criticalSchedCount := ctx.criticalSchedCount - 1} else ctx) =
      unheld ctx e := by
    unfold unheld
    cases (ctx.events e).critical <;> by_cases held : ctx.nextTimedEvent = some e <;> simp [held]
  have next : (if (ctx.events e).critical then {ctx with criticalSchedCount := ctx.criticalSchedCount - 1}
      else ctx).nextTimedEvent = ctx.nextTimedEvent := by
    split <;> rfl
  simp only [evtSchedRemove,idle,ne_eq,not_true_eq_false,if_false,next,dropped,view]
  split <;> rfl

theorem Stands.unheld (stands : Stands w) (shelves : Shelves w.ctx) (held : Held w e) (rests : ¬ Running w e) :
    Touches w {w with ctx := unheld w.ctx e} e none (w.ctx.events e) ∧
      (∀ x, ¬ Held {w with ctx := unheld w.ctx e} x) ∧ Owed {w with ctx := unheld w.ctx e} e := by
  have only : ∀ x, Held w x → x = e := fun x is => Option.some.inj (is.1.symm.trans held.1)
  have now : (SchedCounter.unheld w.ctx e).nextTimedEvent = some nullEvt := if_pos held.1
  have free : ∀ x, ¬ Held {w with ctx := SchedCounter.unheld w.ctx e} x := fun x is =>
    is.2 (Option.some.inj (is.1.symm.trans now))
  have touches : Touches w {w with ctx := SchedCounter.unheld w.ctx e} e none (w.ctx.events e) :=
    ⟨(offShifted shelves ((stands.standing e).held held).1).view fun id => by cases id <;> rfl,fun _ _ => Iff.rfl,
      fun x ne => iff_of_false (free x) fun is => ne (only x is),le_rfl⟩
  exact ⟨touches,free,stands.released touches rests free fun x running is => rests (only x is ▸ running)⟩

theorem beginCases (ctx : EventState A) (e : EventId) (stepping : Bool) :
    ∃ ctx₀ : EventState A, (∀ id, ctx₀.heap id = ctx.heap id) ∧ scalars ctx₀ = scalars ctx ∧
      ((stepping = false ∧ beginTimedEvent ctx e stepping = (false,{ctx₀ with nextTimedEvent := some e})) ∨
        beginTimedEvent ctx e stepping = (true,enterCallback ctx₀ e)) := by
  let counted := {ctx with stepsToBreak := ctx.stepsToBreak - 1}
  by_cases breaking : (!stepping && (ctx.breakOnNext || (ctx.events e).breakpoint)) = true
  · have entered : stepping = false := by
      cases stepping with
      | false => rfl
      | true => simp at breaking
    by_cases now : counted.stepsToBreak ≤ 0
    · refine ⟨{counted with stopped := true, breakOnNext := false},fun id => by cases id <;> rfl,rfl,
        .inl ⟨entered,?_⟩⟩
      simp only [beginTimedEvent,breaking,if_true]
      rw [if_pos (by simpa [counted] using now)]
    · refine ⟨counted,fun id => by cases id <;> rfl,rfl,.inr ?_⟩
      simp only [beginTimedEvent,breaking,if_true]
      rw [if_neg (by simpa [counted] using now)]
  · refine ⟨ctx,fun _ => rfl,rfl,.inr ?_⟩
    simp only [beginTimedEvent,breaking]
    simp

end

def monoEvent (now : Timeval) (evt : ScheduleCB A) : ScheduleCB A :=
  {evt with scheduleTime := now, nextAwake := Timeval.timeradd now evt.timeStep, queue := .dbgQueue}

def clearedCB (call : A) : ScheduleCB A := ⟨⟨0,0⟩,⟨0,0⟩,call,0,⟨0,0⟩,.queue,0,false,false,0⟩

def startTimed (hashSize : Nat) (events : Memory A) (d dbg : Nat → EventId) : Timed A :=
  ⟨evtInitWithSize hashSize (Function.update events nullEvt (clearedCB (events nullEvt).call)) d dbg,none⟩

theorem startStands {hashSize : Nat} (fits : 8 * (hashSize + 1) < 2 ^ 64) (events : Memory A) (d dbg : Nat → EventId) :
    Shelves (startTimed hashSize events d dbg).ctx ∧ Stands (startTimed hashSize events d dbg) ∧
      ∀ x, ¬ InPlay (startTimed hashSize events d dbg) x := by
  have size : ∀ id, ((startTimed hashSize events d dbg).ctx.heap id).2.size = 1 := fun id => by cases id <;> rfl
  have nobody : ∀ id x, ¬ Queued ((startTimed hashSize events d dbg).ctx.heap id).2 x := by
    rintro id x ⟨i,first,last,-⟩
    rw [size] at last
    omega
  have out : ∀ x, ¬ InPlay (startTimed hashSize events d dbg) x := by
    rintro x (waiting | running | held)
    · obtain ⟨id,queued⟩ := waitingIff.mp waiting
      exact nobody id x queued
    · cases running
    · cases held.1
  refine ⟨⟨fun id => (size id).ge,fun id i first last => ?_,fun id => ?_,?_⟩,⟨fun x => ?_,fun run is => by cases is⟩,out⟩
  · rw [size] at last
    omega
  · cases id
    · exact initAllocated d fits
    · exact initAllocated dbg fits
  · exact fun i j x queued => absurd queued (nobody i x)
  · exact ⟨fun inPlay => absurd inPlay (out x),fun id queued => absurd queued (nobody id x),
      fun running => absurd (.inr (.inl running)) (out x),fun held => absurd (.inr (.inr held)) (out x)⟩

end LibProc.SchedCounter
