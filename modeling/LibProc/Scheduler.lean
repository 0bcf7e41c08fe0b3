import LibProc.PriorityQueue
import LibProc.Timeval

/-! The timed events of events.c. A `ScheduleCB` is addressed by its `EventId`; `call`
stands for its callback together with the argument the callback is given. Clock
readings and the outcomes of `malloc` and `realloc` are arguments of the functions
that ask for them. A callback is foreign code, so `evt_process_timed_event` is cut at
the call: what runs in between is any sequence of calls into this module. -/
namespace LibProc.Scheduler
open PriorityQueue

abbrev EventId := Nat

def sizeMax : Nat := 2 ^ 64 - 1

inductive QueueId where
  | queue
  | dbgQueue
  deriving DecidableEq, Repr

structure ScheduleCB (A : Type) where
  scheduleTime : Timeval
  nextAwake : Timeval
  call : A
  pos : Nat
  timeStep : Timeval
  queue : QueueId
  count : Nat
  breakpoint : Bool
  critical : Bool
  inCallback : Nat
  deriving DecidableEq, Repr

abbrev Memory (A : Type) := EventId → ScheduleCB A

section
variable {A : Type}

def cmpPri (next curr : Timeval) : Bool := Timeval.timercmp (· ≥ ·) next curr
def getPri (m : Memory A) (e : EventId) : Timeval := (m e).nextAwake
def setPri (m : Memory A) (e : EventId) (pri : Timeval) : Memory A :=
  Function.update m e {m e with nextAwake := pri}
def getPos (m : Memory A) (e : EventId) : Nat := (m e).pos
def setPos (m : Memory A) (e : EventId) (pos : Nat) : Memory A :=
  Function.update m e {m e with pos := pos}

def callbacks : Callbacks (Memory A) EventId Timeval := ⟨cmpPri,getPri,setPri,getPos,setPos⟩

theorem lawful : Lawful (callbacks (A := A)) :=
  lawfulRecords ScheduleCB.nextAwake ScheduleCB.pos (fun cb pri => {cb with nextAwake := pri}) (fun cb pos => {cb with pos := pos})
    (fun _ _ => Timeval.timercmpGe) (fun _ _ => rfl) (fun _ _ => rfl) (fun _ _ => rfl) fun _ _ => rfl

/- Address 0 is `ctx->null_evt`, which is never freed and never queued. -/
structure EventState (A : Type) where
  events : Memory A
  fresh : EventId
  queue : Queue EventId
  dbgQueue : Queue EventId
  timedEventCounter : Nat
  criticalSchedCount : Int
  nextTimedEvent : Option EventId
  breakOnNext : Bool
  stepsToBreak : Int
  stopped : Bool

def nullEvt : EventId := 0

def EventState.heap (ctx : EventState A) : QueueId → Memory A × Queue EventId
  | .queue => (ctx.events,ctx.queue)
  | .dbgQueue => (ctx.events,ctx.dbgQueue)

def EventState.setHeap (ctx : EventState A) : QueueId → Memory A × Queue EventId → EventState A
  | .queue,h => {ctx with events := h.1, queue := h.2}
  | .dbgQueue,h => {ctx with events := h.1, dbgQueue := h.2}

def EventState.modify (ctx : EventState A) (e : EventId) (f : ScheduleCB A → ScheduleCB A) : EventState A :=
  {ctx with events := Function.update ctx.events e (f (ctx.events e))}

def evtInitWithSize (hashSize : Nat) (events : Memory A) (d dbg : Nat → EventId) : EventState A :=
  { events := events, fresh := nullEvt + 1, queue := init hashSize d, dbgQueue := init hashSize dbg,
    timedEventCounter := 0, criticalSchedCount := 0, nextTimedEvent := none, breakOnNext := false,
    stepsToBreak := 0, stopped := false }

def newSchedCB (now time timestep : Timeval) (call : A) : ScheduleCB A :=
  { scheduleTime := now, nextAwake := Timeval.timeradd now time, call := call, pos := 0,
    timeStep := timestep, queue := .queue, count := 0, breakpoint := false, critical := true,
    inCallback := 0 }

def evtSchedAddWithTimestep (ctx : EventState A) (malloc grow : Bool) (now time timestep : Timeval)
    (call : A) : Option EventId × EventState A :=
  if malloc then
    let e := ctx.fresh
    let made := {ctx with
      events := Function.update ctx.events e (newSchedCB now time timestep call), fresh := e + 1}
    let r := insert callbacks grow (made.heap .queue) e
    if r.1 then
      (some e,{made.setHeap .queue r.2 with criticalSchedCount := ctx.criticalSchedCount + 1})
    else (none,made.setHeap .queue r.2)
  else (none,ctx)

def evtSchedAdd (ctx : EventState A) (malloc grow : Bool) (now time : Timeval) (call : A) :
    Option EventId × EventState A := evtSchedAddWithTimestep ctx malloc grow now time time call

def evtSchedRemove (ctx : EventState A) (e : EventId) : Option A × EventState A :=
  let evt := ctx.events e
  if evt.inCallback ≠ 0 then (none,ctx)
  else
    let ctx := if evt.critical then {ctx with criticalSchedCount := ctx.criticalSchedCount - 1} else ctx
    let ctx := if ctx.nextTimedEvent = some e then {ctx with nextTimedEvent := some nullEvt} else ctx
    if evt.pos = sizeMax then (some evt.call,ctx)
    else
      let ctx := ctx.setHeap evt.queue (remove callbacks (ctx.heap evt.queue) e)
      (some evt.call,ctx.modify e fun evt => {evt with pos := sizeMax})

/- The field is a char, and only ever tested against zero: it keeps the low byte of the int. -/
def evtSchedSetCritical (ctx : EventState A) (e : EventId) (critical : Int) : EventState A :=
  let evt := ctx.events e
  let count :=
    if evt.critical && critical = 0 then ctx.criticalSchedCount - 1
    else if !evt.critical && critical ≠ 0 then ctx.criticalSchedCount + 1
    else ctx.criticalSchedCount
  {ctx with criticalSchedCount := count}.modify e fun evt => {evt with critical := decide (critical % 256 ≠ 0)}

def evtSchedMakeBreakpoint (ctx : EventState A) (e : EventId) : EventState A :=
  ctx.modify e fun evt => {evt with breakpoint := true}

/- The result of the insertion is not looked at; `now` is a reading of the real clock. -/
def evtSchedMoveToMono (ctx : EventState A) (grow : Bool) (now : Timeval) (e : EventId) : EventState A :=
  let id := (ctx.events e).queue
  let ctx := ctx.setHeap id (remove callbacks (ctx.heap id) e)
  let ctx := ctx.modify e fun evt =>
    {evt with scheduleTime := now, nextAwake := Timeval.timeradd now evt.timeStep, queue := .dbgQueue}
  let ctx := ctx.setHeap .dbgQueue (insert callbacks grow (ctx.heap .dbgQueue) e).2
  let ctx := if (ctx.events e).critical then {ctx with criticalSchedCount := ctx.criticalSchedCount - 1} else ctx
  ctx.modify e fun evt => {evt with critical := false}

def requeue (ctx : EventState A) (e : EventId) : EventState A :=
  let evt := ctx.events e
  if evt.inCallback = 0 then
    ctx.setHeap evt.queue (changePriority callbacks (ctx.heap evt.queue) evt.nextAwake e)
  else ctx.modify e fun evt => {evt with inCallback := 2}

def evtSchedUpdate (ctx : EventState A) (now : Timeval) (e : EventId) (time : Timeval) : EventState A :=
  requeue (ctx.modify e fun evt =>
    {evt with scheduleTime := now, nextAwake := Timeval.timeradd now time, timeStep := time}) e

def creditedAwake (now scheduleTime time : Timeval) : Timeval :=
  let nextAwake := Timeval.timeradd scheduleTime time
  if Timeval.timercmp (· ≤ ·) nextAwake now then now else nextAwake

def evtSchedUpdatePartialCredit (ctx : EventState A) (now : Timeval) (e : EventId) (time : Timeval) :
    EventState A :=
  requeue (ctx.modify e fun evt =>
    {evt with nextAwake := creditedAwake now evt.scheduleTime time, timeStep := time}) e

def enterCallback (ctx : EventState A) (curProc : EventId) : EventState A :=
  {ctx with timedEventCounter := (ctx.timedEventCounter + 1) % 2 ^ 64}.modify curProc fun evt =>
    {evt with count := (evt.count + 1) % 2 ^ 32, inCallback := 1}

/- evt_process_timed_event up to the call of the callback. The Bool is false when the
debugger holds the event instead. -/
def beginTimedEvent (ctx : EventState A) (curProc : EventId) (stepping : Bool) : Bool × EventState A :=
  let evt := ctx.events curProc
  let breaking := !stepping && (ctx.breakOnNext || evt.breakpoint)
  let ctx := if breaking then {ctx with stepsToBreak := ctx.stepsToBreak - 1} else ctx
  if breaking && decide (ctx.stepsToBreak ≤ 0) then
    (false,{ctx with nextTimedEvent := some curProc, stopped := true, breakOnNext := false})
  else (true,enterCallback ctx curProc)

/- An event that asks to be kept moves on by its step, unless its callback has updated it. -/
def keptEvent (curTime : Timeval) (evt : ScheduleCB A) : ScheduleCB A :=
  let evt := if evt.inCallback = 1 then
    {evt with scheduleTime := curTime, nextAwake := Timeval.timeradd evt.nextAwake evt.timeStep} else evt
  {evt with inCallback := 0}

def finishTimedEvent (ctx : EventState A) (curProc : EventId) (curTime : Timeval) (keep grow : Bool) :
    EventState A :=
  if keep then
    let ctx := ctx.modify curProc (keptEvent curTime)
    let id := (ctx.events curProc).queue
    ctx.setHeap id (insert callbacks grow (ctx.heap id) curProc).2
  else if (ctx.events curProc).critical then
    {ctx with criticalSchedCount := ctx.criticalSchedCount - 1}
  else ctx

def popTimedEvent (ctx : EventState A) (curProc : EventId) : EventState A :=
  (ctx.setHeap .queue (pop callbacks (ctx.heap .queue)).2).modify curProc fun evt => {evt with pos := sizeMax}

def fireTimedEvent (ctx : EventState A) (curTime : Timeval) : Option (EventId × Bool) × EventState A :=
  match peek ctx.queue with
  | none => (none,ctx)
  | some curProc =>
    if Timeval.timercmp (· > ·) (ctx.events curProc).nextAwake curTime then (none,ctx)
    else
      let r := beginTimedEvent (popTimedEvent ctx curProc) curProc false
      (some (curProc,r.1),r.2)

def popDbgEvent (ctx : EventState A) (curProc : EventId) : EventState A :=
  let ctx := ctx.modify curProc fun evt => {evt with pos := sizeMax}
  ctx.setHeap .dbgQueue (pop callbacks (ctx.heap .dbgQueue)).2

def fireDbgEvent (ctx : EventState A) (curTime : Timeval) : Option EventId × EventState A :=
  match peek ctx.dbgQueue with
  | none => (none,ctx)
  | some curProc =>
    if Timeval.timercmp (· > ·) (ctx.events curProc).nextAwake curTime then (none,ctx)
    else (some curProc,(beginTimedEvent (popDbgEvent ctx curProc) curProc true).2)

end

end LibProc.Scheduler
