import LibProc.Timeval
import LibProc.Runs
import Mathlib.Logic.Function.Basic

/-! The global virtual clock of globalTimer.c: one shared file, two semaphores and a slot
for each process that joined. A process runs from one semaphore operation to the next in
one step; `Pc` says where it stands. A wait on a semaphore at zero, or on the file lock
while another has it, is a step that changes nothing. `owns` records that the process
passed a sem_wait on evt_mutex that it has not matched by its sem_post. -/
namespace LibProc.GlobalTimer
open Timeval

inductive Pause where
  | active | paused | stolen
  deriving DecidableEq, Repr

structure SharedProcessState where
  nextTime : Timeval
  active : Bool
  holdsMutex : Bool
  thief : Bool
  pid : Nat
  deriving DecidableEq, Repr

/- The shared state, and of the file: whether it has its size, its lock and its name. The
slots are not bounded here: setup_shared_state does not compare num_procs with MAX_PROCS. -/
structure SharedState where
  evtMutex : Nat
  barrier : Nat
  currTime : Timeval
  numProcs : Nat
  timeThief : Nat
  procs : Nat → SharedProcessState
  sized : Bool
  locked : Bool
  unlinked : Bool

inductive Assertion where
  | holdsMutex | smallest | nextTime
  deriving DecidableEq, Repr

inductive Pc where
  | init
  | opened
  | mapped
  | between
  | posting (nextAwake : Timeval) (left : Nat)
  | stealing
  | relocking
  | atBarrier (nextAwake : Timeval)
  | through (nextAwake : Timeval)
  | yielding (nextAwake : Timeval)
  | selecting
  | leaving (left cnt : Nat)
  | lockOut (cnt : Nat)
  | gone
  | failed
  | aborted (assertion : Assertion)
  | crashed
  deriving DecidableEq, Repr

structure Timer where
  pid : Nat
  time : Timeval
  slot : Nat
  paused : Pause
  pc : Pc
  owns : Bool
  deriving DecidableEq, Repr

def SharedState.write (state : SharedState) (slot : Nat)
    (change : SharedProcessState → SharedProcessState) : SharedState :=
  { state with procs := Function.update state.procs slot (change (state.procs slot)) }

def Timer.at (timer : Timer) (pc : Pc) : Timer := { timer with pc := pc }

/- Where setup_shared_state gives up: before the file has its size, before the mutex is
there, or between the two sem_inits. -/
inductive SetupFault where
  | early | unmapped | noBarrier
  deriving DecidableEq, Repr

def initFile (state : SharedState) (now : Timeval) : SharedState :=
  { state with sized := true, evtMutex := 1, barrier := 0, numProcs := 0, currTime := now }

def setupFile (state : SharedState) (timer : Timer) (now : Timeval) (fault : Option SetupFault) :
    SharedState × Timer :=
  if state.locked then (state,timer)
  else
    match fault with
    | none => ({ (if state.sized then state else initFile state now) with locked := true },
        timer.at .mapped)
    | some .early => (state,timer.at .failed)
    | some .unmapped => ({ state with sized := true },timer.at .failed)
    | some .noBarrier =>
      (if state.sized then state else { state with sized := true, evtMutex := 1 },timer.at .failed)

def setupJoin (state : SharedState) (timer : Timer) (interrupted : Bool) : SharedState × Timer :=
  if interrupted then ({ state with locked := false },timer.at .failed)
  else if state.evtMutex = 0 then (state,timer)
  else
    let slot := state.numProcs
    ({ state with evtMutex := state.evtMutex - 1, numProcs := slot + 1, locked := false }.write slot
        fun mine => { mine with
          nextTime := state.currTime, active := true, holdsMutex := true, pid := timer.pid },
      { timer with slot := slot, pc := .between, owns := true })

def running (state : SharedState) : List Nat :=
  (List.range state.numProcs).filter fun i => 0 < (state.procs i).pid && (state.procs i).active

def smaller (state : SharedState) (best : Option Nat) (i : Nat) : Option Nat :=
  best.elim (some i) fun least =>
    if timercmp (· < ·) (state.procs i).nextTime (state.procs least).nextTime then some i
    else some least

def smallest (state : SharedState) : Option Nat := (running state).foldl (smaller state) none

def finishTrip (state : SharedState) (timer : Timer) (nextAwake : Timeval) : SharedState × Timer :=
  if (state.procs timer.slot).holdsMutex = false then (state,timer.at (.aborted .holdsMutex))
  else
    let state := state.write timer.slot fun mine => { mine with nextTime := nextAwake }
    match smallest state with
    | none => (state,timer.at (.aborted .smallest))
    | some least =>
      if state.timeThief = 0 then
        ({ state with currTime := (state.procs least).nextTime }.write least
            fun next => { next with active := false },
          timer.at (.posting nextAwake (running state).length))
      else (state,timer.at (.posting nextAwake 0))

def etGvirtBlock (state : SharedState) (timer : Timer) (nextAwake : Option Timeval)
    (pauseWhileBlocking : Bool) : SharedState × Timer :=
  match nextAwake with
  | none => (state,timer.at .selecting)
  | some next =>
    if pauseWhileBlocking then (state,timer.at .selecting)
    else if timer.paused = .active ∨ timer.paused = .stolen then finishTrip state timer next
    else (state,timer.at .selecting)

def isThief (state : SharedState) (timer : Timer) : Bool :=
  0 < state.timeThief && state.timeThief = (state.procs timer.slot).pid

def semPost (state : SharedState) (timer : Timer) : SharedState × Timer :=
  match timer.pc with
  | .posting nextAwake (left + 1) =>
    ({ state with barrier := state.barrier + 1 },timer.at (.posting nextAwake left))
  | .posting nextAwake 0 =>
    let thief := isThief state timer
    ({ state with evtMutex := state.evtMutex + 1 }.write timer.slot
        fun mine => { mine with thief := thief, holdsMutex := false },
      { timer with pc := if thief then .stealing else .atBarrier nextAwake, owns := false })
  | .yielding nextAwake =>
    ({ state with evtMutex := state.evtMutex + 1 },
      { timer with pc := .atBarrier nextAwake, owns := false })
  | .leaving (left + 1) cnt =>
    ({ state with barrier := state.barrier + 1 },timer.at (.leaving left cnt))
  | .leaving 0 cnt =>
    ({ state with evtMutex := state.evtMutex + 1 }.write timer.slot
        fun mine => { mine with holdsMutex := false },
      { timer with pc := .lockOut cnt, owns := false })
  | _ => (state,timer)

def afterBarrier (state : SharedState) (timer : Timer) (nextAwake : Timeval) : SharedState × Timer :=
  if (state.procs timer.slot).nextTime ≠ nextAwake then (state,timer.at (.aborted .nextTime))
  else if timercmp (· > ·) nextAwake state.currTime then (state,timer.at (.yielding nextAwake))
  else
    (state.write timer.slot fun mine => { mine with active := true, holdsMutex := true },
      timer.at .selecting)

def semWait (state : SharedState) (timer : Timer) : SharedState × Timer :=
  match timer.pc with
  | .relocking =>
    if state.evtMutex = 0 then (state,timer)
    else ({ state with evtMutex := state.evtMutex - 1 },{ timer with pc := .between, owns := true })
  | .atBarrier nextAwake =>
    if state.barrier = 0 then (state,timer)
    else ({ state with barrier := state.barrier - 1 },timer.at (.through nextAwake))
  | .through nextAwake =>
    if state.evtMutex = 0 then (state,timer)
    else
      afterBarrier { state with evtMutex := state.evtMutex - 1 }
        { timer with owns := true, time := state.currTime } nextAwake
  | _ => (state,timer)

def etGvirtSetPause (state : SharedState) (timer : Timer) (mode : Pause) : SharedState × Timer :=
  if (state.procs timer.slot).holdsMutex = false then (state,timer)
  else if mode = .stolen then
    if state.timeThief ≠ 0 then (state,timer)
    else ({ state with timeThief := (state.procs timer.slot).pid },{ timer with paused := mode })
  else if isThief state timer then ({ state with timeThief := 0 },{ timer with paused := mode })
  else (state,{ timer with paused := mode })

def cleanupSharedState (state : SharedState) (timer : Timer) : SharedState × Timer :=
  let left := state.write timer.slot fun mine => { mine with active := false }
  if (state.procs timer.slot).holdsMutex then
    let freed := if isThief state timer then { left with timeThief := 0 } else left
    let cleared := freed.write timer.slot fun mine => { mine with pid := 0 }
    (cleared,timer.at (.leaving (running cleared).length (running cleared).length))
  else (left.write timer.slot fun mine => { mine with pid := 0 },timer.at .gone)

def closeSharedState (state : SharedState) (timer : Timer) (cnt : Nat) : SharedState × Timer :=
  if state.locked then (state,timer)
  else
    let cleared := state.write timer.slot fun mine => { mine with pid := 0 }
    (if cnt = 0 then { cleared with unlinked := true } else cleared,timer.at .gone)

inductive Act where
  | openFile
  | setup (now : Timeval) (fault : Option SetupFault)
  | join (interrupted : Bool)
  | block (nextAwake : Option Timeval) (pauseWhileBlocking : Bool)
  | post
  | wait
  | awake
  | setPause (mode : Pause)
  | setTime (time : Timeval)
  | incTime (time : Timeval)
  | cleanup
  | close
  | crash
  deriving DecidableEq, Repr

/- One step of one process. The calls of the application are made between two blocks. -/
def act (state : SharedState) (timer : Timer) : Act → SharedState × Timer
  | .openFile => if timer.pc = .init ∧ ¬state.unlinked then (state,timer.at .opened) else (state,timer)
  | .setup now fault => if timer.pc = .opened then setupFile state timer now fault else (state,timer)
  | .join interrupted => if timer.pc = .mapped then setupJoin state timer interrupted else (state,timer)
  | .block nextAwake pauseWhileBlocking =>
    if timer.pc = .between then etGvirtBlock state timer nextAwake pauseWhileBlocking else (state,timer)
  | .post => semPost state timer
  | .wait => semWait state timer
  | .awake =>
    match timer.pc with
    | .selecting => (state,timer.at .between)
    | .stealing => (state,timer.at .relocking)
    | _ => (state,timer)
  | .setPause mode => if timer.pc = .between then etGvirtSetPause state timer mode else (state,timer)
  | .setTime time => if timer.pc = .between then (state,{ timer with time := time }) else (state,timer)
  | .incTime time =>
    if timer.pc = .between then (state,{ timer with time := timeradd time timer.time })
    else (state,timer)
  | .cleanup => if timer.pc = .between then cleanupSharedState state timer else (state,timer)
  | .close =>
    match timer.pc with
    | .lockOut cnt => closeSharedState state timer cnt
    | _ => (state,timer)
  | .crash => ({ state with locked := state.locked && timer.pc ≠ .mapped },timer.at .crashed)

structure World where
  state : SharedState
  timers : List Timer

inductive Event where
  | start (pid : Nat) (mode : Pause)
  | act (proc : Nat) (act : Act)
  deriving DecidableEq, Repr

def step (world : World) : Event → World
  | .start pid mode =>
    { world with timers := world.timers ++
        [{ pid := pid, time := ⟨0,0⟩, slot := 0, paused := mode, pc := .init, owns := false }] }
  | .act proc move =>
    (world.timers[proc]?).elim world fun timer =>
      let after := act world.state timer move
      { state := after.1, timers := world.timers.set proc after.2 }

def nobody : World :=
  { state :=
      { evtMutex := 0, barrier := 0, currTime := ⟨0,0⟩, numProcs := 0, timeThief := 0
        procs := fun _ => ⟨⟨0,0⟩,false,false,false,0⟩
        sized := false, locked := false, unlinked := false }
    timers := [] }

end LibProc.GlobalTimer
