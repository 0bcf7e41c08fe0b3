import LibProc.SchedCounter
import LibProc.VirtClock

/-! What EVT_get_monotonic_time answers under the virtual clock, in any run of the loop. Three
things write the clock: the application moves it on, the loop's block sets it to the wake
time of the head, and nothing else does. The block does not look at where the clock is. -/
namespace LibProc.VirtTime
open PriorityQueue Scheduler Runs SchedCounter VirtClock

variable {A : Type}

def virtClkActive : Int := 0
def virtClkPaused : Int := 1
def virtClkStolen : Int := 2

structure VirtualEventTimer where
  time : Timeval
  paused : Int
  deriving DecidableEq, Repr

def etVirtInit (initTime : Timeval) : VirtualEventTimer := ⟨initTime,virtClkActive⟩

def etVirtIncTime (clk : VirtualEventTimer) (time : Timeval) : VirtualEventTimer :=
  { clk with time := Timeval.timeradd time clk.time }

def etVirtSetPause (clk : VirtualEventTimer) (pauseState : Int) : VirtualEventTimer :=
  if pauseState ≠ virtClkStolen then { clk with paused := pauseState } else clk

def etVirtGetTime (clk : VirtualEventTimer) : Timeval := clk.time

structure VirtLoop (A : Type) where
  timed : Timed A
  clock : VirtualEventTimer
  firing : Bool

def evtGetMonotonicTime (v : VirtLoop A) : Timeval := etVirtGetTime v.clock

/- The readings of an act of the scheduler are its arguments; `legal` says which of them are
readings of the virtual clock. `other` is next_fd_event or dbg_reply_evt. -/
inductive VirtAct (A : Type) where
  | sched (act : SchedAct A)
  | update (now : Timeval) (e : EventId) (time : Timeval)
  | credit (now : Timeval) (e : EventId) (time : Timeval)
  | incTime (time : Timeval)
  | setPause (pauseState : Int)
  | block (other : Bool)

def timePaused (v : VirtLoop A) (other : Bool) : Bool := v.timed.ctx.nextTimedEvent.isSome || other

def blocked (v : VirtLoop A) (other : Bool) : VirtLoop A :=
  let paused := timePaused v other
  let awake := if paused then none else nextAwake v.timed.ctx
  { v with
    clock := { v.clock with time := etVirtBlock (v.clock.paused = virtClkActive) awake paused v.clock.time }
    firing := !paused }

def stillFiring (v : VirtLoop A) : SchedAct A → Bool
  | .fire now => (fireTimedEvent v.timed.ctx now).1.any Prod.snd
  | _ => v.firing

def virtStep (v : VirtLoop A) : VirtAct A → VirtLoop A
  | .sched act => { v with timed := schedStep v.timed act, firing := stillFiring v act }
  | .update now e time => { v with timed := { v.timed with ctx := evtSchedUpdate v.timed.ctx now e time } }
  | .credit now e time => { v with timed := { v.timed with ctx := evtSchedUpdatePartialCredit v.timed.ctx now e time } }
  | .incTime time => { v with clock := etVirtIncTime v.clock time }
  | .setPause pauseState => { v with clock := etVirtSetPause v.clock pauseState }
  | .block other => blocked v other

def startLoop (hashSize : Nat) (events : Memory A) (d dbg : Nat → EventId) (initTime : Timeval) : VirtLoop A :=
  ⟨startTimed hashSize events d dbg,etVirtInit initTime,false⟩

/- What the loop does where, and which clock it reads. Outside the firing anything may run: pseudo
threads, callbacks of descriptors, deferred events; inside it only the callback of an event. -/
def inOrder (v : VirtLoop A) : SchedAct A → Prop
  | .add _ _ now _ _ _ => now = evtGetMonotonicTime v
  | .fire now => v.firing = true ∧ now = evtGetMonotonicTime v
  | .fireDbg _ => v.firing = false
  | .singleStep now => v.firing = false ∧ now = evtGetMonotonicTime v
  | _ => True

def readsOwn (v : VirtLoop A) (now : Timeval) (e : EventId) : Prop :=
  InPlay v.timed e ∧ ((v.timed.ctx.events e).queue = .queue → now = evtGetMonotonicTime v)

def legal (v : VirtLoop A) : VirtAct A → Prop
  | .sched act => SchedCounter.allowed v.timed act ∧ inOrder v act
  | .update now e _ => readsOwn v now e
  | .credit now e _ => readsOwn v now e
  | .incTime time => (0 ≤ time.sec ∧ 0 ≤ time.usec) ∧ (v.firing = true → v.timed.running ≠ none)
  | .setPause _ => True
  | .block _ => v.firing = false ∧ v.timed.running = none

def headOverdue (v : VirtLoop A) (other : Bool) : Prop :=
  v.clock.paused = virtClkActive ∧ timePaused v other = false ∧
    ∃ next ∈ nextAwake v.timed.ctx, next < evtGetMonotonicTime v

def onTime (v : VirtLoop A) : VirtAct A → Prop
  | .block other => ¬ headOverdue v other
  | _ => True

def readings (v : VirtLoop A) : List (VirtAct A) → List Timeval
  | [] => [evtGetMonotonicTime v]
  | act :: rest => evtGetMonotonicTime v :: readings (virtStep v act) rest

theorem timeraddLater {d t : Timeval} (positive : 0 ≤ d.sec ∧ 0 ≤ d.usec) : t ≤ Timeval.timeradd d t := by
  obtain ⟨sec,usec⟩ := positive
  rw [Timeval.leIff]
  simp only [Timeval.timeradd]
  split <;> simp only <;> omega

theorem blockedLater (v : VirtLoop A) (other : Bool) :
    evtGetMonotonicTime v ≤ evtGetMonotonicTime (blocked v other) ↔ ¬ headOverdue v other := by
  simp only [evtGetMonotonicTime,etVirtGetTime,blocked,headOverdue]
  cases paused : timePaused v other with
  | true => simp [etVirtBlock]
  | false =>
    cases found : nextAwake v.timed.ctx with
    | none => simp [etVirtBlock]
    | some next =>
      by_cases active : v.clock.paused = virtClkActive
      · simp [etVirtBlock,active]
      · simp [etVirtBlock,active]

theorem stepLater (v : VirtLoop A) (act : VirtAct A) (may : legal v act) :
    evtGetMonotonicTime v ≤ evtGetMonotonicTime (virtStep v act) ↔ onTime v act := by
  cases act with
  | block other => exact blockedLater v other
  | incTime time => exact iff_of_true (timeraddLater may.1) trivial
  | setPause pauseState =>
    refine iff_of_true ?_ trivial
    simp only [virtStep,etVirtSetPause]
    split <;> exact le_rfl
  | sched act => exact iff_of_true le_rfl trivial
  | update now e time => exact iff_of_true le_rfl trivial
  | credit now e time => exact iff_of_true le_rfl trivial

theorem readingsHead (v : VirtLoop A) (acts : List (VirtAct A)) :
    ∃ later, readings v acts = evtGetMonotonicTime v :: later := by
  cases acts with
  | nil => exact ⟨[],rfl⟩
  | cons act rest => exact ⟨readings (virtStep v act) rest,rfl⟩

theorem readingsChain (v : VirtLoop A) (acts : List (VirtAct A)) (run : Along virtStep legal v acts) :
    (readings v acts).IsChain (· ≤ ·) ↔ Along virtStep onTime v acts := by
  induction acts generalizing v with
  | nil => simp [readings,Along]
  | cons act rest ih =>
    obtain ⟨later,same⟩ := readingsHead (virtStep v act) rest
    have tail := ih (virtStep v act) run.2
    rw [same] at tail
    rw [readings, same, List.isChain_cons_cons, stepLater v act run.1, tail]
    rfl

instance (v : VirtLoop A) : ∀ act, Decidable (inOrder v act)
  | .add .. => inferInstanceAs (Decidable (_ = _))
  | .fire _ => inferInstanceAs (Decidable (_ ∧ _))
  | .fireDbg _ => inferInstanceAs (Decidable (_ = _))
  | .singleStep _ => inferInstanceAs (Decidable (_ ∧ _))
  | .setCritical .. | .makeBreakpoint _ | .moveToMono .. | .remove _ | .ret .. | .debugger .. =>
    inferInstanceAs (Decidable True)

instance (v : VirtLoop A) (now : Timeval) (e : EventId) : Decidable (readsOwn v now e) :=
  inferInstanceAs (Decidable (_ ∧ _))

instance (v : VirtLoop A) : ∀ act, Decidable (legal v act)
  | .sched act => inferInstanceAs (Decidable (SchedCounter.allowed v.timed act ∧ inOrder v act))
  | .update now e _ => inferInstanceAs (Decidable (readsOwn v now e))
  | .credit now e _ => inferInstanceAs (Decidable (readsOwn v now e))
  | .incTime _ => inferInstanceAs (Decidable (_ ∧ (_ → _)))
  | .setPause _ => inferInstanceAs (Decidable True)
  | .block _ => inferInstanceAs (Decidable (_ ∧ _))

instance (v : VirtLoop A) (other : Bool) : Decidable (headOverdue v other) :=
  inferInstanceAs (Decidable (_ ∧ _ ∧ ∃ next ∈ nextAwake v.timed.ctx, next < evtGetMonotonicTime v))

instance (v : VirtLoop A) : ∀ act, Decidable (onTime v act)
  | .block other => inferInstanceAs (Decidable (¬ headOverdue v other))
  | .sched _ | .update .. | .credit .. | .incTime _ | .setPause _ => inferInstanceAs (Decidable True)

theorem clockMonotonicIff {hashSize : Nat} {events : Memory A} {d dbg : Nat → EventId} {initTime : Timeval}
    {acts : List (VirtAct A)} (run : Along virtStep legal (startLoop hashSize events d dbg initTime) acts) :
    (readings (startLoop hashSize events d dbg initTime) acts).IsChain (· ≤ ·) ↔
      Along virtStep onTime (startLoop hashSize events d dbg initTime) acts :=
  readingsChain _ acts run

def idleLoop : VirtLoop Unit := startLoop 19 (fun _ => clearedCB ()) (fun _ => 0) (fun _ => 0) ⟨0,0⟩

def addAt (now delay : Int) : VirtAct Unit := .sched (.add true true ⟨now,0⟩ ⟨delay,0⟩ ⟨delay,0⟩ ())

def orderlyActs : List (VirtAct Unit) :=
  [addAt 0 1,addAt 0 2,.block false,.sched (.fire ⟨1,0⟩),.incTime ⟨4,500000⟩,.sched (.ret false true),
    .sched (.fire ⟨5,500000⟩),.sched (.ret false true),.sched (.fire ⟨5,500000⟩),
    .sched (.add true true ⟨5,500000⟩ ⟨1,0⟩ ⟨1,0⟩ ()),.setPause virtClkPaused,.incTime ⟨3,0⟩,.block false,
    .sched (.fire ⟨8,500000⟩),.setPause virtClkActive,.sched (.ret true true),.sched (.fire ⟨8,500000⟩),
    .sched (.ret true true),.sched (.fire ⟨8,500000⟩),.sched (.ret true true),.sched (.fire ⟨8,500000⟩),.block false]

theorem clockMonotonicOrderly : (readings idleLoop orderlyActs).IsChain (· ≤ ·) :=
  (clockMonotonicIff (by decide +kernel)).mpr (by decide +kernel)

def overdueActs : List (VirtAct Unit) := [addAt 0 1,.incTime ⟨5,0⟩,.block false]

theorem clockGoesBack : Along virtStep legal idleLoop overdueActs ∧
    ¬ (readings idleLoop overdueActs).IsChain (· ≤ ·) := by
  decide +kernel

end LibProc.VirtTime
