import LibProc.GlobalTurns

/-! The shared time. The end of a trip overwrites it with the least next time of the running
slots, so it goes forward as long as no running slot is behind it. A slot may be behind only
while its process has its turn; and the process then asks for a time from its own clock, which
the barrier sets to the shared time but which a join leaves at zero. -/
namespace LibProc.GlobalTime
open GlobalTimer GlobalMutex GlobalEffects GlobalTurns Runs

def ending (world : World) : Event → Option (Timer × Timeval)
  | .act proc (.block (some next) false) =>
    (world.timers[proc]?).bind fun timer =>
      if timer.pc = .between ∧ timer.paused ≠ .paused then some (timer,next) else none
  | _ => none

/- Events are scheduled from the clock of the process, not before it. -/
def Scheduled (world : World) (event : Event) : Prop :=
  ∀ ends ∈ ending world event, ends.1.time ≤ ends.2

/- A process whose clock is not the shared time asks for no time before it. -/
def Synchronized (world : World) (event : Event) : Prop :=
  ∀ ends ∈ ending world event, ends.1.time = world.state.currTime ∨ world.state.currTime ≤ ends.2

instance (world : World) (event : Event) : Decidable (Scheduled world event) :=
  inferInstanceAs (Decidable (∀ ends ∈ ending world event, ends.1.time ≤ ends.2))

instance (world : World) (event : Event) : Decidable (Synchronized world event) :=
  inferInstanceAs (Decidable (∀ ends ∈ ending world event, ends.1.time = _ ∨ _ ≤ ends.2))

def Orderly (world : World) (event : Event) : Prop := Scheduled world event ∧ Synchronized world event

instance (world : World) (event : Event) : Decidable (Orderly world event) :=
  inferInstanceAs (Decidable (_ ∧ _))

theorem endingOf {world : World} {proc : Nat} {timer : Timer} {next : Timeval}
    (here : world.timers[proc]? = some timer) (place : timer.pc = .between)
    (awake : timer.paused = .active ∨ timer.paused = .stolen) :
    (timer,next) ∈ ending world (.act proc (.block (some next) false)) := by
  have running : timer.paused ≠ .paused := by
    rcases awake with is | is
    · simp [is]
    · simp [is]
  simp [ending,here,place,running]

/- A process that ends a trip asks for no time before the shared one. -/
def Forward (world : World) (event : Event) : Prop := ∀ ends ∈ ending world event, world.state.currTime ≤ ends.2

instance (world : World) (event : Event) : Decidable (Forward world event) :=
  inferInstanceAs (Decidable (∀ ends ∈ ending world event, _ ≤ ends.2))

theorem Orderly.forward {world : World} {event : Event} (orderly : Orderly world event) : Forward world event := by
  intro ends member
  rcases orderly.2 ends member with same | later
  · exact le_of_eq_of_le same.symm (orderly.1 ends member)
  · exact later

structure Ahead (world : World) : Prop where
  exclusive : Exclusive world
  slots : Kept (· ≤ ·) world

theorem aheadStart : Ahead nobody := ⟨exclusiveStart,keptStart⟩

theorem postedAhead {world : World} {proc : Nat} {timer : Timer} {next : Timeval} (inv : Ahead world)
    (here : world.timers[proc]? = some timer) (place : timer.pc = .between) (asks : world.state.currTime ≤ next)
    {i : Nat} (runs : i ∈ running (posted world.state timer next)) :
    world.state.currTime ≤ ((posted world.state timer next).procs i).nextTime := by
  rw [postedRunning] at runs
  by_cases mine : i = timer.slot
  · rw [mine, postedSelf]
    exact asks
  · rw [postedOther next mine]
    exact inv.slots.others inv.exclusive here place runs mine

theorem advancedAhead {state : SharedState} {least : Nat} (found : smallest state = some least) {i : Nat}
    (runs : i ∈ running (marked state least)) :
    (marked state least).currTime ≤ ((marked state least).procs i).nextTime := by
  rw [markedNext]
  exact smallestLeast found (memMarked.mp runs).1

theorem aheadStep (world : World) (event : Event) (inv : Ahead world) (forward : Forward world event) :
    Ahead (step world event) := by
  refine @stepKeeps Ahead Forward (fun world pid mode inv _ => ?_)
    (fun world proc timer move state' timer' inv here forward effect is => ?_) world event inv forward
  · exact ⟨exclusiveStep world _ inv.exclusive,inv.slots.arrives pid mode⟩
  · refine ⟨is ▸ exclusiveStep world _ inv.exclusive,(effectKeeps inv.exclusive here effect ?_).kept inv.slots here⟩
    intro next left place posting i runs
    obtain ⟨rfl,awake,⟨least,found,rfl⟩ | ⟨stolen,rfl⟩⟩ := tripEnds effect place posting
    · exact advancedAhead found runs
    · exact postedAhead inv here place (forward _ (endingOf here place awake)) runs

theorem effectForward {world : World} {proc : Nat} {timer timer' : Timer} {move : Act} {state' : SharedState}
    (inv : Ahead world) (here : world.timers[proc]? = some timer) (forward : Forward world (.act proc move))
    (sized : world.state.sized = true) (effect : Effect world.state timer move state' timer') :
    state'.sized = true ∧ world.state.currTime ≤ state'.currTime := by
  cases effect with
  | founding place fresh =>
    rw [sized] at fresh
    cases fresh
  | faulting place untouched grows founded => exact ⟨(grows sized).1,untouched.currTime.ge⟩
  | advancing place awake found honest =>
    exact ⟨sized,postedAhead inv here place (forward _ (endingOf here place awake)) (smallestRuns found)⟩
  | _ => exact ⟨sized,le_rfl⟩

theorem stepForward {world : World} {event : Event} (inv : Ahead world) (forward : Forward world event)
    (sized : world.state.sized = true) :
    (step world event).state.sized = true ∧ world.state.currTime ≤ (step world event).state.currTime := by
  cases event with
  | start pid mode => exact ⟨sized,le_rfl⟩
  | act proc move =>
    rw [step]
    cases here : world.timers[proc]? with
    | none => exact ⟨sized,le_rfl⟩
    | some timer => exact effectForward inv here forward sized (actEffect move)

theorem forwardRun {world : World} {events : List Event} (inv : Ahead world) (sized : world.state.sized = true)
    (forward : Along step Forward world events) :
    world.state.currTime ≤ (exec step world events).state.currTime := by
  induction events generalizing world with
  | nil => exact le_rfl
  | cons event rest ih =>
    obtain ⟨still,later⟩ := stepForward inv forward.1 sized
    exact le_trans later (ih (aheadStep world event inv forward.1) still forward.2)

theorem globalTimeForward (events more : List Event) (orderly : Along step Orderly nobody (events ++ more))
    (sized : (exec step nobody events).state.sized = true) :
    (exec step nobody events).state.currTime ≤ (exec step nobody (events ++ more)).state.currTime := by
  obtain ⟨first,second⟩ := alongAppend.mp (orderly.weaken fun _ _ each => each.forward)
  rw [execAppend]
  exact forwardRun (first.invariant aheadStep aheadStart) sized second

theorem globalTimeForwardTrip : (exec step nobody (GlobalMutex.trip.take 4)).state.currTime ≤
    (exec step nobody (GlobalMutex.trip.take 4 ++ GlobalMutex.trip.drop 4)).state.currTime :=
  globalTimeForward _ _ (by decide +kernel) (by decide +kernel)

def joinAtHundred : List Event :=
  [.start 7 .active,.act 0 .openFile,.act 0 (.setup ⟨100,0⟩ none),.act 0 (.join false)]

def firstTrip : List Event := [.act 0 (.block (some ⟨1,0⟩) false)]

theorem firstTripGoesBack : Along step Scheduled nobody (joinAtHundred ++ firstTrip) ∧
    (exec step nobody joinAtHundred).state.sized = true ∧
    ¬ (exec step nobody joinAtHundred).state.currTime ≤
      (exec step nobody (joinAtHundred ++ firstTrip)).state.currTime := by
  decide +kernel

end LibProc.GlobalTime
