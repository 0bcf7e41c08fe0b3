import LibProc.GlobalTimer
import Mathlib.Data.List.MinMax

/-! What one step of one process does to the global clock, said once: `Effect` has a case for
each way a step can end, with the place it starts from and the state it leaves. The invariants
of the clock are proved by these cases and never unfold the code. -/
namespace LibProc.GlobalEffects
open GlobalTimer

structure Untouched (state state' : SharedState) : Prop where
  procs : state'.procs = state.procs
  currTime : state'.currTime = state.currTime
  numProcs : state'.numProcs = state.numProcs
  timeThief : state'.timeThief = state.timeThief
  barrier : state'.barrier = state.barrier
  locked : state'.locked = state.locked

/- The slot with its new next time, as the choice of the next process finds it. -/
def posted (state : SharedState) (timer : Timer) (next : Timeval) : SharedState :=
  state.write timer.slot fun mine => { mine with nextTime := next }

def marked (state : SharedState) (least : Nat) : SharedState :=
  { state with currTime := (state.procs least).nextTime }.write least fun next => { next with active := false }

def vacated (state : SharedState) (timer : Timer) : SharedState :=
  state.write timer.slot fun mine => { mine with active := false, pid := 0 }

inductive Effect (state : SharedState) (timer : Timer) : Act → SharedState → Timer → Prop where
  | stay {move} : Effect state timer move state timer
  | opening (place : timer.pc = .init) : Effect state timer .openFile state (timer.at .opened)
  | locking {now} (place : timer.pc = .opened) (sized : state.sized = true) :
      Effect state timer (.setup now none) { state with locked := true } (timer.at .mapped)
  | founding {now} (place : timer.pc = .opened) (fresh : state.sized = false) :
      Effect state timer (.setup now none) { initFile state now with locked := true } (timer.at .mapped)
  | faulting {now fault state'} (place : timer.pc = .opened) (same : Untouched state state')
      (grows : state.sized = true → state'.sized = true ∧ state'.evtMutex = state.evtMutex)
      (founded : state.sized = false →
        state'.evtMutex = state.evtMutex ∨ state'.sized = true ∧ state'.evtMutex = 1) :
      Effect state timer (.setup now (some fault)) state' (timer.at .failed)
  | interrupted (place : timer.pc = .mapped) :
      Effect state timer (.join true) { state with locked := false } (timer.at .failed)
  | joining (place : timer.pc = .mapped) (free : 0 < state.evtMutex) :
      Effect state timer (.join false)
        ({ state with evtMutex := state.evtMutex - 1, numProcs := state.numProcs + 1, locked := false }.write
          state.numProcs fun mine => { mine with
            nextTime := state.currTime, active := true, holdsMutex := true, pid := timer.pid })
        { timer with slot := state.numProcs, pc := .between, owns := true }
  | selecting {next pause} (place : timer.pc = .between) :
      Effect state timer (.block next pause) state (timer.at .selecting)
  | unflagged {next} (place : timer.pc = .between) (down : (state.procs timer.slot).holdsMutex = false) :
      Effect state timer (.block (some next) false) state (timer.at (.aborted .holdsMutex))
  | nobodyRuns {next} (place : timer.pc = .between) (none : running (posted state timer next) = []) :
      Effect state timer (.block (some next) false) (posted state timer next) (timer.at (.aborted .smallest))
  | advancing {next least} (place : timer.pc = .between)
      (awake : timer.paused = .active ∨ timer.paused = .stolen)
      (found : smallest (posted state timer next) = some least) (honest : state.timeThief = 0) :
      Effect state timer (.block (some next) false) (marked (posted state timer next) least)
        (timer.at (.posting next (running (posted state timer next)).length))
  | frozen {next} (place : timer.pc = .between) (awake : timer.paused = .active ∨ timer.paused = .stolen)
      (stolen : state.timeThief ≠ 0) :
      Effect state timer (.block (some next) false) (posted state timer next) (timer.at (.posting next 0))
  | token {next left} (place : timer.pc = .posting next (left + 1)) :
      Effect state timer .post { state with barrier := state.barrier + 1 } (timer.at (.posting next left))
  | released {next} (place : timer.pc = .posting next 0) :
      Effect state timer .post
        ({ state with evtMutex := state.evtMutex + 1 }.write timer.slot
          fun mine => { mine with thief := isThief state timer, holdsMutex := false })
        { timer with pc := if isThief state timer then .stealing else .atBarrier next, owns := false }
  | yielded {next} (place : timer.pc = .yielding next) :
      Effect state timer .post { state with evtMutex := state.evtMutex + 1 }
        { timer with pc := .atBarrier next, owns := false }
  | lastToken {left cnt} (place : timer.pc = .leaving (left + 1) cnt) :
      Effect state timer .post { state with barrier := state.barrier + 1 } (timer.at (.leaving left cnt))
  | lastRelease {cnt} (place : timer.pc = .leaving 0 cnt) :
      Effect state timer .post
        ({ state with evtMutex := state.evtMutex + 1 }.write timer.slot fun mine => { mine with holdsMutex := false })
        { timer with pc := .lockOut cnt, owns := false }
  | relocked (place : timer.pc = .relocking) (free : 0 < state.evtMutex) :
      Effect state timer .wait { state with evtMutex := state.evtMutex - 1 }
        { timer with pc := .between, owns := true }
  | passing {next} (place : timer.pc = .atBarrier next) (free : 0 < state.barrier) :
      Effect state timer .wait { state with barrier := state.barrier - 1 } (timer.at (.through next))
  | mistimed {next} (place : timer.pc = .through next) (free : 0 < state.evtMutex)
      (other : (state.procs timer.slot).nextTime ≠ next) :
      Effect state timer .wait { state with evtMutex := state.evtMutex - 1 }
        { timer with pc := .aborted .nextTime, owns := true, time := state.currTime }
  | early {next} (place : timer.pc = .through next) (free : 0 < state.evtMutex) (later : state.currTime < next) :
      Effect state timer .wait { state with evtMutex := state.evtMutex - 1 }
        { timer with pc := .yielding next, owns := true, time := state.currTime }
  | entering {next} (place : timer.pc = .through next) (free : 0 < state.evtMutex) (due : next ≤ state.currTime) :
      Effect state timer .wait
        ({ state with evtMutex := state.evtMutex - 1 }.write timer.slot
          fun mine => { mine with active := true, holdsMutex := true })
        { timer with pc := .selecting, owns := true, time := state.currTime }
  | awoken (place : timer.pc = .selecting) : Effect state timer .awake state (timer.at .between)
  | stolenAwake (place : timer.pc = .stealing) : Effect state timer .awake state (timer.at .relocking)
  | pausing {mode thief held} (place : timer.pc = .between) (plain : mode ≠ .stolen → thief = state.timeThief ∨ thief = 0)
      (taken : held = timer.paused ∨ held = mode) :
      Effect state timer (.setPause mode) { state with timeThief := thief } { timer with paused := held }
  | setting {time} (place : timer.pc = .between) : Effect state timer (.setTime time) state { timer with time := time }
  | adding {delay time} (place : timer.pc = .between) :
      Effect state timer (.incTime delay) state { timer with time := time }
  | departing {thief} (place : timer.pc = .between) (up : (state.procs timer.slot).holdsMutex = true)
      (honest : state.timeThief = 0 → thief = 0) :
      Effect state timer .cleanup (vacated { state with timeThief := thief } timer)
        (timer.at (.leaving (running (vacated state timer)).length (running (vacated state timer)).length))
  | dropping (place : timer.pc = .between) (down : (state.procs timer.slot).holdsMutex = false) :
      Effect state timer .cleanup (vacated state timer) (timer.at .gone)
  | closing {cnt unlinked} (place : timer.pc = .lockOut cnt) :
      Effect state timer .close
        { state.write timer.slot fun mine => { mine with pid := 0 } with unlinked := unlinked } (timer.at .gone)
  | crashing {locked} : Effect state timer .crash { state with locked := locked } (timer.at .crashed)

section
variable {state : SharedState} {timer : Timer}

theorem writeProcs (slot other : Nat) (change : SharedProcessState → SharedProcessState) :
    (state.write slot change).procs other = if other = slot then change (state.procs slot) else state.procs other := by
  simp only [SharedState.write,Function.update_apply]

theorem writeTwice (slot : Nat) (first second : SharedProcessState → SharedProcessState) :
    (state.write slot first).write slot second = state.write slot fun mine => second (first mine) := by
  simp [SharedState.write]

theorem memRunning {i : Nat} :
    i ∈ running state ↔ i < state.numProcs ∧ 0 < (state.procs i).pid ∧ (state.procs i).active = true := by
  simp [running]

@[simp] theorem postedSelf (next : Timeval) : ((posted state timer next).procs timer.slot).nextTime = next := by
  rw [posted, writeProcs, if_pos rfl]

theorem postedOther (next : Timeval) {i : Nat} (apart : i ≠ timer.slot) :
    (posted state timer next).procs i = state.procs i := by
  rw [posted, writeProcs, if_neg apart]

@[simp] theorem postedPid (next : Timeval) (i : Nat) : ((posted state timer next).procs i).pid = (state.procs i).pid := by
  rw [posted, writeProcs]
  split
  · rename_i mine
    rw [mine]
  · rfl

theorem postedActive (next : Timeval) (i : Nat) :
    ((posted state timer next).procs i).active = (state.procs i).active := by
  rw [posted, writeProcs]
  split
  · rename_i mine
    rw [mine]
  · rfl

theorem postedRunning (next : Timeval) : running (posted state timer next) = running state := by
  simp only [running,postedPid,postedActive]
  rfl

@[simp] theorem markedNext (least i : Nat) : ((marked state least).procs i).nextTime = (state.procs i).nextTime := by
  rw [marked, writeProcs]
  split
  · rename_i chosen
    rw [chosen]
  · rfl

@[simp] theorem markedPid (least i : Nat) : ((marked state least).procs i).pid = (state.procs i).pid := by
  rw [marked, writeProcs]
  split
  · rename_i chosen
    rw [chosen]
  · rfl

theorem memMarked {least i : Nat} : i ∈ running (marked state least) ↔ i ∈ running state ∧ i ≠ least := by
  rw [memRunning, memRunning, markedPid, marked, writeProcs]
  by_cases chosen : i = least
  · simp [chosen]
  · rw [if_neg chosen]
    exact ⟨fun runs => ⟨runs,chosen⟩,And.left⟩

theorem smallestArgmin : smallest state = (running state).argmin fun i => (state.procs i).nextTime := by
  have same : smaller state =
      List.argAux fun i least => (state.procs i).nextTime < (state.procs least).nextTime := by
    funext best i
    cases best with
    | none => rfl
    | some least => simp [smaller,List.argAux,Timeval.timercmpLt]
  rw [smallest, same, List.argmin]

theorem smallestRuns {least : Nat} (found : smallest state = some least) : least ∈ running state :=
  List.argmin_mem (smallestArgmin ▸ found)

theorem smallestLeast {least i : Nat} (found : smallest state = some least) (runs : i ∈ running state) :
    (state.procs least).nextTime ≤ (state.procs i).nextTime := by
  rw [smallestArgmin] at found
  exact @List.le_of_mem_argmin _ _ _ (fun i => (state.procs i).nextTime) _ _ _ runs found

theorem setupFileEffect (now : Timeval) (fault : Option SetupFault) (place : timer.pc = .opened) :
    Effect state timer (.setup now fault) (setupFile state timer now fault).1 (setupFile state timer now fault).2 := by
  unfold setupFile
  split
  · exact .stay
  cases fault with
  | none =>
    cases sized : state.sized with
    | true => exact .locking place sized
    | false => exact .founding place sized
  | some fault =>
    cases fault with
    | early => exact .faulting place ⟨rfl,rfl,rfl,rfl,rfl,rfl⟩ (fun sized => ⟨sized,rfl⟩) fun _ => .inl rfl
    | unmapped => exact .faulting place ⟨rfl,rfl,rfl,rfl,rfl,rfl⟩ (fun _ => ⟨rfl,rfl⟩) fun _ => .inl rfl
    | noBarrier =>
      cases sized : state.sized with
      | true => exact .faulting place ⟨rfl,rfl,rfl,rfl,rfl,rfl⟩ (fun _ => ⟨sized,rfl⟩) fun _ => .inl rfl
      | false =>
        exact .faulting place ⟨rfl,rfl,rfl,rfl,rfl,rfl⟩ (fun was => by rw [sized] at was; cases was)
          fun _ => .inr ⟨rfl,rfl⟩

theorem setupJoinEffect (interrupted : Bool) (place : timer.pc = .mapped) :
    Effect state timer (.join interrupted) (setupJoin state timer interrupted).1 (setupJoin state timer interrupted).2 := by
  rw [setupJoin]
  cases interrupted with
  | true => exact .interrupted place
  | false =>
    rw [if_neg (by simp)]
    split
    · exact .stay
    · exact .joining place (by omega)

theorem finishTripEffect (next : Timeval) (place : timer.pc = .between)
    (awake : timer.paused = .active ∨ timer.paused = .stolen) :
    Effect state timer (.block (some next) false) (finishTrip state timer next).1 (finishTrip state timer next).2 := by
  rw [finishTrip]
  split
  · rename_i down
    exact .unflagged place down
  dsimp only
  split
  · rename_i found
    refine .nobodyRuns place ?_
    rwa [smallestArgmin, List.argmin_eq_none] at found
  · rename_i least found
    split
    · rename_i honest
      exact .advancing place awake found honest
    · rename_i stolen
      exact .frozen place awake stolen

theorem etGvirtBlockEffect (nextAwake : Option Timeval) (pause : Bool) (place : timer.pc = .between) :
    Effect state timer (.block nextAwake pause) (etGvirtBlock state timer nextAwake pause).1
      (etGvirtBlock state timer nextAwake pause).2 := by
  cases nextAwake with
  | none => exact .selecting place
  | some next =>
    cases pause with
    | true => exact .selecting place
    | false =>
      rw [etGvirtBlock, if_neg (by simp)]
      split
      · rename_i awake
        exact finishTripEffect next place awake
      · exact .selecting place

theorem semPostEffect : Effect state timer .post (semPost state timer).1 (semPost state timer).2 := by
  rw [semPost]
  split
  · rename_i place
    exact .token place
  · rename_i place
    exact .released place
  · rename_i place
    exact .yielded place
  · rename_i place
    exact .lastToken place
  · rename_i place
    exact .lastRelease place
  · exact .stay

theorem semWaitEffect : Effect state timer .wait (semWait state timer).1 (semWait state timer).2 := by
  rw [semWait]
  split
  · rename_i place
    split
    · exact .stay
    · exact .relocked place (by omega)
  · rename_i place
    split
    · exact .stay
    · exact .passing place (by omega)
  · rename_i next place
    split
    · exact .stay
    rename_i positive
    have free : 0 < state.evtMutex := by omega
    rw [afterBarrier]
    split
    · rename_i other
      exact .mistimed place free other
    · split
      · rename_i later
        exact .early place free (Timeval.timercmpGt.mp later)
      · rename_i due
        exact .entering place free (not_lt.mp fun later => due (Timeval.timercmpGt.mpr later))
  · exact .stay

theorem etGvirtSetPauseEffect (mode : Pause) (place : timer.pc = .between) :
    Effect state timer (.setPause mode) (etGvirtSetPause state timer mode).1 (etGvirtSetPause state timer mode).2 := by
  rw [etGvirtSetPause]
  split
  · exact .stay
  split
  · rename_i stolen
    split
    · exact .stay
    · exact .pausing place (fun plain => absurd stolen plain) (.inr rfl)
  split
  · exact .pausing place (fun _ => .inr rfl) (.inr rfl)
  · exact .pausing place (fun _ => .inl rfl) (.inr rfl)

theorem cleanupEffect (place : timer.pc = .between) :
    Effect state timer .cleanup (cleanupSharedState state timer).1 (cleanupSharedState state timer).2 := by
  rw [cleanupSharedState]
  dsimp only
  split
  · rename_i up
    cases isThief state timer with
    | true =>
      rw [if_pos rfl]
      have same : (SharedState.write { (state.write timer.slot fun mine => { mine with active := false }) with timeThief := 0 }
          timer.slot fun mine => { mine with pid := 0 }) = vacated { state with timeThief := 0 } timer := by
        simp [vacated,SharedState.write]
      rw [same]
      exact .departing place up fun _ => rfl
    | false =>
      rw [if_neg (by simp), writeTwice]
      exact .departing place up id
  · rename_i down
    rw [writeTwice]
    exact .dropping place (by simpa using down)

theorem actEffect (move : Act) : Effect state timer move (act state timer move).1 (act state timer move).2 := by
  cases move with
  | openFile =>
    rw [act]
    split
    · rename_i place
      exact .opening place.1
    · exact .stay
  | setup now fault =>
    rw [act]
    split
    · rename_i place
      exact setupFileEffect now fault place
    · exact .stay
  | join interrupted =>
    rw [act]
    split
    · rename_i place
      exact setupJoinEffect interrupted place
    · exact .stay
  | block nextAwake pause =>
    rw [act]
    split
    · rename_i place
      exact etGvirtBlockEffect nextAwake pause place
    · exact .stay
  | post => exact semPostEffect
  | wait => exact semWaitEffect
  | awake =>
    rw [act]
    split
    · rename_i place
      exact .awoken place
    · rename_i place
      exact .stolenAwake place
    · exact .stay
  | setPause mode =>
    rw [act]
    split
    · rename_i place
      exact etGvirtSetPauseEffect mode place
    · exact .stay
  | setTime time =>
    rw [act]
    split
    · rename_i place
      exact .setting place
    · exact .stay
  | incTime delay =>
    rw [act]
    split
    · rename_i place
      exact .adding place
    · exact .stay
  | cleanup =>
    rw [act]
    split
    · rename_i place
      exact cleanupEffect place
    · exact .stay
  | close =>
    rw [act]
    split
    · rename_i place
      rw [closeSharedState]
      split
      · exact .stay
      · split
        · exact .closing place
        · exact .closing place
    · exact .stay
  | crash => exact .crashing

end

theorem tripEnds {state state' : SharedState} {timer timer' : Timer} {move : Act} {next : Timeval} {left : Nat}
    (effect : Effect state timer move state' timer') (place : timer.pc = .between)
    (posting : timer'.pc = .posting next left) :
    move = .block (some next) false ∧ (timer.paused = .active ∨ timer.paused = .stolen) ∧
      ((∃ least, smallest (posted state timer next) = some least ∧ state' = marked (posted state timer next) least) ∨
        state.timeThief ≠ 0 ∧ state' = posted state timer next) := by
  cases effect with
  | advancing _ awake found honest =>
    obtain ⟨rfl,rfl⟩ := Pc.posting.inj posting
    exact ⟨rfl,awake,.inl ⟨_,found,rfl⟩⟩
  | frozen _ awake stolen =>
    obtain ⟨rfl,rfl⟩ := Pc.posting.inj posting
    exact ⟨rfl,awake,.inr ⟨stolen,rfl⟩⟩
  | token was =>
    rw [place] at was
    cases was
  | released was =>
    rw [place] at was
    cases was
  | stay | pausing | setting | adding =>
    rw [place] at posting
    cases posting
  | _ => cases posting

theorem memSet {timers : List Timer} {proc : Nat} {timer' other : Timer} (member : other ∈ timers.set proc timer') :
    other = timer' ∨ ∃ i ≠ proc, timers[i]? = some other := by
  obtain ⟨i,there⟩ := List.mem_iff_getElem?.mp member
  by_cases same : i = proc
  · rw [same, List.getElem?_set_self', Option.map_eq_map, Option.map_eq_some_iff] at there
    obtain ⟨_,_,is⟩ := there
    exact .inl is.symm
  · rw [List.getElem?_set_ne (Ne.symm same)] at there
    exact .inr ⟨i,same,there⟩

theorem otherStays {timers : List Timer} {proc i : Nat} {timer' other : Timer} (there : timers[i]? = some other)
    (apart : i ≠ proc) : other ∈ timers.set proc timer' := by
  refine @List.mem_of_getElem? _ _ i _ ?_
  rwa [List.getElem?_set_ne (Ne.symm apart)]

theorem itselfMoves {timers : List Timer} {proc : Nat} {timer timer' : Timer} (here : timers[proc]? = some timer) :
    timer' ∈ timers.set proc timer' :=
  List.mem_set (List.getElem?_eq_some_iff.mp here).1 timer'

theorem stepKeeps {Inv : World → Prop} {P : World → Event → Prop}
    (arrives : ∀ world pid mode, Inv world → P world (.start pid mode) → Inv (step world (.start pid mode)))
    (each : ∀ world proc timer move state' timer', Inv world → world.timers[proc]? = some timer →
      P world (.act proc move) → Effect world.state timer move state' timer' →
      step world (.act proc move) = { state := state', timers := world.timers.set proc timer' } →
      Inv { state := state', timers := world.timers.set proc timer' })
    (world : World) (event : Event) (inv : Inv world) (may : P world event) : Inv (step world event) := by
  cases event with
  | start pid mode => exact arrives world pid mode inv may
  | act proc move =>
    rw [step]
    cases here : world.timers[proc]? with
    | none => exact inv
    | some timer => exact each world proc timer move _ _ inv here may (actEffect move) (by rw [step, here]; rfl)
end LibProc.GlobalEffects
