import LibProc.GlobalMutex

/-! The slots that setup_shared_state hands out. num_procs only ever counts up while the state
file lives, so a slot is the number of joins before it: no slot is given twice, and the slots
outlast the array once more processes have joined than it has entries, whoever has left. -/
namespace LibProc.GlobalJoins
open GlobalTimer GlobalMutex GlobalEffects Runs

def maxProcs : Nat := 128

def assigned (world : World) : Event → Option Nat
  | .act proc (.join false) => (world.timers[proc]?).bind fun timer =>
      if timer.pc = .mapped ∧ world.state.evtMutex ≠ 0 then some (act world.state timer (.join false)).2.slot else none
  | _ => none

/- An assigned slot is one of the array, and no process in the simulation has it. -/
def SlotValid (world : World) (event : Event) : Prop :=
  ∀ slot, assigned world event = some slot →
    slot < maxProcs ∧ ∀ timer ∈ world.timers, joined timer.pc = true → timer.slot ≠ slot

def joins : World → List Event → Nat
  | _, [] => 0
  | world, event :: rest => (if (assigned world event).isSome then 1 else 0) + joins (step world event) rest

structure Numbered (world : World) : Prop where
  founded : world.state.sized = false → world.state.numProcs = 0
  mapped : ∀ timer ∈ world.timers, timer.pc = .mapped → world.state.sized = true
  seats : ∀ timer ∈ world.timers, joined timer.pc = true → world.state.sized = true ∧ timer.slot < world.state.numProcs

theorem numberedStart : Numbered nobody := by
  refine ⟨fun _ => rfl,fun timer member => ?_,fun timer member => ?_⟩ <;> cases member

structure Counts (state : SharedState) (timer : Timer) (state' : SharedState) (timer' : Timer) : Prop where
  founded : state'.sized = false → state'.numProcs = 0
  grows : state.sized = true → state'.sized = true ∧ state.numProcs ≤ state'.numProcs
  mapped : timer'.pc = .mapped → state'.sized = true
  seat : joined timer'.pc = true → state'.sized = true ∧ timer'.slot < state'.numProcs

theorem Counts.same {state state' : SharedState} {timer timer' : Timer} (sized : state'.sized = state.sized)
    (numProcs : state'.numProcs = state.numProcs) (slot : timer'.slot = timer.slot)
    (founded : state.sized = false → state.numProcs = 0) (mapped : timer.pc = .mapped → state.sized = true)
    (seat : joined timer.pc = true → state.sized = true ∧ timer.slot < state.numProcs)
    (away : timer'.pc ≠ .mapped ∨ timer'.pc = timer.pc) (stays : joined timer'.pc = true → joined timer.pc = true) :
    Counts state timer state' timer' := by
  refine ⟨fun is => ?_,fun is => ?_,fun is => ?_,fun is => ?_⟩
  · rw [numProcs]
    exact founded (sized ▸ is)
  · rw [sized, numProcs]
    exact ⟨is,Nat.le_refl _⟩
  · rcases away with not | same
    · exact absurd is not
    · rw [sized]
      exact mapped (same ▸ is)
  · rw [sized, numProcs, slot]
    exact seat (stays is)

theorem effectCounts {state state' : SharedState} {timer timer' : Timer} {move : Act}
    (effect : Effect state timer move state' timer') (founded : state.sized = false → state.numProcs = 0)
    (mapped : timer.pc = .mapped → state.sized = true)
    (seat : joined timer.pc = true → state.sized = true ∧ timer.slot < state.numProcs) :
    Counts state timer state' timer' := by
  cases effect with
  | locking place sized => exact ⟨fun is => founded is,fun is => ⟨is,Nat.le_refl _⟩,fun _ => sized,fun is => by cases is⟩
  | founding place fresh =>
    refine ⟨fun is => (by cases is),fun is => ?_,fun _ => rfl,fun is => by cases is⟩
    rw [fresh] at is
    cases is
  | faulting place same grows small =>
    refine ⟨fun is => ?_,fun is => ⟨(grows is).1,same.numProcs.ge⟩,fun is => (by cases is),fun is => by cases is⟩
    rw [same.numProcs]
    cases sized : state.sized with
    | false => exact founded sized
    | true =>
      rw [(grows sized).1] at is
      cases is
  | joining place free =>
    have sized := mapped place
    refine ⟨fun is => ?_,fun _ => ⟨sized,Nat.le_succ _⟩,fun is => (by cases is),fun _ => ⟨sized,Nat.lt_succ_self _⟩⟩
    exact absurd sized (by simpa [SharedState.write] using is)
  | stay | pausing | setting | adding => exact .same rfl rfl rfl founded mapped seat (.inr rfl) id
  | opening | interrupted | unflagged | nobodyRuns | mistimed | dropping | closing | crashing =>
    exact .same rfl rfl rfl founded mapped seat (.inl fun is => by cases is) fun is => by cases is
  | released place =>
    refine .same rfl rfl rfl founded mapped seat (.inl ?_) fun _ => by rw [place]; rfl
    dsimp only
    split <;> exact fun is => by cases is
  | selecting place | advancing place | frozen place | token place | yielded place | lastToken place | lastRelease place
  | relocked place | passing place | early place | entering place | awoken place | stolenAwake place | departing place =>
    exact .same rfl rfl rfl founded mapped seat (.inl fun is => by cases is) fun _ => by rw [place]; rfl

theorem numberedStep (world : World) (event : Event) (inv : Numbered world) : Numbered (step world event) := by
  refine stepKeeps (P := fun _ _ => True) ?_ ?_ world event inv trivial
  · intro world pid mode inv _
    refine ⟨inv.founded,fun timer member is => ?_,fun timer member is => ?_⟩
    · rcases List.mem_append.mp member with old | new
      · exact inv.mapped timer old is
      · rw [List.mem_singleton.mp new] at is
        cases is
    · rcases List.mem_append.mp member with old | new
      · exact inv.seats timer old is
      · rw [List.mem_singleton.mp new] at is
        cases is
  · intro world proc timer move state' timer' inv here _ effect _
    have member := List.mem_of_getElem? here
    have counts := effectCounts effect inv.founded (inv.mapped timer member) (inv.seats timer member)
    refine ⟨counts.founded,fun other inside is => ?_,fun other inside is => ?_⟩
    · rcases memSet inside with rfl | ⟨i,-,there⟩
      · exact counts.mapped is
      · exact (counts.grows (inv.mapped other (List.mem_of_getElem? there) is)).1
    · rcases memSet inside with rfl | ⟨i,-,there⟩
      · exact counts.seat is
      · obtain ⟨sized,below⟩ := inv.seats other (List.mem_of_getElem? there) is
        obtain ⟨stays,more⟩ := counts.grows sized
        exact ⟨stays,Nat.lt_of_lt_of_le below more⟩

theorem effectNumProcs {state state' : SharedState} {timer timer' : Timer} {move : Act}
    (effect : Effect state timer move state' timer') (founded : state.sized = false → state.numProcs = 0)
    (other : move ≠ .join false) : state'.numProcs = state.numProcs := by
  cases effect with
  | founding place fresh => exact (founded fresh).symm
  | faulting place same => exact same.numProcs
  | joining => exact absurd rfl other
  | _ => rfl

theorem assignedCounts (world : World) (event : Event) (inv : Numbered world) :
    (∀ slot, assigned world event = some slot → slot = world.state.numProcs) ∧
      (step world event).state.numProcs = world.state.numProcs + if (assigned world event).isSome then 1 else 0 := by
  cases event with
  | start pid mode => exact ⟨fun slot is => (by cases is),rfl⟩
  | act proc move =>
    cases here : world.timers[proc]? with
    | none =>
      have quiet : assigned world (.act proc move) = none := by
        unfold assigned
        split <;> simp_all
      rw [quiet, step, here]
      exact ⟨fun slot is => (by cases is),rfl⟩
    | some timer =>
      have after : (step world (.act proc move)).state = (act world.state timer move).1 := by rw [step, here]; rfl
      rw [after]
      by_cases joining : move = .join false
      · subst joining
        simp only [assigned, here, Option.bind_some]
        by_cases gets : timer.pc = .mapped ∧ world.state.evtMutex ≠ 0
        · rw [if_pos gets]
          simp only [act, if_pos gets.1, setupJoin, Bool.false_eq_true, if_false, if_neg gets.2, Option.some.injEq,
            Option.isSome_some, if_true, SharedState.write]
          exact ⟨fun slot is => is.symm,trivial⟩
        · rw [if_neg gets]
          refine ⟨fun slot is => (by cases is),?_⟩
          by_cases place : timer.pc = .mapped
          · have zero : world.state.evtMutex = 0 := by
              by_contra free
              exact gets ⟨place,free⟩
            simp [act, place, setupJoin, zero]
          · simp [act, place]
      · have quiet : assigned world (.act proc move) = none := by
          unfold assigned
          split
          · rename_i is
            exact absurd (Event.act.inj is).2 joining
          · rfl
        rw [quiet, effectNumProcs (actEffect move) inv.founded joining]
        exact ⟨fun slot is => (by cases is),rfl⟩

theorem validIff {world : World} (inv : Numbered world) (event : Event) :
    SlotValid world event ↔ (assigned world event ≠ none → world.state.numProcs < maxProcs) := by
  obtain ⟨slots,-⟩ := assignedCounts world event inv
  constructor
  · intro valid some_
    obtain ⟨slot,is⟩ := Option.ne_none_iff_exists'.mp some_
    rw [← slots slot is]
    exact (valid slot is).1
  · intro room slot is
    have small := room (by rw [is]; exact Option.some_ne_none slot)
    rw [slots slot is]
    refine ⟨small,fun timer member seated same => ?_⟩
    have below := (inv.seats timer member seated).2
    omega

theorem validFrom {world : World} (inv : Numbered world) (events : List Event) :
    Along step SlotValid world events ↔
      world.state.numProcs + joins world events ≤ maxProcs ∨ joins world events = 0 := by
  induction events generalizing world with
  | nil => simp [Along, joins]
  | cons event rest ih =>
    obtain ⟨-,count⟩ := assignedCounts world event inv
    rw [Along, ih (numberedStep world event inv), validIff inv event, joins, count]
    cases given : assigned world event with
    | none =>
      simp only [ne_eq, not_true_eq_false, false_implies, true_and, Option.isSome_none, Bool.false_eq_true, if_false,
        Nat.add_zero, Nat.zero_add]
    | some slot =>
      simp only [ne_eq, reduceCtorEq, not_false_eq_true, true_implies, Option.isSome_some, if_true]
      omega

/- Every slot assigned in a run is one of the array and private just when no more processes join
than the array has entries. -/
theorem slotsValid (events : List Event) :
    Along step SlotValid nobody events ↔ joins nobody events ≤ maxProcs := by
  rw [validFrom numberedStart events]
  show 0 + joins nobody events ≤ maxProcs ∨ joins nobody events = 0 ↔ joins nobody events ≤ maxProcs
  omega

theorem joinsCounted {world : World} (inv : Numbered world) (events : List Event) :
    (exec step world events).state.numProcs = world.state.numProcs + joins world events := by
  induction events generalizing world with
  | nil => rfl
  | cons event rest ih =>
    obtain ⟨-,count⟩ := assignedCounts world event inv
    rw [exec, ih (numberedStep world event inv), count, joins, Nat.add_assoc]

section Visitors

def resident : List Event :=
  [.start 1 .active,.act 0 .openFile,.act 0 (.setup ⟨0,0⟩ none),.act 0 (.join false),.act 0 (.setPause .stolen),
    .act 0 (.block (some ⟨0,0⟩) false),.act 0 .post]

def arrive (proc : Nat) : List Event :=
  [.start (proc + 1) .active,.act proc .openFile,.act proc (.setup ⟨0,0⟩ none),.act proc (.join false)]

def depart (proc : Nat) : List Event := [.act proc .cleanup,.act proc .post,.act proc .post,.act proc .close]

def visits : Nat → List Event
  | 0 => resident
  | n + 1 => visits n ++ (arrive (n + 1) ++ depart (n + 1))

structure Hosting (world : World) (n : Nat) : Prop where
  started : world.timers.length = n + 1
  file : world.state.sized = true ∧ world.state.locked = false ∧ world.state.unlinked = false
  mutex : world.state.evtMutex = 1
  slots : world.state.numProcs = n + 1
  alone : running world.state = [0]

theorem hostingStart : Hosting (exec step nobody resident) 0 := by
  refine ⟨rfl,⟨rfl,rfl,rfl⟩,rfl,rfl,?_⟩
  decide

theorem stepLast {state : SharedState} {timers : List Timer} {proc : Nat} (last : timers.length = proc) (timer : Timer)
    (move : Act) : step ⟨state,timers ++ [timer]⟩ (.act proc move) =
      ⟨(act state timer move).1,timers ++ [(act state timer move).2]⟩ := by
  subst last
  simp [step]

theorem runningWrite {state state' : SharedState} {slot : Nat} (before : state.numProcs = slot)
    (after : state'.numProcs = slot + 1) (same : ∀ i, i ≠ slot → state'.procs i = state.procs i)
    (left : (state'.procs slot).pid = 0) : running state' = running state := by
  rw [running, running, after, before, List.range_succ, List.filter_append]
  have none : [slot].filter (fun i => 0 < (state'.procs i).pid && (state'.procs i).active) = [] := by simp [left]
  rw [none, List.append_nil]
  refine List.filter_congr fun i member => ?_
  rw [same i (Nat.ne_of_lt (List.mem_range.mp member))]

theorem cleanupLeaves {state : SharedState} {timer : Timer} (place : timer.pc = .between)
    (holds : (state.procs timer.slot).holdsMutex = true) : ∃ state',
      act state timer .cleanup = (state',timer.at (.leaving (running state').length (running state').length)) ∧
        (state'.sized = state.sized ∧ state'.locked = state.locked ∧ state'.unlinked = state.unlinked) ∧
        state'.evtMutex = state.evtMutex ∧ state'.numProcs = state.numProcs ∧
        (∀ i, i ≠ timer.slot → state'.procs i = state.procs i) ∧ (state'.procs timer.slot).pid = 0 := by
  simp only [act, if_pos place, cleanupSharedState, if_pos holds]
  refine ⟨_,rfl,?_⟩
  split
  · simp +contextual [SharedState.write]
  · simp +contextual [SharedState.write]

theorem hostingVisit {world : World} {n : Nat} (hosts : Hosting world n) :
    Hosting (exec step world (arrive (n + 1) ++ depart (n + 1))) (n + 1) := by
  obtain ⟨state,timers⟩ := world
  obtain ⟨started,⟨sized,free,named⟩,mutex,slots,alone⟩ := hosts
  dsimp only at started sized free named mutex slots alone
  let came : Timer := ⟨n + 2,⟨0,0⟩,n + 1,.active,.between,true⟩
  let taken := (setupJoin { state with locked := true } { came with pc := .mapped } false).1
  have arrives : exec step ⟨state,timers⟩ (arrive (n + 1)) = ⟨taken,timers ++ [came]⟩ := by
    simp [arrive, exec, step, started, act, setupFile, setupJoin, Timer.at, free, named, sized, mutex, slots, taken,
      came, SharedState.write]
  have holds : (taken.procs came.slot).holdsMutex = true := by
    simp [taken, setupJoin, mutex, came, slots, SharedState.write]
  have after : taken.sized = true ∧ taken.locked = false ∧ taken.unlinked = false ∧ taken.evtMutex = 0 ∧
      taken.numProcs = n + 2 := by simp [taken, setupJoin, mutex, slots, SharedState.write, sized, named]
  obtain ⟨isSized,isFree,isNamed,isTaken,counted⟩ := after
  obtain ⟨left,leaves,⟨file,lock,name⟩,same,count,others,cleared⟩ := cleanupLeaves (rfl : came.pc = .between) holds
  have stays : running left = [0] := by
    rw [runningWrite slots (count.trans counted) _ cleared, alone]
    intro i other
    rw [others i other]
    simp [taken, setupJoin, mutex, slots, SharedState.write, Function.update_of_ne other]
  have goes : exec step ⟨taken,timers ++ [came]⟩ (depart (n + 1)) =
      ⟨({ left with barrier := left.barrier + 1, evtMutex := left.evtMutex + 1 }.write (n + 1)
        fun mine => { mine with holdsMutex := false }).write (n + 1) fun mine => { mine with pid := 0 },
        timers ++ [{ came with pc := .gone, owns := false }]⟩ := by
    simp only [depart, exec, stepLast started, leaves, stays]
    simp [act, semPost, closeSharedState, Timer.at, SharedState.write, came, lock, isFree]
  rw [execAppend, arrives, goes]
  refine ⟨by simp [started],⟨file.trans isSized,lock.trans isFree,name.trans isNamed⟩,?_,count.trans counted,?_⟩
  · show left.evtMutex + 1 = 1
    rw [same, isTaken]
  · refine (runningWrite slots ?_ (fun i other => ?_) ?_).trans alone
    · exact count.trans counted
    · simp [SharedState.write, Function.update_of_ne other, others i other, taken, setupJoin, mutex, slots]
    · simp [SharedState.write]

theorem hosting (n : Nat) : Hosting (exec step nobody (visits n)) n := by
  induction n with
  | zero => exact hostingStart
  | succ n ih =>
    rw [visits, execAppend]
    exact hostingVisit ih

theorem visitsJoin (n : Nat) : joins nobody (visits n) = n + 1 := by
  have count := joinsCounted numberedStart (visits n)
  rw [(hosting n).slots, show nobody.state.numProcs = 0 from rfl, Nat.zero_add] at count
  exact count.symm

/- Two processes are in the simulation at a time, and the last visitor still gets a slot after the array. -/
theorem lateVisitorOutside : ¬Along step SlotValid nobody (visits maxProcs) := by
  rw [validFrom numberedStart, visitsJoin, show nobody.state.numProcs = 0 from rfl, maxProcs]
  omega

end Visitors

end LibProc.GlobalJoins
