import LibProc.GlobalMutex

/-! The process with its turn, and the slots that count. Each running slot meets a condition of
the caller's choice or is the slot of the process that has its turn; every step keeps that but
for the end of a trip, where the condition has to be shown. -/
namespace LibProc.GlobalTurns
open GlobalTimer GlobalMutex GlobalEffects

def settled : Pc → Bool
  | .posting _ _ => true
  | .yielding _ => true
  | .leaving _ _ => true
  | _ => false

def Turn (timer : Timer) : Prop := timer.owns = true ∧ settled timer.pc = false

variable {Q : Timeval → Timeval → Prop}

def Kept (Q : Timeval → Timeval → Prop) (world : World) : Prop :=
  ∀ i ∈ running world.state, Q world.state.currTime (world.state.procs i).nextTime ∨
    ∃ timer ∈ world.timers, Turn timer ∧ timer.slot = i

theorem keptStart : Kept Q nobody := fun i runs => by simp [running,nobody] at runs

theorem Kept.arrives {world : World} (inv : Kept Q world) (pid : Nat) (mode : Pause) :
    Kept Q (step world (.start pid mode)) := by
  intro i runs
  rcases inv i runs with good | ⟨timer,member,turn⟩
  · exact .inl good
  · exact .inr ⟨timer,List.mem_append_left _ member,turn⟩

/- What a step has to leave: each running slot meets the condition, or was there before with its
next time, or belongs to the process that moved and has its turn. -/
def KeepsSlots (Q : Timeval → Timeval → Prop) (state : SharedState) (timer : Timer) (state' : SharedState)
    (timer' : Timer) : Prop :=
  ∀ i ∈ running state', Q state'.currTime (state'.procs i).nextTime ∨ (Turn timer' ∧ timer'.slot = i) ∨
    i ∈ running state ∧ (state'.procs i).nextTime = (state.procs i).nextTime ∧
      state'.currTime = state.currTime ∧ (Turn timer → timer.slot ≠ i)

theorem KeepsSlots.kept {world : World} {proc : Nat} {timer timer' : Timer} {state' : SharedState}
    (keeps : KeepsSlots Q world.state timer state' timer') (inv : Kept Q world)
    (here : world.timers[proc]? = some timer) :
    Kept Q { state := state', timers := world.timers.set proc timer' } := by
  intro i runs
  rcases keeps i runs with good | mine | ⟨was,next,time,left⟩
  · exact .inl good
  · exact .inr ⟨timer',itselfMoves here,mine⟩
  rcases inv i was with good | ⟨other,member,turn,slot⟩
  · rw [← next, ← time] at good
    exact .inl good
  obtain ⟨j,there⟩ := List.mem_iff_getElem?.mp member
  by_cases same : j = proc
  · rw [same, here, Option.some.injEq] at there
    rw [← there] at turn slot
    exact absurd slot (left turn)
  · exact .inr ⟨other,otherStays there same,turn,slot⟩

section
variable {state : SharedState} {timer : Timer}

theorem keepsSame {state' : SharedState} {timer' : Timer} (numProcs : state'.numProcs = state.numProcs)
    (procs : ∀ i, (state'.procs i).pid = (state.procs i).pid ∧ (state'.procs i).active = (state.procs i).active ∧
      (state'.procs i).nextTime = (state.procs i).nextTime)
    (time : state'.currTime = state.currTime) (turn : Turn timer → Turn timer' ∧ timer'.slot = timer.slot) :
    KeepsSlots Q state timer state' timer' := by
  intro i runs
  obtain ⟨pid,active,next⟩ := procs i
  rw [memRunning, numProcs, pid, active, ← memRunning] at runs
  by_cases mine : Turn timer ∧ timer.slot = i
  · obtain ⟨stays,slot⟩ := turn mine.1
    exact .inr (.inl ⟨stays,slot.trans mine.2⟩)
  · exact .inr (.inr ⟨runs,next,time,fun has is => mine ⟨has,is⟩⟩)

theorem writeSame {slot : Nat} {change : SharedProcessState → SharedProcessState}
    (same : ∀ mine, (change mine).pid = mine.pid ∧ (change mine).active = mine.active ∧
      (change mine).nextTime = mine.nextTime) (i : Nat) :
    ((state.write slot change).procs i).pid = (state.procs i).pid ∧
      ((state.write slot change).procs i).active = (state.procs i).active ∧
      ((state.write slot change).procs i).nextTime = (state.procs i).nextTime := by
  rw [writeProcs]
  split
  · rename_i is
    rw [is]
    exact same _
  · exact ⟨rfl,rfl,rfl⟩

theorem keepsCleared {state' : SharedState} {timer' : Timer} (numProcs : state'.numProcs = state.numProcs)
    (cleared : (state'.procs timer.slot).pid = 0) (others : ∀ i ≠ timer.slot, state'.procs i = state.procs i)
    (time : state'.currTime = state.currTime) : KeepsSlots Q state timer state' timer' := by
  intro i runs
  rw [memRunning, numProcs] at runs
  by_cases mine : i = timer.slot
  · rw [mine, cleared] at runs
    exact absurd runs.2.1 (by simp)
  · rw [others i mine, ← memRunning] at runs
    exact .inr (.inr ⟨runs,by rw [others i mine],time,fun _ is => mine is.symm⟩)

end

theorem Kept.others {world : World} {proc : Nat} {timer : Timer} (inv : Kept Q world) (exclusive : Exclusive world)
    (here : world.timers[proc]? = some timer) (place : timer.pc = .between) {i : Nat}
    (runs : i ∈ running world.state) (other : i ≠ timer.slot) :
    Q world.state.currTime (world.state.procs i).nextTime := by
  rcases inv i runs with good | ⟨owner,member,turn,slot⟩
  · exact good
  obtain ⟨j,there⟩ := List.mem_iff_getElem?.mp member
  have owns : timer.owns = true := exclusive.placed timer (List.mem_of_getElem? here) (by rw [place]; rfl)
  have same := exclusive.balanced.unique there here turn.1 owns
  rw [same, here, Option.some.injEq] at there
  exact absurd (there ▸ slot).symm other

theorem effectKeeps {world : World} {proc : Nat} {timer timer' : Timer} {move : Act} {state' : SharedState}
    (exclusive : Exclusive world) (here : world.timers[proc]? = some timer)
    (effect : Effect world.state timer move state' timer')
    (trips : ∀ next left, timer.pc = .between → timer'.pc = .posting next left →
      ∀ i ∈ running state', Q state'.currTime (state'.procs i).nextTime) :
    KeepsSlots Q world.state timer state' timer' := by
  have idle : 0 < world.state.evtMutex → ¬ Turn timer := fun free turn =>
    absurd (exclusive.unowned here free) (by simp [turn.1])
  have same : ∀ {pc : Pc}, settled pc = false → KeepsSlots Q world.state timer world.state (timer.at pc) :=
    fun away => keepsSame rfl (fun _ => ⟨rfl,rfl,rfl⟩) rfl fun turn => ⟨⟨turn.1,away⟩,rfl⟩
  have rest : ∀ {timer' : Timer} {state' : SharedState}, settled timer.pc = true → state'.numProcs = world.state.numProcs →
      state'.currTime = world.state.currTime →
      (∀ i, (state'.procs i).pid = (world.state.procs i).pid ∧ (state'.procs i).active = (world.state.procs i).active ∧
        (state'.procs i).nextTime = (world.state.procs i).nextTime) → KeepsSlots Q world.state timer state' timer' :=
    fun done numProcs time procs => keepsSame numProcs procs time fun turn => absurd done (by simp [turn.2])
  cases effect with
  | stay => exact keepsSame rfl (fun _ => ⟨rfl,rfl,rfl⟩) rfl fun turn => ⟨turn,rfl⟩
  | opening place => exact same rfl
  | locking place sized => exact same rfl
  | founding place fresh =>
    intro i runs
    simp [memRunning,initFile] at runs
  | faulting place untouched grows founded =>
    refine keepsSame untouched.numProcs (fun i => ?_) untouched.currTime fun turn => ⟨⟨turn.1,rfl⟩,rfl⟩
    rw [untouched.procs]
    exact ⟨rfl,rfl,rfl⟩
  | interrupted place => exact same rfl
  | joining place free =>
    intro i runs
    rw [memRunning, writeProcs] at runs
    by_cases mine : i = world.state.numProcs
    · exact .inr (.inl ⟨⟨rfl,rfl⟩,mine.symm⟩)
    · rw [if_neg mine] at runs
      have before : i < world.state.numProcs := Nat.lt_of_le_of_ne (Nat.le_of_lt_succ runs.1) mine
      refine .inr (.inr ⟨memRunning.mpr ⟨before,runs.2⟩,?_,rfl,fun turn => absurd turn (idle free)⟩)
      rw [writeProcs, if_neg mine]
  | selecting place => exact same rfl
  | unflagged place down => exact same rfl
  | nobodyRuns place none =>
    intro i runs
    rw [none] at runs
    cases runs
  | advancing place awake found honest => exact fun i runs => .inl (trips _ _ place rfl i runs)
  | frozen place awake stolen => exact fun i runs => .inl (trips _ _ place rfl i runs)
  | token place => exact rest (by rw [place]; rfl) rfl rfl fun _ => ⟨rfl,rfl,rfl⟩
  | released place => exact rest (by rw [place]; rfl) rfl rfl (writeSame fun _ => ⟨rfl,rfl,rfl⟩)
  | yielded place => exact rest (by rw [place]; rfl) rfl rfl fun _ => ⟨rfl,rfl,rfl⟩
  | lastToken place => exact rest (by rw [place]; rfl) rfl rfl fun _ => ⟨rfl,rfl,rfl⟩
  | lastRelease place => exact rest (by rw [place]; rfl) rfl rfl (writeSame fun _ => ⟨rfl,rfl,rfl⟩)
  | relocked place free => exact keepsSame rfl (fun _ => ⟨rfl,rfl,rfl⟩) rfl fun _ => ⟨⟨rfl,rfl⟩,rfl⟩
  | passing place free => exact same rfl
  | mistimed place free other => exact keepsSame rfl (fun _ => ⟨rfl,rfl,rfl⟩) rfl fun _ => ⟨⟨rfl,rfl⟩,rfl⟩
  | early place free later => exact keepsSame rfl (fun _ => ⟨rfl,rfl,rfl⟩) rfl fun turn => absurd turn (idle free)
  | entering place free due =>
    intro i runs
    by_cases mine : i = timer.slot
    · exact .inr (.inl ⟨⟨rfl,rfl⟩,mine.symm⟩)
    · rw [memRunning, writeProcs, if_neg mine] at runs
      refine .inr (.inr ⟨memRunning.mpr runs,?_,rfl,fun turn => absurd turn (idle free)⟩)
      rw [writeProcs, if_neg mine]
  | awoken place => exact same rfl
  | stolenAwake place => exact same rfl
  | pausing place plain taken =>
    exact keepsSame rfl (fun _ => ⟨rfl,rfl,rfl⟩) rfl fun turn => ⟨turn,rfl⟩
  | setting place => exact keepsSame rfl (fun _ => ⟨rfl,rfl,rfl⟩) rfl fun turn => ⟨turn,rfl⟩
  | adding place => exact keepsSame rfl (fun _ => ⟨rfl,rfl,rfl⟩) rfl fun turn => ⟨turn,rfl⟩
  | departing place up honest =>
    refine keepsCleared rfl ?_ (fun i other => ?_) rfl
    · simp [vacated,writeProcs]
    · simp [vacated,writeProcs,other]
  | dropping place down =>
    refine keepsCleared rfl ?_ (fun i other => ?_) rfl
    · simp [vacated,writeProcs]
    · simp [vacated,writeProcs,other]
  | closing place =>
    refine keepsCleared rfl ?_ (fun i other => ?_) rfl
    · simp [writeProcs]
    · simp [writeProcs,other]
  | crashing => exact same rfl

end LibProc.GlobalTurns
