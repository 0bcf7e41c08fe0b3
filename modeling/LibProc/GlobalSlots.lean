import LibProc.GlobalTurns

/-! What the slot of a process says of it, in runs without time stealing: the time a waiting
process asked for, that a process with its turn counts as running, and that it is the process's
own slot. No process fails an assertion in such a run. -/
namespace LibProc.GlobalSlots
open GlobalTimer GlobalMutex GlobalEffects GlobalTurns Runs

def asked : Pc → Option Timeval
  | .posting next _ => some next
  | .atBarrier next => some next
  | .through next => some next
  | .yielding next => some next
  | _ => none

def hasTurn : Pc → Bool
  | .between => true
  | .selecting => true
  | _ => false

def seated (pc : Pc) : Bool := hasTurn pc || (asked pc).isSome

def plain : Event → Bool
  | .start pid mode => 0 < pid && mode = .active
  | .act _ (.setPause mode) => mode = .active
  | _ => true

structure Seated (state : SharedState) (timer : Timer) : Prop where
  pid : seated timer.pc = true → 0 < (state.procs timer.slot).pid
  next : ∀ next ∈ asked timer.pc, (state.procs timer.slot).nextTime = next
  active : hasTurn timer.pc = true → (state.procs timer.slot).active = true

structure Slots (world : World) : Prop where
  exclusive : Exclusive world
  coherent : AllCoherent world
  honest : world.state.timeThief = 0
  named : ∀ timer ∈ world.timers, 0 < timer.pid
  each : ∀ timer ∈ world.timers, Seated world.state timer
  sole : Kept (fun _ _ => False) world

theorem seatedJoined {pc : Pc} (is : seated pc = true) : joined pc = true := by
  cases pc <;> first | rfl | cases is

theorem askedSeated {pc : Pc} {next : Timeval} (is : next ∈ asked pc) : seated pc = true := by
  simp [seated,Option.isSome_of_mem is]

theorem turnSeated {pc : Pc} (is : hasTurn pc = true) : seated pc = true := by
  simp [seated,is]

theorem turnOwning {pc : Pc} (is : hasTurn pc = true) : owning pc = true := by
  cases pc <;> first | rfl | cases is

theorem owningJoined {pc : Pc} (is : owning pc = true) : joined pc = true := by
  cases pc <;> first | rfl | cases is

section
variable {state state' : SharedState} {timer timer' : Timer} {move : Act}

theorem effectFrame (effect : Effect state timer move state' timer') {i : Nat} (inside : i < state.numProcs)
    (other : joined timer.pc = true → i ≠ timer.slot) :
    (state'.procs i).pid = (state.procs i).pid ∧ (state'.procs i).nextTime = (state.procs i).nextTime ∧
      ((state'.procs i).active = (state.procs i).active ∨ timer.pc = .between) := by
  cases effect with
  | faulting place untouched grows founded =>
    rw [untouched.procs]
    exact ⟨rfl,rfl,.inl rfl⟩
  | joining place free =>
    rw [writeProcs, if_neg (Nat.ne_of_lt inside)]
    exact ⟨rfl,rfl,.inl rfl⟩
  | nobodyRuns place none =>
    rw [postedOther _ (other (by rw [place]; rfl))]
    exact ⟨rfl,rfl,.inl rfl⟩
  | advancing place awake found honest =>
    rw [markedPid, markedNext, postedOther _ (other (by rw [place]; rfl))]
    exact ⟨rfl,rfl,.inr place⟩
  | frozen place awake stolen =>
    rw [postedOther _ (other (by rw [place]; rfl))]
    exact ⟨rfl,rfl,.inl rfl⟩
  | released place =>
    rw [writeProcs, if_neg (other (by rw [place]; rfl))]
    exact ⟨rfl,rfl,.inl rfl⟩
  | lastRelease place =>
    rw [writeProcs, if_neg (other (by rw [place]; rfl))]
    exact ⟨rfl,rfl,.inl rfl⟩
  | entering place free due =>
    rw [writeProcs, if_neg (other (by rw [place]; rfl))]
    exact ⟨rfl,rfl,.inl rfl⟩
  | departing place up honest =>
    rw [vacated, writeProcs, if_neg (other (by rw [place]; rfl))]
    exact ⟨rfl,rfl,.inl rfl⟩
  | dropping place down =>
    rw [vacated, writeProcs, if_neg (other (by rw [place]; rfl))]
    exact ⟨rfl,rfl,.inl rfl⟩
  | closing place =>
    have apart := other (by rw [place]; rfl)
    simp [writeProcs,apart]
  | _ => exact ⟨rfl,rfl,.inl rfl⟩

theorem Seated.away (out : seated timer.pc = false) : Seated state timer := by
  refine ⟨fun is => ?_,fun next is => ?_,fun is => ?_⟩
  · rw [out] at is
    cases is
  · rw [askedSeated is] at out
    cases out
  · rw [turnSeated is] at out
    cases out

theorem Seated.stays (good : Seated state timer) (slot : timer'.slot = timer.slot)
    (pid : (state'.procs timer.slot).pid = (state.procs timer.slot).pid)
    (time : (state'.procs timer.slot).nextTime = (state.procs timer.slot).nextTime)
    (active : (state'.procs timer.slot).active = (state.procs timer.slot).active)
    (seat : seated timer'.pc = true → seated timer.pc = true) (asks : ∀ next ∈ asked timer'.pc, next ∈ asked timer.pc)
    (turn : hasTurn timer'.pc = true → hasTurn timer.pc = true) : Seated state' timer' := by
  refine ⟨fun is => ?_,fun next is => ?_,fun is => ?_⟩
  · rw [slot, pid]
    exact good.pid (seat is)
  · rw [slot, time]
    exact good.next next (asks next is)
  · rw [slot, active]
    exact good.active (turn is)

end

theorem Slots.itself {world : World} (inv : Slots world) {timer : Timer} (member : timer ∈ world.timers)
    (place : timer.pc = .between) : timer.slot ∈ running world.state := by
  have turn : hasTurn timer.pc = true := by rw [place]; rfl
  have seat := inv.each timer member
  rw [memRunning]
  exact ⟨((inv.coherent.each timer member).inside (seatedJoined (turnSeated turn))).2,seat.pid (turnSeated turn),
    seat.active turn⟩

/- It is the only one: the end of a trip finds no slot running but that of the process itself, and
marks it, whatever time it asks for. -/
theorem Slots.alone {world : World} (inv : Slots world) {proc : Nat} {timer : Timer}
    (here : world.timers[proc]? = some timer) (place : timer.pc = .between) {i : Nat}
    (runs : i ∈ running world.state) : i = timer.slot := by
  by_contra other
  exact inv.sole.others inv.exclusive here place runs other

theorem Slots.chosen {world : World} (inv : Slots world) {proc : Nat} {timer : Timer} {next : Timeval} {least : Nat}
    (here : world.timers[proc]? = some timer) (place : timer.pc = .between)
    (found : smallest (posted world.state timer next) = some least) : least = timer.slot :=
  inv.alone here place (postedRunning next ▸ smallestRuns found)

theorem Slots.advanced {world : World} (inv : Slots world) {proc : Nat} {timer : Timer} {next : Timeval} {least : Nat}
    (here : world.timers[proc]? = some timer) (place : timer.pc = .between)
    (found : smallest (posted world.state timer next) = some least) :
    (marked (posted world.state timer next) least).currTime = next := by
  rw [inv.chosen here place found]
  exact postedSelf next

theorem effectSole {world : World} {proc : Nat} {timer timer' : Timer} {move : Act} {state' : SharedState}
    (inv : Slots world) (here : world.timers[proc]? = some timer)
    (effect : Effect world.state timer move state' timer') :
    Kept (fun _ _ => False) { state := state', timers := world.timers.set proc timer' } := by
  refine (effectKeeps inv.exclusive here effect ?_).kept inv.sole here
  intro next left place posting i runs
  obtain ⟨rfl,awake,⟨least,found,rfl⟩ | ⟨stolen,rfl⟩⟩ := tripEnds effect place posting
  · obtain ⟨was,other⟩ := memMarked.mp runs
    rw [postedRunning] at was
    rw [inv.chosen here place found] at other
    exact other (inv.alone here place was)
  · exact stolen inv.honest

theorem effectSeated {world : World} {proc : Nat} {timer timer' : Timer} {move : Act} {state' : SharedState}
    (inv : Slots world) (here : world.timers[proc]? = some timer)
    (effect : Effect world.state timer move state' timer') : Seated state' timer' := by
  have member := List.mem_of_getElem? here
  have good := inv.each timer member
  have unstolen := (inv.coherent.each timer member).honest
  cases effect with
  | stay => exact good
  | joining place free =>
    refine ⟨fun _ => ?_,by simp [asked],fun _ => ?_⟩
    · rw [writeProcs, if_pos rfl]
      exact inv.named timer member
    · rw [writeProcs, if_pos rfl]
  | selecting place =>
    exact good.stays rfl rfl rfl rfl (by simp [place,seated,hasTurn]) (by simp [Timer.at,asked])
      (by simp [place,hasTurn])
  | advancing place awake found honest =>
    refine ⟨fun _ => ?_,fun next is => ?_,by simp [Timer.at,hasTurn]⟩
    · rw [Timer.at, markedPid, postedPid]
      exact good.pid (by rw [place]; rfl)
    · rw [Timer.at, markedNext, postedSelf]
      exact Option.some.inj is
  | frozen place awake stolen => exact absurd inv.honest stolen
  | token place =>
    exact good.stays rfl rfl rfl rfl (by simp [place,seated,asked]) (by simp [place,Timer.at,asked])
      (by simp [Timer.at,hasTurn])
  | released place =>
    have honest : isThief world.state timer = false := by simp [isThief,inv.honest]
    simp only [honest]
    refine good.stays rfl ?_ ?_ ?_ (by simp [place,seated,asked]) (by simp [place,asked]) (by simp [hasTurn])
    · simp [writeProcs]
    · simp [writeProcs]
    · simp [writeProcs]
  | yielded place =>
    exact good.stays rfl rfl rfl rfl (by simp [place,seated,asked]) (by simp [place,asked]) (by simp [hasTurn])
  | relocked place free => exact absurd place unstolen.2.1
  | passing place free =>
    exact good.stays rfl rfl rfl rfl (by simp [place,seated,asked]) (by simp [place,Timer.at,asked])
      (by simp [Timer.at,hasTurn])
  | early place free later =>
    exact good.stays rfl rfl rfl rfl (by simp [place,seated,asked]) (by simp [place,asked]) (by simp [hasTurn])
  | entering place free due =>
    refine ⟨fun _ => ?_,by simp [asked],fun _ => ?_⟩
    · rw [writeProcs, if_pos rfl]
      exact good.pid (by rw [place]; rfl)
    · rw [writeProcs, if_pos rfl]
  | awoken place =>
    exact good.stays rfl rfl rfl rfl (by simp [place,seated,hasTurn]) (by simp [Timer.at,asked])
      (by simp [place,hasTurn])
  | pausing place plain taken => exact good.stays rfl rfl rfl rfl id (fun _ => id) id
  | setting place => exact good.stays rfl rfl rfl rfl id (fun _ => id) id
  | adding place => exact good.stays rfl rfl rfl rfl id (fun _ => id) id
  | opening | locking | founding | faulting | interrupted | unflagged | nobodyRuns | lastToken | lastRelease
  | mistimed | stolenAwake | departing | dropping | closing | crashing => exact .away rfl

theorem otherSeated {world : World} {proc i : Nat} {timer timer' other : Timer} {move : Act} {state' : SharedState}
    (inv : Slots world) (here : world.timers[proc]? = some timer) (there : world.timers[i]? = some other)
    (apart : i ≠ proc) (effect : Effect world.state timer move state' timer') : Seated state' other := by
  have member := List.mem_of_getElem? there
  have good := inv.each other member
  cases seat : seated other.pc with
  | false => exact .away seat
  | true =>
    have place := seatedJoined seat
    obtain ⟨pid,time,active⟩ := effectFrame effect ((inv.coherent.each other member).inside place).2
      fun mine same => apart (inv.coherent.apart i proc other timer there here place mine same)
    refine ⟨fun _ => ?_,fun next is => ?_,fun is => ?_⟩
    · rw [pid]
      exact good.pid seat
    · rw [time]
      exact good.next next is
    · rcases active with same | turn
      · rw [same]
        exact good.active is
      · have owns := inv.exclusive.placed other member (turnOwning is)
        have mine := inv.exclusive.placed timer (List.mem_of_getElem? here) (by rw [turn]; rfl)
        exact absurd (inv.exclusive.balanced.unique there here owns mine) apart

theorem effectAsks {state state' : SharedState} {timer timer' : Timer} {move : Act}
    (effect : Effect state timer move state' timer') :
    (state'.currTime = state.currTime ∧ ∀ next ∈ asked timer'.pc, next ∈ asked timer.pc) ∨
      (state.sized = false ∧ asked timer'.pc = none) ∨
      ∃ next left, timer.pc = .between ∧ timer'.pc = .posting next left := by
  cases effect with
  | founding place fresh => exact .inr (.inl ⟨fresh,rfl⟩)
  | faulting place untouched grows founded => exact .inl ⟨untouched.currTime,by simp [Timer.at,asked]⟩
  | advancing place awake found honest => exact .inr (.inr ⟨_,_,place,rfl⟩)
  | frozen place awake stolen => exact .inr (.inr ⟨_,_,place,rfl⟩)
  | stay | pausing | setting | adding => exact .inl ⟨rfl,fun _ => id⟩
  | token place | passing place => exact .inl ⟨rfl,by simp [place,Timer.at,asked]⟩
  | yielded place | early place => exact .inl ⟨rfl,by simp [place,asked]⟩
  | released place =>
    refine .inl ⟨rfl,?_⟩
    rw [place]
    split
    · simp [asked]
    · simp [asked]
  | opening | locking | interrupted | joining | selecting | unflagged | nobodyRuns | lastToken | lastRelease
  | relocked | mistimed | entering | awoken | stolenAwake | departing | dropping | closing | crashing =>
    exact .inl ⟨rfl,by simp [Timer.at,asked]⟩

theorem Slots.askedKeep {R : Timeval → Timeval → Prop} {world : World} {proc : Nat} {timer timer' : Timer} {move : Act}
    {state' : SharedState} (inv : Slots world) (here : world.timers[proc]? = some timer)
    (effect : Effect world.state timer move state' timer') (self : ∀ time, R time time)
    (all : ∀ other ∈ world.timers, ∀ next ∈ asked other.pc, R world.state.currTime next)
    (ends : ∀ asks, move = .block (some asks) false → timer.pc = .between →
      timer.paused = .active ∨ timer.paused = .stolen → ∀ other ∈ world.timers, ∀ next ∈ asked other.pc, R asks next) :
    ∀ other ∈ world.timers.set proc timer', ∀ next ∈ asked other.pc, R state'.currTime next := by
  intro other member next is
  rcases effectAsks effect with ⟨time,mine⟩ | ⟨fresh,none⟩ | ⟨asks,left,place,posting⟩
  · rw [time]
    rcases memSet member with rfl | ⟨i,apart,there⟩
    · exact all timer (List.mem_of_getElem? here) next (mine next is)
    · exact all other (List.mem_of_getElem? there) next is
  · rcases memSet member with rfl | ⟨i,apart,there⟩
    · rw [none] at is
      cases is
    · have inside := (inv.coherent.each other (List.mem_of_getElem? there)).inside (seatedJoined (askedSeated is))
      rw [fresh] at inside
      cases inside.1
  · obtain ⟨moved,awake,⟨least,found,rfl⟩ | ⟨stolen,rfl⟩⟩ := tripEnds effect place posting
    · rw [inv.advanced here place found]
      rcases memSet member with rfl | ⟨i,apart,there⟩
      · rw [posting] at is
        cases is
        exact self next
      · exact ends asks moved place awake other (List.mem_of_getElem? there) next is
    · exact absurd inv.honest stolen

theorem Slots.thiefFree {world : World} (inv : Slots world) (event : Event) : thiefFree world event = true := by
  unfold GlobalMutex.thiefFree
  split
  · rename_i proc
    cases world.timers[proc]? with
    | none => rfl
    | some timer =>
      dsimp only [Option.elim]
      split
      · simp [isThief,inv.honest]
      · rfl
  · rfl

theorem effectHonest {state state' : SharedState} {timer timer' : Timer} {proc : Nat} {move : Act}
    (effect : Effect state timer move state' timer') (free : plain (.act proc move) = true)
    (honest : state.timeThief = 0) : state'.timeThief = 0 ∧ timer'.pid = timer.pid := by
  cases effect with
  | pausing place unstolen taken =>
    have mode := of_decide_eq_true free
    rcases unstolen (by rw [mode]; simp) with same | none
    · exact ⟨same.trans honest,rfl⟩
    · exact ⟨none,rfl⟩
  | faulting place untouched grows founded => exact ⟨untouched.timeThief.trans honest,rfl⟩
  | departing place up cleared => exact ⟨cleared honest,rfl⟩
  | _ => exact ⟨honest,rfl⟩

theorem slotsStart : Slots nobody :=
  ⟨exclusiveStart,allCoherentStart,rfl,fun _ member => absurd member List.not_mem_nil,
    fun _ member => absurd member List.not_mem_nil,keptStart⟩

theorem slotsStep (world : World) (event : Event) (inv : Slots world) (free : plain event = true) :
    Slots (step world event) := by
  refine @stepKeeps Slots (fun _ event => plain event = true) (fun world pid mode inv free => ?_)
    (fun world proc timer move state' timer' inv here free effect is => ?_) world event inv free
  · have exclusive := exclusiveStep world (.start pid mode) inv.exclusive
    have coherent := allCoherentStep world (.start pid mode) inv.coherent (inv.thiefFree _)
    have positive : 0 < pid := of_decide_eq_true (Bool.and_eq_true _ _ ▸ free).1
    refine ⟨exclusive,coherent,inv.honest,fun timer member => ?_,fun timer member => ?_,inv.sole.arrives pid mode⟩
    · rcases List.mem_append.mp member with old | new
      · exact inv.named timer old
      · rw [List.mem_singleton.mp new]
        exact positive
    · rcases List.mem_append.mp member with old | new
      · exact inv.each timer old
      · rw [List.mem_singleton.mp new]
        exact .away rfl
  · have exclusive := exclusiveStep world (.act proc move) inv.exclusive
    have coherent := allCoherentStep world (.act proc move) inv.coherent (inv.thiefFree _)
    rw [is] at exclusive coherent
    obtain ⟨honest,pid⟩ := effectHonest effect free inv.honest
    refine ⟨exclusive,coherent,honest,fun other member => ?_,fun other member => ?_,effectSole inv here effect⟩
    · rcases memSet member with rfl | ⟨i,apart,there⟩
      · rw [pid]
        exact inv.named timer (List.mem_of_getElem? here)
      · exact inv.named other (List.mem_of_getElem? there)
    · rcases memSet member with rfl | ⟨i,apart,there⟩
      · exact effectSeated inv here effect
      · exact otherSeated inv here there apart effect

end LibProc.GlobalSlots
