import LibProc.GlobalSlots

/-! The tokens of the barrier. The end of a trip posts one for each running slot, which is its own
process alone; a process that is not due spends one and waits for another. Somebody can go on as
long as a process has its turn, or one that is due has a token. -/
namespace LibProc.GlobalBarrier
open GlobalTimer GlobalMutex GlobalEffects GlobalTurns GlobalSlots Runs Semaphore

def toPost : Pc → Nat
  | .posting _ left => left
  | .leaving left _ => left
  | _ => 0

def tokens (world : World) : Nat := Semaphore.tokens (fun timer => toPost timer.pc) world.state.barrier world.timers

def someTurn (world : World) : Bool := world.timers.any fun timer => hasTurn timer.pc

def nobodyWaits (world : World) : Bool := world.timers.all fun timer => (asked timer.pc).isNone

def due (currTime : Timeval) (pc : Pc) : Bool := (asked pc).any (· ≤ currTime)

def someDue (world : World) : Bool := world.timers.any fun timer => due world.state.currTime timer.pc

def ready (currTime : Timeval) : Pc → Bool
  | .through next => next ≤ currTime
  | _ => false

def someReady (world : World) : Bool := world.timers.any fun timer => ready world.state.currTime timer.pc

def served (world : World) : Bool := someReady world || someDue world && 0 < tokens world

/- A process that is not due takes the last token only if no due one needs it; a process leaves
only if it leaves nobody behind, or one that is due and can go on. -/
def spares (world : World) : Event → Bool
  | .act proc .wait =>
    (world.timers[proc]?).all fun timer =>
      match timer.pc with
      | .atBarrier next => next ≤ world.state.currTime || tokens world ≠ 1 || someTurn world || someReady world
      | _ => true
  | .act proc .cleanup =>
    (world.timers[proc]?).all fun timer => timer.pc ≠ .between || nobodyWaits world || served world
  | _ => true

/- Nobody pauses, steals time or crashes. -/
def unbroken : Event → Bool
  | .act _ .crash => false
  | event => plain event

def Lively (world : World) : Prop := someTurn world = true ∨ served world = true ∨ nobodyWaits world = true

structure Goes (world : World) : Prop where
  slots : Slots world
  owned : ∀ timer ∈ world.timers, timer.owns = true → owning timer.pc = true
  held : world.state.evtMutex = 0 → (∃ timer ∈ world.timers, joined timer.pc = true) →
    ∃ timer ∈ world.timers, timer.owns = true
  file : world.state.locked = true → ∃ timer ∈ world.timers, timer.pc = .mapped
  lively : Lively world

theorem goesStart : Goes nobody :=
  { slots := slotsStart
    owned := fun _ member => absurd member List.not_mem_nil
    held := fun _ some => by simp [nobody] at some
    file := fun locked => by cases locked
    lively := .inr (.inr rfl) }

theorem unbrokenPlain {event : Event} (whole : unbroken event = true) : plain event = true := by
  unfold unbroken at whole
  split at whole
  · cases whole
  · exact whole

section
variable {world : World} {proc : Nat} {timer timer' : Timer} {move : Act} {state' : SharedState}

theorem flagUp (inv : Slots world) (member : timer ∈ world.timers) (place : timer.pc = .between) :
    (world.state.procs timer.slot).holdsMutex = true :=
  (inv.coherent.each timer member).flag (by rw [place]; rfl)

theorem someRuns (inv : Slots world) (member : timer ∈ world.timers) (place : timer.pc = .between) (next : Timeval) :
    running (posted world.state timer next) ≠ [] := by
  rw [postedRunning]
  exact List.ne_nil_of_mem (inv.itself member place)

theorem rightTime (inv : Slots world) (member : timer ∈ world.timers) {next : Timeval} (place : timer.pc = .through next) :
    (world.state.procs timer.slot).nextTime = next :=
  (inv.each timer member).next next (by rw [place]; rfl)

theorem effectOwned (inv : Slots world) (here : world.timers[proc]? = some timer)
    (whole : unbroken (.act proc move) = true) (effect : Effect world.state timer move state' timer')
    (owned : timer.owns = true → owning timer.pc = true) : timer'.owns = true → owning timer'.pc = true := by
  have member := List.mem_of_getElem? here
  have free : ∀ {pc : Pc}, owning timer.pc = false → timer.owns = true → owning pc = true := by
    intro pc away own
    rw [owned own] at away
    cases away
  cases effect with
  | stay | pausing | setting | adding => exact owned
  | opening place | faulting place | interrupted place | locking place | founding place | passing place
  | stolenAwake place | closing place =>
    exact free (by rw [place]; rfl)
  | joining | selecting | advancing | frozen | token | lastToken | relocked | early | entering | awoken | departing =>
    exact fun _ => rfl
  | released | yielded | lastRelease => exact fun own => by cases own
  | unflagged place down =>
    rw [flagUp inv member place] at down
    cases down
  | nobodyRuns place none => exact absurd none (someRuns inv member place _)
  | mistimed place free other => exact absurd (rightTime inv member place) other
  | dropping place down =>
    rw [flagUp inv member place] at down
    cases down
  | crashing => cases whole

theorem effectHeld (inv : Goes world) (here : world.timers[proc]? = some timer)
    (effect : Effect world.state timer move state' timer') (taken : state'.evtMutex = 0)
    (among : ∃ other ∈ world.timers.set proc timer', joined other.pc = true) :
    ∃ other ∈ world.timers.set proc timer', other.owns = true := by
  have kept : world.state.evtMutex = 0 → timer'.owns = timer.owns → (joined timer'.pc = true → joined timer.pc = true) →
      ∃ other ∈ world.timers.set proc timer', other.owns = true := by
    intro was same seat
    have before : ∃ other ∈ world.timers, joined other.pc = true := by
      obtain ⟨other,member,place⟩ := among
      rcases memSet member with rfl | ⟨i,apart,there⟩
      · exact ⟨timer,List.mem_of_getElem? here,seat place⟩
      · exact ⟨other,List.mem_of_getElem? there,place⟩
    have some : world.timers.any Timer.owns = true := List.any_eq_true.mpr (inv.held was before)
    exact List.any_eq_true.mp (anyMoves some here fun own => same.trans own)
  cases effect with
  | stay | pausing | setting | adding => exact kept taken rfl id
  | opening | locking | interrupted | unflagged | nobodyRuns | dropping | closing | crashing =>
    exact kept taken rfl fun is => by cases is
  | founding => cases taken
  | faulting place untouched grows founded =>
    obtain ⟨other,member,seat⟩ := among
    rcases memSet member with rfl | ⟨i,apart,there⟩
    · cases seat
    · have sized := ((inv.slots.coherent.each other (List.mem_of_getElem? there)).inside seat).1
      exact kept ((grows sized).2 ▸ taken) rfl fun is => by cases is
  | joining | relocked | mistimed | early | entering => exact ⟨_,itselfMoves here,rfl⟩
  | selecting place | advancing place | frozen place | token place | lastToken place | passing place | awoken place
  | stolenAwake place | departing place => exact kept taken rfl fun _ => by rw [place]; rfl
  | released | yielded | lastRelease => cases taken

theorem effectFile (inv : Goes world) (here : world.timers[proc]? = some timer)
    (whole : unbroken (.act proc move) = true) (effect : Effect world.state timer move state' timer')
    (locked : state'.locked = true) : ∃ other ∈ world.timers.set proc timer', other.pc = .mapped := by
  have kept : world.state.locked = true → timer.pc ≠ .mapped ∨ timer' = timer →
      ∃ other ∈ world.timers.set proc timer', other.pc = .mapped := by
    intro was elsewhere
    obtain ⟨other,member,place⟩ := inv.file was
    obtain ⟨i,there⟩ := List.mem_iff_getElem?.mp member
    by_cases same : i = proc
    · rw [same, here, Option.some.injEq] at there
      rw [← there] at place
      rcases elsewhere with not | rfl
      · exact absurd place not
      · exact ⟨_,itselfMoves here,place⟩
    · exact ⟨other,otherStays there same,place⟩
  cases effect with
  | stay => exact kept locked (.inr rfl)
  | locking | founding => exact ⟨_,itselfMoves here,rfl⟩
  | faulting place untouched grows founded => exact kept (untouched.locked ▸ locked) (.inl (by simp [place]))
  | interrupted | joining => cases locked
  | crashing => cases whole
  | opening place | selecting place | unflagged place | nobodyRuns place | advancing place | frozen place | token place
  | released place | yielded place | lastToken place | lastRelease place | relocked place | passing place
  | mistimed place | early place | entering place | awoken place | stolenAwake place | pausing place | setting place
  | adding place | departing place | dropping place | closing place =>
    exact kept locked (.inl (by simp [place]))

theorem tokensStep (here : world.timers[proc]? = some timer) :
    tokens { state := state', timers := world.timers.set proc timer' } + (world.state.barrier + toPost timer.pc) =
      tokens world + (state'.barrier + toPost timer'.pc) :=
  tokensMove here

theorem servedKeeps (here : world.timers[proc]? = some timer) (time : state'.currTime = world.state.currTime)
    (posts : world.state.barrier + toPost timer.pc ≤ state'.barrier + toPost timer'.pc)
    (has : ready world.state.currTime timer.pc = true → ready world.state.currTime timer'.pc = true)
    (is : due world.state.currTime timer.pc = true → due world.state.currTime timer'.pc = true)
    (serves : served world = true) : served { state := state', timers := world.timers.set proc timer' } = true := by
  have count := @tokensStep world proc timer timer' state' here
  rw [served, Bool.or_eq_true, Bool.and_eq_true, decide_eq_true_eq] at *
  rcases serves with through | ⟨waits,positive⟩
  · refine .inl ?_
    rw [someReady, time]
    exact anyMoves through here has
  · refine .inr ⟨?_,by omega⟩
    rw [someDue, time]
    exact anyMoves waits here is

theorem livelyKeeps (inv : Lively world) (here : world.timers[proc]? = some timer)
    (time : state'.currTime = world.state.currTime)
    (posts : world.state.barrier + toPost timer.pc ≤ state'.barrier + toPost timer'.pc)
    (turn : hasTurn timer.pc = true → hasTurn timer'.pc = true)
    (has : ready world.state.currTime timer.pc = true → ready world.state.currTime timer'.pc = true)
    (is : due world.state.currTime timer.pc = true → due world.state.currTime timer'.pc = true)
    (quiet : asked timer.pc = none → asked timer'.pc = none) :
    Lively { state := state', timers := world.timers.set proc timer' } := by
  rcases inv with goes | serves | nobody
  · exact .inl (anyMoves goes here turn)
  · exact .inr (.inl (servedKeeps here time posts has is serves))
  · refine .inr (.inr (allMoves nobody ?_))
    have none := List.all_eq_true.mp nobody timer (List.mem_of_getElem? here)
    rw [Option.isNone_iff_eq_none] at none ⊢
    exact quiet none

theorem passingLively (inv : Lively world) (here : world.timers[proc]? = some timer) {next : Timeval}
    (place : timer.pc = .atBarrier next) (time : state'.currTime = world.state.currTime)
    (fewer : state'.barrier + 1 = world.state.barrier) (spare : spares world (.act proc .wait) = true) :
    Lively { state := state', timers := world.timers.set proc (timer.at (.through next)) } := by
  have goes : someTurn world = true →
      Lively { state := state', timers := world.timers.set proc (timer.at (.through next)) } :=
    fun goes => .inl (anyMoves goes here (by simp [place,hasTurn]))
  have served : someReady { state := state', timers := world.timers.set proc (timer.at (.through next)) } = true →
      Lively { state := state', timers := world.timers.set proc (timer.at (.through next)) } :=
    fun serves => .inr (.inl (by rw [served, serves]; rfl))
  have through : someReady world = true →
      Lively { state := state', timers := world.timers.set proc (timer.at (.through next)) } := by
    intro serves
    refine served ?_
    rw [someReady, time]
    exact anyMoves serves here (by simp [place,ready])
  by_cases late : next ≤ world.state.currTime
  · refine served ?_
    rw [someReady, time]
    exact anyMoved here (by simpa [ready,Timer.at] using late)
  have others : tokens world ≠ 1 ∨ someTurn world = true ∨ someReady world = true := by
    simpa [spares,here,place,late,or_assoc] using spare
  rcases others with more | turn | serves
  · rcases inv with turn | serves | nobody
    · exact goes turn
    · rw [GlobalBarrier.served, Bool.or_eq_true, Bool.and_eq_true, decide_eq_true_eq] at serves
      rcases serves with serves | ⟨waits,positive⟩
      · exact through serves
      · have count := @tokensStep world proc timer (timer.at (.through next)) state' here
        have before : toPost timer.pc = 0 := by rw [place]; rfl
        have after : toPost (timer.at (.through next)).pc = 0 := rfl
        refine .inr (.inl ?_)
        rw [GlobalBarrier.served, Bool.or_eq_true, Bool.and_eq_true, decide_eq_true_eq]
        refine .inr ⟨?_,by omega⟩
        rw [someDue, time]
        exact anyMoves waits here (by simp [place,due,asked,Timer.at])
    · have none := List.all_eq_true.mp nobody timer (List.mem_of_getElem? here)
      rw [place] at none
      cases none
  · exact goes turn
  · exact through serves

theorem effectLively (inv : Goes world) (here : world.timers[proc]? = some timer)
    (whole : unbroken (.act proc move) = true) (spare : spares world (.act proc move) = true)
    (effect : Effect world.state timer move state' timer') :
    Lively { state := state', timers := world.timers.set proc timer' } := by
  have member := List.mem_of_getElem? here
  cases effect with
  | stay | pausing | setting | adding => exact livelyKeeps inv.lively here rfl le_rfl id id id id
  | opening place | locking place | interrupted place | closing place | stolenAwake place =>
    exact livelyKeeps inv.lively here rfl (by simp [place,toPost,SharedState.write]) (by simp [place,hasTurn]) (by simp [place,ready])
      (by simp [place,due,asked]) fun _ => rfl
  | founding place fresh =>
    refine .inr (.inr (allMoves (List.all_eq_true.mpr fun other among => ?_) rfl))
    cases asks : asked other.pc with
    | none => rfl
    | some next =>
      have inside := (inv.slots.coherent.each other among).inside (seatedJoined (askedSeated asks))
      rw [fresh] at inside
      cases inside.1
  | faulting place untouched grows founded =>
    exact livelyKeeps inv.lively here untouched.currTime (by simp [place,toPost,untouched.barrier]) (by simp [place,hasTurn]) (by simp [place,ready])
      (by simp [place,due,asked]) fun _ => rfl
  | joining | relocked | entering => exact .inl (anyMoved here rfl)
  | selecting | awoken => exact .inl (anyMoved here rfl)
  | unflagged place down =>
    rw [flagUp inv.slots member place] at down
    cases down
  | nobodyRuns place none => exact absurd none (someRuns inv.slots member place _)
  | @advancing next least place awake found honest =>
    have time := inv.slots.advanced here place found
    have count := @tokensStep world proc timer (timer.at (.posting next (running (posted world.state timer next)).length))
      (marked (posted world.state timer next) least) here
    have posts := List.length_pos_of_ne_nil (someRuns inv.slots member place next)
    have before : toPost timer.pc = 0 := by rw [place]; rfl
    have after : toPost (timer.at (.posting next (running (posted world.state timer next)).length)).pc =
      (running (posted world.state timer next)).length := rfl
    have same : (marked (posted world.state timer next) least).barrier = world.state.barrier := rfl
    refine .inr (.inl ?_)
    rw [served, Bool.or_eq_true, Bool.and_eq_true, decide_eq_true_eq]
    exact .inr ⟨anyMoved here (by simp [due,asked,Timer.at,time]),by omega⟩
  | frozen place awake stolen => exact absurd inv.slots.honest stolen
  | token place =>
    exact livelyKeeps inv.lively here rfl (by simp [place,toPost,Timer.at]; omega) (by simp [place,hasTurn]) (by simp [place,ready])
      (by simp [place,due,asked,Timer.at]) (by simp [place,asked])
  | released place =>
    have honest : isThief world.state timer = false := by simp [isThief,inv.slots.honest]
    simp only [honest]
    exact livelyKeeps inv.lively here rfl (by simp [place,toPost,SharedState.write]) (by simp [place,hasTurn])
      (by simp [place,ready]) (by simp [place,due,asked]) (by simp [place,asked])
  | yielded place =>
    exact livelyKeeps inv.lively here rfl (by simp [place,toPost]) (by simp [place,hasTurn]) (by simp [place,ready])
      (by simp [place,due,asked]) (by simp [place,asked])
  | lastToken place =>
    exact livelyKeeps inv.lively here rfl (by simp [place,toPost,Timer.at]; omega) (by simp [place,hasTurn]) (by simp [place,ready])
      (by simp [place,due,asked]) fun _ => rfl
  | lastRelease place =>
    exact livelyKeeps inv.lively here rfl (by simp [place,toPost,SharedState.write]) (by simp [place,hasTurn]) (by simp [place,ready])
      (by simp [place,due,asked]) fun _ => rfl
  | passing place free => exact passingLively inv.lively here place rfl (Nat.sub_add_cancel free) spare
  | mistimed place free other => exact absurd (rightTime inv.slots member place) other
  | early place free later =>
    exact livelyKeeps inv.lively here rfl (by simp [place,toPost]) (by simp [place,hasTurn])
      (by simp [place,ready,later]) (by simp [place,due,asked]) (by simp [place,asked])
  | departing place up honest =>
    have stays : nobodyWaits world = true ∨ served world = true := by
      simpa [spares,here,place] using spare
    rcases stays with nobody | serves
    · exact .inr (.inr (allMoves nobody rfl))
    · exact .inr (.inl (servedKeeps here rfl (by simp [place,toPost,vacated,SharedState.write]) (by simp [place,ready])
        (by simp [place,due,asked]) serves))
  | dropping place down =>
    rw [flagUp inv.slots member place] at down
    cases down
  | crashing => cases whole

end

theorem goesArrives {world : World} (inv : Goes world) {pid : Nat} {mode : Pause}
    (free : plain (.start pid mode) = true) : Goes (step world (.start pid mode)) := by
  have slots := slotsStep world (.start pid mode) inv.slots free
  have same : tokens (step world (.start pid mode)) = tokens world := by
    simp [tokens,Semaphore.tokens,step,toPost]
  refine ⟨slots,?_,?_,?_,?_⟩
  · intro timer member own
    rcases List.mem_append.mp member with old | new
    · exact inv.owned timer old own
    · rw [List.mem_singleton.mp new] at own
      cases own
  · intro taken among
    obtain ⟨timer,member,seat⟩ := among
    rcases List.mem_append.mp member with old | new
    · obtain ⟨owner,found,own⟩ := inv.held taken ⟨timer,old,seat⟩
      exact ⟨owner,List.mem_append_left _ found,own⟩
    · rw [List.mem_singleton.mp new] at seat
      cases seat
  · intro locked
    obtain ⟨timer,member,place⟩ := inv.file locked
    exact ⟨timer,List.mem_append_left _ member,place⟩
  · have stays : ∀ {f : Timer → Bool}, world.timers.any f = true → (step world (.start pid mode)).timers.any f = true := by
      intro f some
      rw [step, List.any_append, some, Bool.true_or]
    rcases inv.lively with goes | serves | nobody
    · exact .inl (stays goes)
    · refine .inr (.inl ?_)
      rw [served, Bool.or_eq_true, Bool.and_eq_true, decide_eq_true_eq] at serves ⊢
      rw [same]
      exact serves.imp stays fun waits => ⟨stays waits.1,waits.2⟩
    · refine .inr (.inr ?_)
      rw [nobodyWaits] at nobody
      rw [nobodyWaits, step, List.all_append, nobody]
      rfl

def Spared (world : World) (event : Event) : Prop := unbroken event = true ∧ spares world event = true

instance (world : World) (event : Event) : Decidable (Spared world event) := inferInstanceAs (Decidable (_ ∧ _))

theorem goesStep (world : World) (event : Event) (inv : Goes world) (spared : Spared world event) :
    Goes (step world event) := by
  refine @stepKeeps Goes Spared (fun world pid mode inv spared => ?_)
    (fun world proc timer move state' timer' inv here spared effect is => ?_) world event inv spared
  · exact goesArrives inv (unbrokenPlain spared.1)
  · have slots := slotsStep world (.act proc move) inv.slots (unbrokenPlain spared.1)
    rw [is] at slots
    refine ⟨slots,fun other member own => ?_,effectHeld inv here effect,effectFile inv here spared.1 effect,
      effectLively inv here spared.1 spared.2 effect⟩
    rcases memSet member with rfl | ⟨i,apart,there⟩
    · exact effectOwned inv.slots here spared.1 effect (inv.owned timer (List.mem_of_getElem? here)) own
    · exact inv.owned other (List.mem_of_getElem? there) own

/- Every process on the clock waits at the barrier, no token is left and the mutex is free. -/
def Deadlock (world : World) : Prop :=
  (∃ timer ∈ world.timers, joined timer.pc = true) ∧
  (∀ timer ∈ world.timers, joined timer.pc = true → ∃ next, timer.pc = .atBarrier next) ∧
  world.state.barrier = 0 ∧ 0 < world.state.evtMutex

/- A process on the clock, or about to join, leaves its place by a step of its own. -/
def CanMove (world : World) : Prop :=
  ∃ (proc : Nat) (timer : Timer) (move : Act), world.timers[proc]? = some timer ∧ (joined timer.pc = true ∨ timer.pc = .mapped) ∧
    move ≠ .crash ∧ (act world.state timer move).2.pc ≠ timer.pc

theorem Goes.token {world : World} (inv : Goes world) (among : ∃ timer ∈ world.timers, joined timer.pc = true)
    (all : ∀ timer ∈ world.timers, joined timer.pc = true → ∃ next, timer.pc = .atBarrier next) :
    0 < world.state.barrier := by
  rcases inv.lively with goes | serves | nobody
  · obtain ⟨timer,member,turn⟩ := List.any_eq_true.mp goes
    obtain ⟨next,place⟩ := all timer member (seatedJoined (turnSeated turn))
    rw [place] at turn
    cases turn
  · rw [served, Bool.or_eq_true, Bool.and_eq_true, decide_eq_true_eq] at serves
    rcases serves with through | ⟨waits,positive⟩
    · obtain ⟨timer,member,has⟩ := List.any_eq_true.mp through
      have seat : joined timer.pc = true := by
        cases place : timer.pc <;> rw [place] at has <;> first | rfl | cases has
      obtain ⟨next,place⟩ := all timer member seat
      rw [place] at has
      cases has
    · have settled : ∀ timer ∈ world.timers, toPost timer.pc = 0 := by
        intro timer member
        cases seat : joined timer.pc with
        | true =>
          obtain ⟨next,place⟩ := all timer member seat
          rw [place]
          rfl
        | false => cases place : timer.pc <;> rw [place] at seat <;> first | rfl | cases seat
      rw [tokens, tokensSettled settled] at positive
      exact positive
  · obtain ⟨timer,member,seat⟩ := among
    obtain ⟨next,place⟩ := all timer member seat
    have none := List.all_eq_true.mp nobody timer member
    rw [place] at none
    cases none

theorem Goes.free {world : World} (inv : Goes world) : ¬ Deadlock world := by
  rintro ⟨among,all,empty,_⟩
  have positive := inv.token among all
  omega

section
variable {state : SharedState} {timer : Timer}

def Moves (state : SharedState) (timer : Timer) : Prop :=
  ∃ move ≠ Act.crash, (act state timer move).2.pc ≠ timer.pc

theorem ownerMoves (own : owning timer.pc = true) : Moves state timer := by
  cases place : timer.pc with
  | between => exact ⟨.block none false,by simp,by simp [act,etGvirtBlock,place,Timer.at]⟩
  | selecting => exact ⟨.awake,by simp,by simp [act,place,Timer.at]⟩
  | yielding next => exact ⟨.post,by simp,by simp [act,semPost,place]⟩
  | posting next left =>
    refine ⟨.post,by simp,?_⟩
    cases left with
    | zero =>
      simp only [act,semPost,place]
      split <;> simp
    | succ left => simp [act,semPost,place,Timer.at]
  | leaving left cnt =>
    refine ⟨.post,by simp,?_⟩
    cases left with
    | zero => simp [act,semPost,place]
    | succ left => simp [act,semPost,place,Timer.at]
  | _ => simp [place,owning] at own

theorem throughMoves {next : Timeval} (place : timer.pc = .through next) (free : 0 < state.evtMutex) :
    Moves state timer := by
  refine ⟨.wait,by simp,?_⟩
  simp only [act,semWait,place,if_neg (Nat.pos_iff_ne_zero.mp free)]
  rw [afterBarrier]
  split
  · simp [Timer.at]
  · split <;> simp [Timer.at]

theorem barrierMoves {next : Timeval} (place : timer.pc = .atBarrier next) (free : 0 < state.barrier) :
    Moves state timer :=
  ⟨.wait,by simp,by simp [act,semWait,place,Nat.pos_iff_ne_zero.mp free,Timer.at]⟩

theorem mappedMoves (place : timer.pc = .mapped) (free : 0 < state.evtMutex) : Moves state timer :=
  ⟨.join false,by simp,by simp [act,setupJoin,place,Nat.pos_iff_ne_zero.mp free]⟩

theorem lockOutMoves {cnt : Nat} (place : timer.pc = .lockOut cnt) (free : state.locked = false) :
    Moves state timer :=
  ⟨.close,by simp,by simp [act,closeSharedState,place,free,Timer.at]⟩

end

theorem Goes.canMove {world : World} (inv : Goes world) (among : ∃ timer ∈ world.timers, joined timer.pc = true) :
    CanMove world := by
  have found : ∀ {timer : Timer}, timer ∈ world.timers → joined timer.pc = true ∨ timer.pc = .mapped →
      Moves world.state timer → CanMove world := by
    intro timer member place moves
    obtain ⟨proc,here⟩ := List.mem_iff_getElem?.mp member
    obtain ⟨move,own,leaves⟩ := moves
    exact ⟨proc,timer,move,here,place,own,leaves⟩
  by_cases taken : world.state.evtMutex = 0
  · obtain ⟨owner,member,owns⟩ := inv.held taken among
    have place := inv.owned owner member owns
    exact found member (.inl (owningJoined place)) (ownerMoves place)
  have free : 0 < world.state.evtMutex := Nat.pos_of_ne_zero taken
  by_cases all : ∀ timer ∈ world.timers, joined timer.pc = true → ∃ next, timer.pc = .atBarrier next
  · have token := inv.token among all
    obtain ⟨timer,member,seat⟩ := among
    obtain ⟨next,place⟩ := all timer member seat
    exact found member (.inl seat) (barrierMoves place token)
  · push Not at all
    obtain ⟨timer,member,seat,away⟩ := all
    have honest := (inv.slots.coherent.each timer member).honest
    cases place : timer.pc with
    | atBarrier next => exact absurd place (away next)
    | through next => exact found member (.inl seat) (throughMoves place free)
    | stealing => exact absurd place honest.1
    | relocking => exact absurd place honest.2.1
    | lockOut cnt =>
      cases locked : world.state.locked with
      | false => exact found member (.inl seat) (lockOutMoves place locked)
      | true =>
        obtain ⟨other,there,mapped⟩ := inv.file locked
        exact found there (.inr mapped) (mappedMoves mapped free)
    | between | posting | yielding | selecting | leaving =>
      exact found member (.inl seat) (ownerMoves (by rw [place]; rfl))
    | _ => simp [place,joined] at seat

theorem barrierNeverDeadlocks (events : List Event) (spared : Along step Spared nobody events) :
    ¬ Deadlock (exec step nobody events) ∧
      ((∃ timer ∈ (exec step nobody events).timers, joined timer.pc = true) → CanMove (exec step nobody events)) := by
  have inv := spared.invariant goesStep goesStart
  exact ⟨inv.free,inv.canMove⟩

def earlyJoin : List Event :=
  [.start 7 .active,.act 0 .openFile,.act 0 (.setup ⟨1,0⟩ none),.act 0 (.join false),
    .act 0 (.block (some ⟨5,0⟩) false),.act 0 .post,.act 0 .post,
    .start 8 .active,.act 1 .openFile,.act 1 (.setup ⟨1,0⟩ none),.act 1 (.join false),
    .act 1 (.block (some ⟨1,0⟩) false),.act 1 .post,.act 1 .post]

def sparedToken : List Event :=
  earlyJoin ++ [.act 0 .wait,.act 0 .wait,.act 0 .post,.act 1 .wait,.act 1 .wait,.act 1 .awake,
    .act 1 (.block (some ⟨5,0⟩) false),.act 1 .post,.act 1 .post,.act 1 .wait,.act 1 .wait,.act 1 .awake,
    .act 1 (.block (some ⟨6,0⟩) false),.act 1 .post,.act 1 .post,.act 0 .wait,.act 0 .wait,.act 0 .awake,
    .act 0 (.block (some ⟨6,0⟩) false),.act 0 .post,.act 0 .post,.act 1 .wait,.act 1 .wait,.act 1 .awake]

theorem barrierNeverDeadlocksSpared : ¬ Deadlock (exec step nobody sparedToken) ∧
    CanMove (exec step nobody sparedToken) := by
  obtain ⟨free,moves⟩ := barrierNeverDeadlocks sparedToken (by decide +kernel)
  exact ⟨free,moves (by decide +kernel)⟩

def starved : List Event :=
  earlyJoin ++ [.act 0 .wait,.act 0 .wait,.act 0 .post,.act 0 .wait,.act 0 .wait,.act 0 .post]

theorem starvedDeadlocks : Along step (fun _ event => unbroken event = true) nobody starved ∧
    Deadlock (exec step nobody starved) := by
  have timers : (exec step nobody starved).timers =
      [⟨7,⟨1,0⟩,0,.active,.atBarrier ⟨5,0⟩,false⟩,⟨8,⟨0,0⟩,1,.active,.atBarrier ⟨1,0⟩,false⟩] := by
    decide +kernel
  refine ⟨by decide +kernel,?_,?_,by decide +kernel,by decide +kernel⟩
  · rw [timers]
    simp [joined]
  · rw [timers]
    simp

end LibProc.GlobalBarrier
