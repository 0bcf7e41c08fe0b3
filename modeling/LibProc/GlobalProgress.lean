import LibProc.GlobalTime
import LibProc.GlobalBarrier

/-! Runs whose time goes forward. Each trip makes the time it asks for the shared one, so nobody
waits for a later time than that: no process spends a token in vain, and each one that waits at
the barrier has a token there. Such runs meet what the barrier asks of them. -/
namespace LibProc.GlobalProgress
open GlobalTimer GlobalMutex GlobalEffects GlobalSlots GlobalTime GlobalBarrier Runs Semaphore

def needs : Pc → Nat
  | .posting _ _ => 1
  | .atBarrier _ => 1
  | _ => 0

def waiting (world : World) : Nat := Semaphore.tokens (fun timer => needs timer.pc) 0 world.timers

def yields : Pc → Bool
  | .yielding _ => true
  | _ => false

structure Ample (world : World) : Prop where
  slots : Slots world
  due : ∀ timer ∈ world.timers, ∀ next ∈ asked timer.pc, next ≤ world.state.currTime
  willing : ∀ timer ∈ world.timers, yields timer.pc = false
  enough : waiting world ≤ GlobalBarrier.tokens world

theorem ampleStart : Ample nobody :=
  ⟨slotsStart,fun _ member => absurd member List.not_mem_nil,fun _ member => absurd member List.not_mem_nil,le_rfl⟩

section
variable {world : World} {proc : Nat} {timer timer' : Timer} {move : Act} {state' : SharedState}

theorem effectDues (inv : Ample world) (here : world.timers[proc]? = some timer)
    (forward : Forward world (.act proc move)) (effect : Effect world.state timer move state' timer') :
    ∀ other ∈ world.timers.set proc timer', ∀ next ∈ asked other.pc, next ≤ state'.currTime := by
  refine @Slots.askedKeep (fun time next => next ≤ time) _ _ _ _ _ _ inv.slots here effect le_refl inv.due ?_
  intro asks moved place awake other member next is
  rw [moved] at forward
  exact le_trans (inv.due other member next is) (forward _ (endingOf here place awake))

theorem effectWilling (inv : Ample world) (here : world.timers[proc]? = some timer)
    (effect : Effect world.state timer move state' timer') : yields timer'.pc = false := by
  have member := List.mem_of_getElem? here
  cases effect with
  | early place free later => exact absurd (inv.due timer member _ (by rw [place]; rfl)) (not_le.mpr later)
  | released place =>
    dsimp only
    split
    · rfl
    · rfl
  | stay | pausing | setting | adding => exact inv.willing timer member
  | _ => rfl

theorem enoughKeeps (inv : Ample world) (here : world.timers[proc]? = some timer)
    (posts : needs timer'.pc + (world.state.barrier + toPost timer.pc) ≤
      needs timer.pc + (state'.barrier + toPost timer'.pc)) :
    waiting { state := state', timers := world.timers.set proc timer' } ≤
      GlobalBarrier.tokens { state := state', timers := world.timers.set proc timer' } := by
  have count := @tokensStep world proc timer timer' state' here
  have waits : waiting { state := state', timers := world.timers.set proc timer' } + (0 + needs timer.pc) =
      waiting world + (0 + needs timer'.pc) := tokensMove here
  have enough := inv.enough
  omega

/- A trip leaves one more at the barrier and at least one more token; passing takes one of each. -/
theorem effectEnough (inv : Ample world) (here : world.timers[proc]? = some timer)
    (whole : unbroken (.act proc move) = true) (effect : Effect world.state timer move state' timer') :
    waiting { state := state', timers := world.timers.set proc timer' } ≤
      GlobalBarrier.tokens { state := state', timers := world.timers.set proc timer' } := by
  have member := List.mem_of_getElem? here
  cases effect with
  | stay | pausing | setting | adding => exact enoughKeeps inv here le_rfl
  | founding place fresh =>
    have none : ∀ other ∈ world.timers, needs other.pc = 0 := by
      intro other among
      cases seat : joined other.pc with
      | true =>
        have inside := ((inv.slots.coherent.each other among).inside seat).1
        rw [fresh] at inside
        cases inside
      | false => cases away : other.pc <;> rw [away] at seat <;> first | rfl | cases seat
    refine le_of_eq_of_le (tokensSettled fun other among => ?_) (Nat.zero_le _)
    rcases memSet among with rfl | ⟨i,apart,there⟩
    · rfl
    · exact none other (List.mem_of_getElem? there)
  | faulting place untouched grows founded =>
    exact enoughKeeps inv here (by simp [place,needs,toPost,Timer.at,untouched.barrier])
  | @advancing next least place awake found honest =>
    have posts := List.length_pos_of_ne_nil (someRuns inv.slots member place next)
    refine enoughKeeps inv here ?_
    simp only [place,needs,toPost,Timer.at,marked,posted,SharedState.write] at posts ⊢
    omega
  | frozen place awake stolen => exact absurd inv.slots.honest stolen
  | token place => exact enoughKeeps inv here (by simp [place,needs,toPost,Timer.at]; omega)
  | released place =>
    have honest : isThief world.state timer = false := by simp [isThief,inv.slots.honest]
    simp only [honest]
    exact enoughKeeps inv here (by simp [place,needs,toPost,SharedState.write])
  | yielded place =>
    have willing := inv.willing timer member
    rw [place] at willing
    cases willing
  | lastToken place => exact enoughKeeps inv here (by simp [place,needs,toPost,Timer.at]; omega)
  | passing place free => exact enoughKeeps inv here (by simp [place,needs,toPost,Timer.at]; omega)
  | crashing => cases whole
  | opening place | locking place | interrupted place | selecting place | unflagged place | awoken place
  | stolenAwake place | dropping place | nobodyRuns place | relocked place | mistimed place | early place
  | joining place | entering place | lastRelease place | departing place | closing place =>
    exact enoughKeeps inv here (by simp [place,needs,toPost,Timer.at,posted,vacated,SharedState.write])

end

theorem ampleArrives {world : World} (inv : Ample world) {pid : Nat} {mode : Pause}
    (free : plain (.start pid mode) = true) : Ample (step world (.start pid mode)) := by
  have slots := slotsStep world (.start pid mode) inv.slots free
  refine ⟨slots,?_,?_,?_⟩
  · intro timer member next is
    rcases List.mem_append.mp member with old | new
    · exact inv.due timer old next is
    · rw [List.mem_singleton.mp new] at is
      cases is
  · intro timer member
    rcases List.mem_append.mp member with old | new
    · exact inv.willing timer old
    · rw [List.mem_singleton.mp new]
      rfl
  · have enough := inv.enough
    simpa [waiting,GlobalBarrier.tokens,Semaphore.tokens,step,needs,toPost] using enough

def Timely (world : World) (event : Event) : Prop := unbroken event = true ∧ Forward world event

instance (world : World) (event : Event) : Decidable (Timely world event) := inferInstanceAs (Decidable (_ ∧ _))

theorem ampleStep (world : World) (event : Event) (inv : Ample world) (timely : Timely world event) :
    Ample (step world event) := by
  refine @stepKeeps Ample Timely (fun world pid mode inv timely => ?_)
    (fun world proc timer move state' timer' inv here timely effect is => ?_) world event inv timely
  · exact ampleArrives inv (unbrokenPlain timely.1)
  · have slots := slotsStep world (.act proc move) inv.slots (unbrokenPlain timely.1)
    rw [is] at slots
    refine ⟨slots,effectDues inv here timely.2 effect,fun other member => ?_,effectEnough inv here timely.1 effect⟩
    rcases memSet member with rfl | ⟨i,apart,there⟩
    · exact effectWilling inv here effect
    · exact inv.willing other (List.mem_of_getElem? there)

theorem Ample.served {world : World} (inv : Ample world) {timer : Timer} (member : timer ∈ world.timers)
    {next : Timeval} (is : next ∈ asked timer.pc) : GlobalBarrier.served world = true := by
  have ontime := inv.due timer member next is
  rw [GlobalBarrier.served, Bool.or_eq_true, Bool.and_eq_true, decide_eq_true_eq]
  have found : 0 < needs timer.pc → someDue world = true ∧ 0 < GlobalBarrier.tokens world := by
    intro waits
    refine ⟨List.any_eq_true.mpr ⟨timer,member,?_⟩,lt_of_lt_of_le ?_ inv.enough⟩
    · rw [GlobalBarrier.due, Option.any_eq_true]
      exact ⟨next,is,decide_eq_true ontime⟩
    · rw [waiting, Semaphore.tokens, Nat.zero_add, List.sum_pos_iff_exists_pos_nat]
      exact ⟨needs timer.pc,List.mem_map_of_mem member,waits⟩
  cases place : timer.pc with
  | posting asks left => exact .inr (found (by rw [place]; exact Nat.one_pos))
  | atBarrier asks => exact .inr (found (by rw [place]; exact Nat.one_pos))
  | through asks =>
    rw [place] at is
    cases is
    exact .inl (List.any_eq_true.mpr ⟨timer,member,by simp [place,ready,ontime]⟩)
  | yielding asks =>
    have willing := inv.willing timer member
    rw [place] at willing
    cases willing
  | _ => simp [place,asked] at is

theorem Ample.spared {world : World} {event : Event} (inv : Ample world) (timely : Timely world event) :
    Spared world event := by
  refine ⟨timely.1,?_⟩
  unfold spares
  split
  · rename_i proc
    rw [Option.all_eq_true]
    intro timer here
    split
    · rename_i next place
      have ontime := inv.due timer (List.mem_of_getElem? here) next (by rw [place]; rfl)
      simp [ontime]
    · rfl
  · rename_i proc
    rw [Option.all_eq_true]
    intro timer here
    cases nobody : nobodyWaits world with
    | true => simp
    | false =>
      obtain ⟨other,member,waits⟩ := List.all_eq_false.mp nobody
      obtain ⟨next,is⟩ : ∃ next, asked other.pc = some next := by
        simpa [Option.isNone_iff_eq_none,Option.ne_none_iff_exists'] using waits
      simp [inv.served member is]
  · rfl

theorem timelySpared {events : List Event} (timely : Along step Timely nobody events) :
    Along step Spared nobody events :=
  timely.given ampleStep (fun _ _ => Ample.spared) ampleStart

theorem timelyFree {events : List Event} (timely : Along step Timely nobody events) :
    ¬ Deadlock (exec step nobody events) :=
  ((timelySpared timely).invariant goesStep goesStart).free

end LibProc.GlobalProgress
