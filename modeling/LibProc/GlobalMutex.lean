import LibProc.GlobalEffects
import LibProc.Semaphore

/-! Who owns evt_mutex. A process owns it everywhere between the wait it passes and its
post, and the posts are made from such places only; so the semaphore is a lock over
every interleaving of joins, trips and departures. -/
namespace LibProc.GlobalMutex
open GlobalTimer GlobalEffects Semaphore Runs

def owning : Pc → Bool
  | .between => true
  | .posting _ _ => true
  | .yielding _ => true
  | .selecting => true
  | .leaving _ _ => true
  | _ => false

inductive MutexStep (state : SharedState) (timer : Timer) : SharedState → Timer → Prop where
  | keep {state' timer'} (mutex : state'.evtMutex = state.evtMutex)
      (sized : state.sized = true → state'.sized = true)
      (less : timer'.owns = true → timer.owns = true) : MutexStep state timer state' timer'
  | wait {state' timer'} (positive : 0 < state.evtMutex)
      (mutex : state'.evtMutex = state.evtMutex - 1) (sized : state'.sized = state.sized) :
      MutexStep state timer state' timer'
  | post {state' timer'} (own : owning timer.pc = true) (mutex : state'.evtMutex = state.evtMutex + 1)
      (sized : state'.sized = state.sized) (free : timer'.owns = false) :
      MutexStep state timer state' timer'
  | init {state' timer'} (fresh : state.sized = false) (mutex : state'.evtMutex = 1)
      (sized : state'.sized = true) (less : timer'.owns = true → timer.owns = true) :
      MutexStep state timer state' timer'

def Placed (timer : Timer) : Prop := owning timer.pc = true → timer.owns = true

def Sound (state : SharedState) (timer : Timer) (after : SharedState × Timer) : Prop :=
  MutexStep state timer after.1 after.2 ∧ Placed after.2

section
variable {state : SharedState} {timer : Timer}

theorem soundStay (placed : Placed timer) : Sound state timer (state,timer) :=
  ⟨.keep rfl id id,placed⟩

theorem soundMove {state' : SharedState} {pc : Pc} (mutex : state'.evtMutex = state.evtMutex)
    (sized : state.sized = true → state'.sized = true)
    (place : owning pc = true → timer.owns = true) : Sound state timer (state',timer.at pc) :=
  ⟨.keep mutex sized id,place⟩

theorem effectSound {move : Act} {state' : SharedState} {timer' : Timer} (placed : Placed timer)
    (effect : Effect state timer move state' timer') : Sound state timer (state',timer') := by
  cases effect with
  | stay => exact soundStay placed
  | opening | locking | interrupted | unflagged | nobodyRuns | passing | stolenAwake | dropping | closing | crashing =>
    exact soundMove rfl id (by simp [owning])
  | founding place fresh => exact ⟨.init fresh rfl rfl id,by simp [Placed,Timer.at,owning]⟩
  | faulting place untouched grows founded =>
    have away : owning (timer.at .failed).pc = true → (timer.at .failed).owns = true := by simp [Timer.at,owning]
    cases sized : state.sized with
    | true => exact soundMove (grows sized).2 (fun _ => (grows sized).1) away
    | false =>
      rcases founded sized with same | ⟨now,mutex⟩
      · exact soundMove same (fun was => by rw [sized] at was; cases was) away
      · exact ⟨.init sized mutex now id,away⟩
  | joining place free | relocked place free | mistimed place free | early place free | entering place free =>
    exact ⟨.wait free rfl rfl,fun _ => rfl⟩
  | selecting place | advancing place | frozen place | token place | lastToken place | awoken place | departing place =>
    exact soundMove rfl id fun _ => placed (by rw [place]; rfl)
  | released place =>
    refine ⟨.post (by rw [place]; rfl) rfl rfl rfl,?_⟩
    rw [Placed]
    split
    · simp [owning]
    · simp [owning]
  | yielded place | lastRelease place =>
    exact ⟨.post (by rw [place]; rfl) rfl rfl rfl,by simp [Placed,owning]⟩
  | pausing | setting | adding => exact ⟨.keep rfl id id,placed⟩

end

structure Exclusive (world : World) : Prop where
  balanced : Semaphore.Balanced Timer.owns world.state.evtMutex world.timers
  fresh : world.state.sized = false →
    world.state.evtMutex = 0 ∧ owners Timer.owns world.timers = 0
  placed : ∀ timer ∈ world.timers, Placed timer

theorem Exclusive.unowned {world : World} (inv : Exclusive world) {proc : Nat} {timer : Timer}
    (here : world.timers[proc]? = some timer) (free : 0 < world.state.evtMutex) : timer.owns = false := by
  have balanced := inv.balanced
  rw [Semaphore.Balanced] at balanced
  cases owns : timer.owns with
  | false => rfl
  | true =>
    have counted : 0 < Semaphore.owners Timer.owns world.timers := Semaphore.owner here owns
    omega

theorem exclusiveStart : Exclusive nobody :=
  { balanced := Nat.zero_le 1
    fresh := fun _ => ⟨rfl,rfl⟩
    placed := fun _ member => absurd member List.not_mem_nil }

theorem exclusiveAct {world : World} (inv : Exclusive world) {proc : Nat} {timer timer' : Timer}
    {state' : SharedState} (here : world.timers[proc]? = some timer)
    (move : MutexStep world.state timer state' timer') (place : Placed timer') :
    Exclusive { state := state', timers := world.timers.set proc timer' } := by
  have less : ∀ {new : Timer}, (new.owns = true → timer.owns = true) →
      owners Timer.owns world.timers = 0 → owners Timer.owns (world.timers.set proc new) = 0 := by
    intro new smaller none
    have count : owners Timer.owns (world.timers.set proc new) + (if timer.owns then 1 else 0) =
        owners Timer.owns world.timers + if new.owns then 1 else 0 := ownersSet here
    by_cases own : new.owns = true
    · exact absurd none (Nat.pos_iff_ne_zero.mp (owner here (smaller own)))
    · rw [if_neg own, none] at count
      omega
  have placed : ∀ other ∈ world.timers.set proc timer', Placed other := by
    intro other member
    rcases List.mem_or_eq_of_mem_set member with old | rfl
    · exact inv.placed other old
    · exact place
  cases move with
  | keep mutex sized smaller =>
    refine ⟨?_,?_,placed⟩
    · rw [mutex]
      exact inv.balanced.keep here smaller
    · intro still
      have before : world.state.sized = false := by
        rw [← Bool.not_eq_true]
        intro was
        rw [sized was] at still
        cases still
      rw [mutex]
      exact ⟨(inv.fresh before).1,less smaller (inv.fresh before).2⟩
  | wait positive mutex sized =>
    refine ⟨?_,?_,placed⟩
    · rw [mutex]
      exact inv.balanced.wait here positive
    · intro still
      have zero := (inv.fresh (sized ▸ still)).1
      omega
  | post own mutex sized free =>
    have owned : timer.owns = true := inv.placed timer (List.mem_of_getElem? here) own
    refine ⟨?_,?_,placed⟩
    · rw [mutex]
      exact inv.balanced.post here owned free
    · intro still
      have none := (inv.fresh (sized ▸ still)).2
      exact absurd none (Nat.pos_iff_ne_zero.mp (owner here owned))
  | init fresh mutex sized smaller =>
    have none := less smaller (inv.fresh fresh).2
    refine ⟨?_,?_,placed⟩
    · rw [Semaphore.Balanced, mutex, none]
    · intro still
      rw [sized] at still
      cases still

theorem exclusiveStep (world : World) (event : Event) (inv : Exclusive world) :
    Exclusive (step world event) := by
  cases event with
  | start pid mode =>
    have same : owners Timer.owns (world.timers ++ [⟨pid,⟨0,0⟩,0,mode,.init,false⟩]) =
        owners Timer.owns world.timers := ownersAppend rfl
    refine ⟨?_,?_,?_⟩
    · rw [step, Semaphore.Balanced, same]
      exact inv.balanced
    · rw [step, same]
      exact inv.fresh
    · intro timer member
      rcases List.mem_append.mp member with old | new
      · exact inv.placed timer old
      · rw [List.mem_singleton.mp new]
        simp [Placed,owning]
  | act proc move =>
    rw [step]
    cases here : world.timers[proc]? with
    | none => exact inv
    | some timer =>
      obtain ⟨moved,place⟩ : Sound world.state timer (act world.state timer move) :=
        effectSound (inv.placed timer (List.mem_of_getElem? here)) (actEffect move)
      exact exclusiveAct inv here moved place

theorem exclusiveRun (events : List Event) : Exclusive (exec step nobody events) :=
  execInvariant exclusiveStep exclusiveStart events

theorem globalMutualExclusion (events : List Event) :
    let world := exec step nobody events
    world.state.evtMutex + world.timers.countP Timer.owns ≤ 1 ∧
      (∀ timer ∈ world.timers, timer.pc = .between → timer.owns = true) ∧
      ∀ (i j : Nat) (a b : Timer), world.timers[i]? = some a → world.timers[j]? = some b →
        a.pc = .between → b.pc = .between → i = j := by
  have inv := exclusiveRun events
  have owns : ∀ timer ∈ (exec step nobody events).timers, timer.pc = .between → timer.owns = true :=
    fun timer member place => inv.placed timer member (by rw [place]; rfl)
  refine ⟨inv.balanced,owns,?_⟩
  intro i j a b left right placeA placeB
  exact inv.balanced.unique left right (owns a (List.mem_of_getElem? left) placeA)
    (owns b (List.mem_of_getElem? right) placeB)

def joined : Pc → Bool
  | .init => false
  | .opened => false
  | .mapped => false
  | .gone => false
  | .failed => false
  | .aborted _ => false
  | .crashed => false
  | _ => true

def flagged : Pc → Bool
  | .between => true
  | .posting _ _ => true
  | .selecting => true
  | _ => false

structure Coherent (state : SharedState) (timer : Timer) : Prop where
  flag : flagged timer.pc = true → (state.procs timer.slot).holdsMutex = true
  honest : timer.pc ≠ .stealing ∧ timer.pc ≠ .relocking ∧ timer.pc ≠ .aborted .holdsMutex
  released : (timer.pc = .gone ∨ ∃ cnt, timer.pc = .lockOut cnt) → timer.owns = false
  mapped : timer.pc = .mapped → state.sized = true
  inside : joined timer.pc = true → state.sized = true ∧ timer.slot < state.numProcs

structure Frame (state : SharedState) (timer : Timer) (state' : SharedState) (timer' : Timer) : Prop where
  flags : ∀ slot < state.numProcs, (joined timer.pc = true → slot ≠ timer.slot) →
    (state'.procs slot).holdsMutex = (state.procs slot).holdsMutex
  grows : state.sized = true → state'.sized = true ∧ state.numProcs ≤ state'.numProcs
  kept : joined timer.pc = true → joined timer'.pc = true → timer'.slot = timer.slot
  fresh : joined timer.pc = false → joined timer'.pc = true → timer'.slot = state.numProcs

def Keeps (state : SharedState) (timer : Timer) (after : SharedState × Timer) : Prop :=
  Coherent after.1 after.2 ∧ Frame state timer after.1 after.2

section
variable {state : SharedState} {timer : Timer}

theorem writeFlag (slot : Nat) {change : SharedProcessState → SharedProcessState}
    (same : ∀ mine, (change mine).holdsMutex = mine.holdsMutex) (other : Nat) :
    ((state.write slot change).procs other).holdsMutex = (state.procs other).holdsMutex := by
  simp only [SharedState.write]
  by_cases here : other = slot
  · rw [here, Function.update_self, same]
  · rw [Function.update_of_ne here]

theorem keepsStay (good : Coherent state timer) : Keeps state timer (state,timer) :=
  ⟨good,⟨fun _ _ _ => rfl,fun sized => ⟨sized,Nat.le_refl _⟩,fun _ _ => rfl,
    fun out is => by rw [out] at is; cases is⟩⟩

structure InSlot (state : SharedState) (timer : Timer) (state' : SharedState) (timer' : Timer) : Prop where
  slot : timer'.slot = timer.slot
  sized : state'.sized = state.sized
  numProcs : state'.numProcs = state.numProcs
  others : ∀ other ≠ timer.slot, (state'.procs other).holdsMutex = (state.procs other).holdsMutex

theorem keepsInSlot {state' : SharedState} {timer' : Timer} (good : Coherent state timer)
    (member : joined timer.pc = true) (move : InSlot state timer state' timer')
    (flag : flagged timer'.pc = true → (state'.procs timer.slot).holdsMutex = true)
    (honest : timer'.pc ≠ .stealing ∧ timer'.pc ≠ .relocking ∧ timer'.pc ≠ .aborted .holdsMutex)
    (released : (timer'.pc = .gone ∨ ∃ cnt, timer'.pc = .lockOut cnt) → timer'.owns = false)
    (unmapped : timer'.pc ≠ .mapped) : Keeps state timer (state',timer') := by
  obtain ⟨sized,inside⟩ := good.inside member
  refine ⟨⟨fun is => ?_,honest,released,fun is => absurd is unmapped,fun _ => ?_⟩,⟨?_,?_,?_,?_⟩⟩
  · rw [move.slot]
    exact flag is
  · rw [move.slot, move.sized, move.numProcs]
    exact ⟨sized,inside⟩
  · exact fun other _ apart => move.others other (apart member)
  · intro _
    rw [move.sized, move.numProcs]
    exact ⟨sized,Nat.le_refl _⟩
  · exact fun _ _ => move.slot
  · intro out
    rw [member] at out
    cases out

theorem inSlotWrite {middle : SharedState} {change : SharedProcessState → SharedProcessState}
    {timer' : Timer} (slot : timer'.slot = timer.slot) (procs : middle.procs = state.procs)
    (sized : middle.sized = state.sized) (numProcs : middle.numProcs = state.numProcs) :
    InSlot state timer (middle.write timer.slot change) timer' :=
  ⟨slot,sized,numProcs,fun other apart => by
    simp only [SharedState.write,Function.update_of_ne apart,procs]⟩

theorem keepsFlags {state' : SharedState} {timer' : Timer} (good : Coherent state timer)
    (member : joined timer.pc = true) (slot : timer'.slot = timer.slot)
    (sized : state'.sized = state.sized) (numProcs : state'.numProcs = state.numProcs)
    (same : ∀ other, (state'.procs other).holdsMutex = (state.procs other).holdsMutex)
    (flag : flagged timer'.pc = true → flagged timer.pc = true)
    (honest : timer'.pc ≠ .stealing ∧ timer'.pc ≠ .relocking ∧ timer'.pc ≠ .aborted .holdsMutex)
    (released : (timer'.pc = .gone ∨ ∃ cnt, timer'.pc = .lockOut cnt) → timer'.owns = false)
    (unmapped : timer'.pc ≠ .mapped) : Keeps state timer (state',timer') :=
  keepsInSlot good member ⟨slot,sized,numProcs,fun other _ => same other⟩
    (fun is => by rw [same]; exact good.flag (flag is)) honest released unmapped

theorem keepsOutside {state' : SharedState} {pc : Pc} (out : joined timer.pc = false)
    (stays : joined pc = false) (procs : state'.procs = state.procs)
    (grows : state.sized = true → state'.sized = true ∧ state.numProcs ≤ state'.numProcs)
    (plain : flagged pc = false) (honest : pc ≠ .stealing ∧ pc ≠ .relocking ∧ pc ≠ .aborted .holdsMutex)
    (released : pc ≠ .gone) (mapped : pc = .mapped → state'.sized = true) :
    Keeps state timer (state',timer.at pc) := by
  have never : ∀ cnt, pc ≠ .lockOut cnt := by
    rintro cnt rfl
    cases stays
  refine ⟨⟨fun is => ?_,honest,fun is => ?_,mapped,fun is => ?_⟩,⟨fun slot _ _ => ?_,grows,fun is => ?_,
    fun _ is => ?_⟩⟩
  · rw [Timer.at, plain] at is
    cases is
  · rcases is with is | ⟨cnt,is⟩
    · exact absurd is released
    · exact absurd is (never cnt)
  · rw [Timer.at, stays] at is
    cases is
  · rw [procs]
  · rw [out] at is
    cases is
  · rw [Timer.at, stays] at is
    cases is

theorem crashKeeps (locked : Bool) :
    Keeps state timer ({ state with locked := locked },timer.at .crashed) :=
  ⟨⟨by simp [Timer.at,flagged],by simp [Timer.at],by simp [Timer.at],by simp [Timer.at],
      by simp [Timer.at,joined]⟩,
    ⟨fun _ _ _ => rfl,fun sized => ⟨sized,Nat.le_refl _⟩,by simp [Timer.at,joined],
      by simp [Timer.at,joined]⟩⟩

def settles : Pc → Bool
  | .stealing => false
  | .relocking => false
  | .aborted .holdsMutex => false
  | .gone => false
  | .lockOut _ => false
  | .mapped => false
  | _ => true

theorem effectCoherent {move : Act} {state' : SharedState} {timer' : Timer} (good : Coherent state timer)
    (honest : move = .post → ∀ nextAwake, timer.pc = .posting nextAwake 0 → isThief state timer = false)
    (effect : Effect state timer move state' timer') : Keeps state timer (state',timer') := by
  have plain : ∀ {state' : SharedState} {timer' : Timer}, joined timer.pc = true → timer'.slot = timer.slot →
      state'.sized = state.sized → state'.numProcs = state.numProcs →
      (∀ other, (state'.procs other).holdsMutex = (state.procs other).holdsMutex) →
      (flagged timer'.pc = true → flagged timer.pc = true) → settles timer'.pc = true →
      Keeps state timer (state',timer') := by
    intro state' timer' member slot sized numProcs same flag settled
    have off : ∀ pc, settles pc = false → timer'.pc ≠ pc := by
      rintro pc away rfl
      rw [settled] at away
      cases away
    refine keepsFlags good member slot sized numProcs same flag ⟨off _ rfl,off _ rfl,off _ rfl⟩ ?_ (off _ rfl)
    rintro (is | ⟨cnt,is⟩)
    · exact absurd is (off _ rfl)
    · exact absurd is (off _ rfl)
  have up : timer.pc = .between → (state.procs timer.slot).holdsMutex = true :=
    fun place => good.flag (by rw [place]; rfl)
  cases effect with
  | stay => exact keepsStay good
  | opening place =>
    exact keepsOutside (by rw [place]; rfl) rfl rfl (fun sized => ⟨sized,Nat.le_refl _⟩) rfl (by simp) (by simp) (by simp)
  | locking place sized =>
    exact keepsOutside (by rw [place]; rfl) rfl rfl (fun sized => ⟨sized,Nat.le_refl _⟩) rfl (by simp) (by simp) fun _ => sized
  | founding place fresh =>
    exact keepsOutside (by rw [place]; rfl) rfl rfl (fun sized => by rw [fresh] at sized; cases sized) rfl (by simp) (by simp) fun _ => rfl
  | faulting place untouched grows founded =>
    exact keepsOutside (by rw [place]; rfl) rfl untouched.procs
      (fun sized => ⟨(grows sized).1,untouched.numProcs.ge⟩) rfl (by simp) (by simp) (by simp)
  | interrupted place =>
    exact keepsOutside (by rw [place]; rfl) rfl rfl (fun sized => ⟨sized,Nat.le_refl _⟩) rfl (by simp) (by simp) (by simp)
  | joining place free =>
    have sized := good.mapped place
    refine ⟨⟨fun _ => ?_,by simp,by simp,by simp,fun _ => ⟨sized,Nat.lt_succ_self _⟩⟩,
      ⟨fun slot low _ => ?_,fun _ => ⟨sized,Nat.le_succ _⟩,fun is => ?_,fun _ _ => rfl⟩⟩
    · rw [writeProcs, if_pos rfl]
    · rw [writeProcs, if_neg (Nat.ne_of_lt low)]
    · rw [place] at is
      cases is
  | selecting place | token place | yielded place | lastToken place | passing place | mistimed place | early place
  | awoken place => exact plain (by rw [place]; rfl) rfl rfl rfl (fun _ => rfl) (by simp [place,flagged,Timer.at]) rfl
  | nobodyRuns place | frozen place =>
    exact plain (by rw [place]; rfl) rfl rfl rfl (writeFlag _ fun _ => rfl) (by simp [place,flagged]) rfl
  | advancing place awake found honest =>
    refine plain (by rw [place]; rfl) rfl rfl rfl (fun other => ?_) (by simp [place,flagged]) rfl
    rw [marked, writeFlag _ (by intro; rfl), posted]
    dsimp only
    rw [writeFlag _ (by intro; rfl)]
  | unflagged place down | dropping place down =>
    rw [up place] at down
    cases down
  | released place =>
    have unstolen := honest rfl _ place
    refine keepsInSlot good (by rw [place]; rfl) (inSlotWrite rfl rfl rfl rfl) ?_ ?_ ?_ ?_
    all_goals simp [unstolen,flagged]
  | lastRelease place =>
    refine keepsInSlot good (by rw [place]; rfl) (inSlotWrite rfl rfl rfl rfl) ?_ ?_ ?_ ?_
    all_goals simp [flagged]
  | entering place free due =>
    refine keepsInSlot good (by rw [place]; rfl) (inSlotWrite rfl rfl rfl rfl) ?_ ?_ ?_ ?_
    all_goals simp [SharedState.write]
  | relocked place free => exact absurd place good.honest.2.1
  | stolenAwake place => exact absurd place good.honest.1
  | pausing place | setting place | adding place =>
    refine plain (by rw [place]; rfl) rfl rfl rfl (fun _ => rfl) id ?_
    dsimp only
    rw [place]
    rfl
  | departing place =>
    exact plain (by rw [place]; rfl) rfl rfl rfl (writeFlag _ fun _ => rfl) (by simp [place,flagged]) rfl
  | @closing cnt _ place =>
    have free := good.released (.inr ⟨cnt,place⟩)
    refine keepsFlags good (by rw [place]; rfl) rfl rfl rfl (fun other => ?_) (by simp [Timer.at,flagged])
      (by simp [Timer.at]) (fun _ => free) (by simp [Timer.at])
    dsimp only
    rw [writeFlag _ (by intro; rfl)]
  | crashing => exact crashKeeps _

end

structure AllCoherent (world : World) : Prop where
  each : ∀ timer ∈ world.timers, Coherent world.state timer
  apart : ∀ (i j : Nat) (a b : Timer), world.timers[i]? = some a → world.timers[j]? = some b →
    joined a.pc = true → joined b.pc = true → a.slot = b.slot → i = j

theorem flaggedJoined {pc : Pc} (up : flagged pc = true) : joined pc = true := by
  cases pc <;> first | rfl | cases up

theorem Coherent.framed {state state' : SharedState} {timer timer' other : Timer}
    (good : Coherent state other) (frame : Frame state timer state' timer')
    (apart : joined timer.pc = true → joined other.pc = true → other.slot ≠ timer.slot) :
    Coherent state' other := by
  refine ⟨fun up => ?_,good.honest,good.released,fun is => (frame.grows (good.mapped is)).1,fun is => ?_⟩
  · have member := flaggedJoined up
    rw [frame.flags other.slot (good.inside member).2 fun mine => apart mine member]
    exact good.flag up
  · obtain ⟨sized,inside⟩ := good.inside is
    obtain ⟨stays,more⟩ := frame.grows sized
    exact ⟨stays,Nat.lt_of_lt_of_le inside more⟩

theorem allCoherentAct {world : World} (inv : AllCoherent world) {proc : Nat} {timer timer' : Timer}
    {state' : SharedState} (here : world.timers[proc]? = some timer) (good : Coherent state' timer')
    (frame : Frame world.state timer state' timer') :
    AllCoherent { state := state', timers := world.timers.set proc timer' } := by
  have away : ∀ (i : Nat) (other : Timer), i ≠ proc → world.timers[i]? = some other →
      joined timer.pc = true → joined other.pc = true → other.slot ≠ timer.slot :=
    fun i other different there mine its same =>
      different (inv.apart i proc other timer there here its mine same)
  have elsewhere : ∀ (i : Nat) (other : Timer), (world.timers.set proc timer')[i]? = some other →
      i ≠ proc → world.timers[i]? = some other := by
    intro i other there different
    rwa [List.getElem?_set_ne (Ne.symm different)] at there
  have itself : ∀ other, (world.timers.set proc timer')[proc]? = some other → other = timer' := by
    intro other there
    have inside := (List.getElem?_eq_some_iff.mp here).1
    rw [List.getElem?_set_self inside] at there
    exact (Option.some.inj there).symm
  have clear : ∀ (i : Nat) (other : Timer), i ≠ proc → world.timers[i]? = some other →
      joined other.pc = true → joined timer'.pc = true → other.slot ≠ timer'.slot := by
    intro i other different there its mine
    cases was : joined timer.pc with
    | true =>
      rw [frame.kept was mine]
      exact away i other different there was its
    | false =>
      rw [frame.fresh was mine]
      exact Nat.ne_of_lt ((inv.each other (List.mem_of_getElem? there)).inside its).2
  refine ⟨?_,?_⟩
  · intro other member
    obtain ⟨i,there⟩ := List.mem_iff_getElem?.mp member
    by_cases same : i = proc
    · rw [itself other (same ▸ there)]
      exact good
    · have old := elsewhere i other there same
      exact (inv.each other (List.mem_of_getElem? old)).framed frame fun mine its =>
        away i other same old mine its
  · intro i j a b left right placeA placeB same
    by_cases first : i = proc
    · by_cases second : j = proc
      · rw [first, second]
      · have isA := itself a (first ▸ left)
        have old := elsewhere j b right second
        rw [isA] at placeA same
        exact absurd same.symm (clear j b second old placeB placeA)
    · have oldA := elsewhere i a left first
      by_cases second : j = proc
      · have isB := itself b (second ▸ right)
        rw [isB] at placeB same
        exact absurd same (clear i a first oldA placeA placeB)
      · exact inv.apart i j a b oldA (elsewhere j b right second) placeA placeB same

/- The thief path is not taken: no process releases the mutex at the end of a trip while
it is the time thief. -/
def thiefFree (world : World) : Event → Bool
  | .act proc .post =>
    (world.timers[proc]?).elim true fun timer =>
      match timer.pc with
      | .posting _ 0 => !isThief world.state timer
      | _ => true
  | _ => true

theorem allCoherentStep (world : World) (event : Event) (inv : AllCoherent world)
    (free : thiefFree world event = true) : AllCoherent (step world event) := by
  cases event with
  | start pid mode =>
    have fresh : Coherent world.state ⟨pid,⟨0,0⟩,0,mode,.init,false⟩ :=
      ⟨by simp [flagged],by simp,by simp,by simp,by simp [joined]⟩
    refine ⟨?_,?_⟩
    · intro timer member
      rcases List.mem_append.mp member with old | new
      · exact inv.each timer old
      · rw [List.mem_singleton.mp new]
        exact fresh
    · have old : ∀ (i : Nat) (a : Timer), (step world (.start pid mode)).timers[i]? = some a →
          joined a.pc = true → world.timers[i]? = some a := by
        intro i a there place
        rw [step, List.getElem?_append] at there
        split at there
        · exact there
        · have last := List.mem_singleton.mp (List.mem_of_getElem? there)
          rw [last] at place
          cases place
      intro i j a b left right placeA placeB
      exact inv.apart i j a b (old i a left placeA) (old j b right placeB) placeA placeB
  | act proc move =>
    rw [step]
    cases here : world.timers[proc]? with
    | none => exact inv
    | some timer =>
      have honest : move = .post → ∀ nextAwake, timer.pc = .posting nextAwake 0 →
          isThief world.state timer = false := by
        rintro rfl nextAwake place
        simpa [thiefFree,here,place] using free
      obtain ⟨good,frame⟩ : Keeps world.state timer (act world.state timer move) :=
        effectCoherent (inv.each timer (List.mem_of_getElem? here)) honest (actEffect move)
      exact allCoherentAct inv here good frame

theorem allCoherentStart : AllCoherent nobody :=
  ⟨fun _ member => absurd member List.not_mem_nil,fun i _ a _ left => by simp [nobody] at left⟩

theorem holdsMutexCoherent (events : List Event)
    (free : Along step (fun world event => thiefFree world event = true) nobody events) :
    let world := exec step nobody events
    ∀ timer ∈ world.timers,
      (timer.pc = .between →
        timer.owns = true ∧ (world.state.procs timer.slot).holdsMutex = true ∧
        ∀ mode, (mode = .stolen → world.state.timeThief = 0) →
          (etGvirtSetPause world.state timer mode).2.paused = mode) ∧
      timer.pc ≠ .aborted .holdsMutex ∧ (timer.pc = .gone → timer.owns = false) := by
  have placed := (exclusiveRun events).placed
  have good := (free.invariant (fun world event inv honest => allCoherentStep world event inv honest)
    allCoherentStart).each
  intro world timer member
  have coherent := good timer member
  refine ⟨fun place => ?_,coherent.honest.2.2,fun place => coherent.released (.inl place)⟩
  have up := coherent.flag (by rw [place]; rfl)
  refine ⟨placed timer member (by rw [place]; rfl),up,fun mode thief => ?_⟩
  rw [etGvirtSetPause, if_neg (by rw [up]; simp)]
  split
  · rename_i stolen
    rw [if_neg (not_not.mpr (thief stolen))]
  · split <;> rfl

def trip : List Event :=
  [.start 7 .active,.act 0 .openFile,.act 0 (.setup ⟨1,0⟩ none),.act 0 (.join false),
    .act 0 (.block (some ⟨1,0⟩) false),.act 0 .post,.act 0 .post,
    .start 8 .active,.act 1 .openFile,.act 1 (.setup ⟨1,0⟩ none),.act 1 (.join false),
    .act 1 (.block (some ⟨2,0⟩) false),.act 1 .post,.act 1 .post,.act 1 .wait,
    .act 0 .wait,.act 0 .wait,.act 0 .awake]

theorem holdsMutexCoherentTrip : ∃ timer ∈ (exec step nobody trip).timers, timer.pc = .between ∧
    ((exec step nobody trip).state.procs timer.slot).holdsMutex = true := by
  have member : (⟨7,⟨2,0⟩,0,.active,.between,true⟩ : Timer) ∈ (exec step nobody trip).timers := by decide +kernel
  exact ⟨_,member,rfl,((holdsMutexCoherent trip (by decide +kernel) _ member).1 rfl).2.1⟩

def stolenTrip : List Event :=
  [.start 7 .active,.act 0 .openFile,.act 0 (.setup ⟨1,0⟩ none),.act 0 (.join false),
    .act 0 (.setPause .stolen),.act 0 (.block (some ⟨1,0⟩) false),.act 0 .post,.act 0 .awake,
    .act 0 .wait]

theorem stolenFlagDown :
    let world := exec step nobody stolenTrip
    ∃ timer ∈ world.timers, timer.pc = .between ∧ timer.owns = true ∧
      (world.state.procs timer.slot).holdsMutex = false := by
  intro world
  refine ⟨⟨7,⟨0,0⟩,0,.stolen,.between,true⟩,?_,rfl,rfl,?_⟩
  · decide +kernel
  · decide +kernel

end LibProc.GlobalMutex
