import LibProc.LinkedSlots
import LibProc.Runs

/-! The pseudo threads of `pseudo_threads.c`. A thread is on the list its `head` field points at, and
each operation takes it out through that field. Contexts are places: the main context, a thread, or
the main context just after a thread has switched back to it. The timers of the event loop are kept
with the thread they are for; descriptors are in `ThreadIo`. -/
namespace LibProc.PseudoThreads
open LinkedSlots
open Runs (exec Along)

inductive Queue where
  | ready
  | blocked
  | curr
  deriving DecidableEq, Repr

structure PThread where
  head : Option Queue
  schedEvt : Option Nat
  deriving DecidableEq, Repr

/- `null` is an access through NULL, the next two are assertions, and the last two are accesses to
a freed thread or timer. -/
inductive Stop where
  | null
  | timerSet
  | currentLeft
  | freedThread
  | freedTimer
  deriving DecidableEq, Repr

inductive Place where
  | main
  | thread (self : Nat)
  | back
  deriving DecidableEq, Repr

structure State where
  threads : Links Queue PThread
  goner : Option Nat
  evt : Bool
  timers : List (Nat × Nat)
  nextTimer : Nat
  place : Place
  stop : Option Stop

def ptInit (evt : Bool) : State := ⟨.empty,none,evt,[],0,.main,none⟩

def dequeueThread (threads : Links Queue PThread) (thread : Nat) : Option (Links Queue PThread) := do
  let self ← threads.cells thread
  match self.item.head with
  | none => some threads
  | some head =>
    let (itr,found) ← threads.find (fun address _ => decide (address = thread)) (.head head)
    match found with
    | none => some threads
    | some _ =>
      let left ← threads.store itr self.next
      let node ← left.cells thread
      some (left.put thread ⟨{ node.item with head := none },none⟩)

def enqueueThread (threads : Links Queue PThread) (self : Nat) (q : Queue) : Option (Links Queue PThread) := do
  let node ← threads.cells self
  some (threads.enqueue q self { node.item with head := some q })

def requeueThread (threads : Links Queue PThread) (self : Nat) (q : Queue) : Option (Links Queue PThread) := do
  enqueueThread (← dequeueThread threads self) self q

def State.fail (state : State) (why : Stop) : State := { state with stop := some why }

def State.withThreads (state : State) (threads : Option (Links Queue PThread)) : State :=
  match threads with
  | none => state.fail .freedThread
  | some threads => { state with threads := threads }

def State.switchBack (state : State) : State := { state with place := .back }

def setSchedEvt (threads : Links Queue PThread) (self : Nat) (schedEvt : Option Nat) : Option (Links Queue PThread) :=
  (threads.cells self).map fun node => threads.put self { node with item.schedEvt := schedEvt }

def removeTimer (state : State) (self : Nat) : State :=
  match (state.threads.cells self).bind fun node => node.item.schedEvt with
  | none => state
  | some timer =>
    if timer ∈ state.timers.map Prod.fst then
      { state with timers := state.timers.filter fun event => event.1 ≠ timer }.withThreads
        (setSchedEvt state.threads self none)
    else state.fail .freedTimer

def addTimer (state : State) (self : Nat) (memory : Bool) : State :=
  if memory then
    { state with timers := state.timers ++ [(state.nextTimer,self)], nextTimer := state.nextTimer + 1 }.withThreads
      (setSchedEvt state.threads self (some state.nextTimer))
  else state

def ptUnblock (state : State) : Option Nat → State
  | none => state
  | some self => state.withThreads (requeueThread state.threads self .ready)

def timedEvtCb (state : State) (self : Nat) : State :=
  state.withThreads do requeueThread (← setSchedEvt state.threads self none) self .ready

def ptBlock (state : State) (arg : Option Nat) : State :=
  if arg ≠ state.threads.heads .curr then state
  else match arg with
    | none => state.fail .null
    | some self => (state.withThreads (requeueThread state.threads self .blocked)).switchBack

def hasTimer (state : State) (self : Nat) : Bool := ((state.threads.cells self).bind fun node => node.item.schedEvt).isSome

def ptWait (state : State) (msecs : Nat) (memory : Bool) : State :=
  match state.threads.heads .curr with
  | none => state
  | some self =>
    if msecs = 0 ∨ state.evt = false then state
    else if hasTimer state self then state.fail .timerSet
    else
      let added := addTimer state self memory
      (added.withThreads (requeueThread added.threads self .blocked)).switchBack

def ptCreate (state : State) (memory : Bool) : State :=
  if memory = false then state.fail .null
  else state.withThreads (enqueueThread (state.threads.alloc ⟨⟨none,none⟩,none⟩) state.threads.fresh .ready)

def tmainWrapper (state : State) (self : Nat) : State :=
  let left := { state.withThreads (dequeueThread state.threads self) with goner := some self }
  (removeTimer left self).switchBack

def ptDestroy (state : State) : Option Nat → State
  | none => state
  | some self =>
    let state := removeTimer state self
    let left := state.withThreads (dequeueThread state.threads self)
    if state.threads.heads .curr = some self then { left with goner := some self }.switchBack
    else { left with threads := left.threads.free self }

def runNext (state : State) : State :=
  match state.threads.heads .ready with
  | none => state
  | some next => { state.withThreads (requeueThread state.threads next .curr) with place := .thread next }

def runBack (state : State) : State :=
  let state := { state with place := .main }
  if (state.threads.heads .curr).isSome then state.fail .currentLeft
  else match state.goner with
    | none => state
    | some goner => { state with threads := state.threads.free goner, goner := none }

inductive Act where
  | create (memory : Bool)
  | block (arg : Option Nat)
  | unblock (arg : Option Nat)
  | wait (msecs : Nat) (memory : Bool)
  | destroy (arg : Option Nat)
  | timer (number : Nat)
  | ret
  | run
  deriving DecidableEq, Repr

/- Timers and PT_run_all belong to the main context, a return to a thread; when a thread has
switched back, PT_run_all goes on and nothing else does. -/
def step (state : State) (act : Act) : State :=
  if state.stop.isSome then state
  else match state.place,act with
    | .back,.run => runBack state
    | .back,_ => state
    | _,.create memory => ptCreate state memory
    | _,.block arg => ptBlock state arg
    | _,.unblock arg => ptUnblock state arg
    | _,.wait msecs memory => ptWait state msecs memory
    | _,.destroy arg => ptDestroy state arg
    | .main,.timer number =>
      match state.timers.find? fun event => event.1 = number with
      | none => state
      | some event => timedEvtCb { state with timers := state.timers.filter fun event => event.1 ≠ number } event.2
    | .main,.run => runNext state
    | .thread self,.ret => tmainWrapper state self
    | _,_ => state

def Live (state : State) (thread : Nat) : Prop := (state.threads.cells thread).isSome = true

def Valid (state : State) : Act → Prop
  | .unblock (some thread) => Live state thread ∧ state.place ≠ .thread thread
  | .destroy (some thread) => Live state thread
  | _ => True

/- Each thread is on one list, the one its head field names, or is the goner; every list ends and
has no freed thread. -/
structure Kept (state : State) (lists : Queue → List Nat) : Prop where
  listed : ∀ q, state.threads.Lists q (lists q)
  distinct : ∀ q, (lists q).Nodup
  live : ∀ q, ∀ thread ∈ lists q, Live state thread
  named : ∀ q, ∀ thread ∈ lists q, ((state.threads.cells thread).bind fun node => node.item.head) = some q
  placed : ∀ thread, Live state thread →
    (state.goner = some thread ∧ ∀ q, thread ∉ lists q) ∨ (state.goner ≠ some thread ∧ ∃! q, thread ∈ lists q)
  asserted : state.stop ≠ some .currentLeft ∧ state.stop ≠ some .freedThread ∧ state.stop ≠ some .freedTimer

def itemOf (threads : Links Queue PThread) (thread : Nat) : Option PThread := (threads.cells thread).map Cell.item

structure Shelved (threads : Links Queue PThread) (lists : Queue → List Nat) : Prop where
  layout : Layout threads lists
  bounded : threads.Bounded
  heads : ∀ thread item, itemOf threads thread = some item → ∀ q, item.head = some q ↔ thread ∈ lists q

structure Touches (threads threads' : Links Queue PThread) (who : Nat) (item : PThread) : Prop where
  fresh : threads'.fresh = threads.fresh
  own : itemOf threads' who = some item
  others : ∀ thread ≠ who, itemOf threads' thread = itemOf threads thread

section
variable {threads threads' : Links Queue PThread} {lists : Queue → List Nat} {self : Nat} {item : PThread} {q : Queue}

theorem itemCell {thread : Nat} (is : itemOf threads thread = some item) : ∃ next, threads.cells thread = some ⟨item,next⟩ := by
  obtain ⟨cell,there,same⟩ := Option.map_eq_some_iff.mp is
  exact ⟨cell.next,by rw [there, ← same]⟩

theorem cellItem {thread : Nat} {node : Cell PThread} (there : threads.cells thread = some node) :
    itemOf threads thread = some node.item := by rw [itemOf, there, Option.map_some]

theorem Shelved.member (shelved : Shelved threads lists) {thread : Nat} (member : thread ∈ lists q) :
    ∃ item, itemOf threads thread = some item ∧ item.head = some q := by
  obtain ⟨cell,there⟩ := (shelved.layout.listed q).cell member
  have is := cellItem there
  exact ⟨cell.item,is,(shelved.heads thread _ is q).mpr member⟩

theorem touchesPut (threads : Links Queue PThread) (self : Nat) (cell : Cell PThread) :
    Touches threads (threads.put self cell) self cell.item :=
  ⟨rfl,cellItem (putSelf _ _ _),fun thread apart => by rw [itemOf, putOther threads cell apart, itemOf]⟩

theorem Touches.trans {item' : PThread} {threads'' : Links Queue PThread} (first : Touches threads threads' self item)
    (second : Touches threads' threads'' self item') : Touches threads threads'' self item' :=
  ⟨second.fresh.trans first.fresh,second.own,fun thread apart => (second.others thread apart).trans (first.others thread apart)⟩

theorem dequeues (shelved : Shelved threads lists) (is : itemOf threads self = some item) :
    ∃ threads', dequeueThread threads self = some threads' ∧ Shelved threads' (fun q => (lists q).erase self) ∧
      Touches threads threads' self { item with head := none } := by
  obtain ⟨next,there⟩ := itemCell is
  cases named : item.head with
  | none =>
    have away : ∀ q, self ∉ lists q := fun q member => by
      have := (shelved.heads self item is q).mpr member
      rw [named] at this
      cases this
    have same : (fun q => (lists q).erase self) = lists := funext fun q => List.erase_of_not_mem (away q)
    refine ⟨threads,?_,same.symm ▸ shelved,rfl,?_,fun _ _ => rfl⟩
    · simp only [dequeueThread,there,named,Option.bind_eq_bind,Option.bind_some]
    · rw [is, ← named]
  | some head =>
    have member := (shelved.heads self item is head).mp named
    obtain ⟨before,after,split⟩ := List.append_of_mem member
    have listed := shelved.layout.listed head
    rw [split] at listed
    have once : self ∉ before := fun inside =>
      (List.nodup_append.mp listed.nodup).2.2 self inside self List.mem_cons_self rfl
    have passes : ∀ other ∈ before, ∀ cell, threads.cells other = some cell → decide (other = self) = false :=
      fun other inside cell _ => decide_eq_false fun same => once (same ▸ inside)
    have found : threads.find (fun address _ => decide (address = self)) (.head head) =
        some ((Slot.head head).after before,some self) :=
      findFound shelved.bounded rfl listed passes there (decide_eq_true rfl)
    obtain ⟨left,stored,layout,relinked,away⟩ := shelved.layout.unlink split there
    have lists' : Function.update lists head (before ++ after) = fun q => (lists q).erase self := by
      funext q
      by_cases own : q = head
      · subst own
        rw [Function.update_self, split, List.erase_append_right _ once, List.erase_cons_head]
      · rw [Function.update_of_ne own, List.erase_of_not_mem (shelved.layout.apart head q (Ne.symm own) self member)]
    rw [lists'] at layout away
    obtain ⟨node,there',same⟩ := Option.map_eq_some_iff.mp ((relinked.items self).trans (cellItem there))
    have touched : Touches threads (left.put self ⟨{ item with head := none },none⟩) self { item with head := none } := by
      refine ⟨relinked.fresh,cellItem (putSelf _ _ _),fun thread apart => ?_⟩
      rw [itemOf, putOther left _ apart, relinked.items, itemOf]
    refine ⟨left.put self ⟨{ item with head := none },none⟩,?_,⟨layout.put away _,?_,?_⟩,touched⟩
    · simp only [dequeueThread,there,named,found,stored,there',same,Option.bind_eq_bind,Option.bind_some]
    · exact putBounded there' (relinked.bounded shelved.bounded) _
    · intro thread other is' q
      by_cases own : thread = self
      · subst own
        rw [touched.own] at is'
        cases is'
        exact iff_of_false nofun (away q)
      · rw [touched.others thread own] at is'
        rw [List.mem_erase_of_ne own]
        exact shelved.heads thread other is' q

theorem enqueues (shelved : Shelved threads lists) (is : itemOf threads self = some item) (away : ∀ q, self ∉ lists q) (q : Queue) :
    ∃ threads', enqueueThread threads self q = some threads' ∧ Shelved threads' (Function.update lists q (self :: lists q)) ∧
      Touches threads threads' self { item with head := some q } := by
  obtain ⟨next,there⟩ := itemCell is
  have touched : Touches threads (threads.enqueue q self { item with head := some q }) self { item with head := some q } :=
    ⟨rfl,cellItem (putSelf _ _ _),fun thread apart => by
      rw [itemOf, itemOf]
      exact congrArg _ (putOther threads _ apart)⟩
  refine ⟨_,by simp only [enqueueThread,there,Option.bind_eq_bind,Option.bind_some],⟨shelved.layout.enqueue away q _,?_,?_⟩,touched⟩
  · exact putBounded there shelved.bounded _
  · intro thread other is' q'
    by_cases own : thread = self
    · subst own
      rw [touched.own] at is'
      cases is'
      by_cases here : q' = q
      · subst here
        simp
      · rw [Function.update_of_ne here]
        exact iff_of_false (fun same => here (Option.some.inj same).symm) (away q')
    · rw [touched.others thread own] at is'
      rw [shelved.heads thread other is' q']
      by_cases here : q' = q
      · subst here
        rw [Function.update_self, List.mem_cons, or_iff_right own]
      · rw [Function.update_of_ne here]

def moved (lists : Queue → List Nat) (self : Nat) (q : Queue) : Queue → List Nat :=
  Function.update (fun q => (lists q).erase self) q (self :: (lists q).erase self)

theorem requeues (shelved : Shelved threads lists) (is : itemOf threads self = some item) (q : Queue) :
    ∃ threads', requeueThread threads self q = some threads' ∧ Shelved threads' (moved lists self q) ∧
      Touches threads threads' self { item with head := some q } := by
  obtain ⟨middle,first,shelved',touched⟩ := dequeues shelved is
  have away : ∀ q, self ∉ (lists q).erase self := fun q => (shelved.layout.listed q).nodup.not_mem_erase
  obtain ⟨last,second,shelved'',touched'⟩ := enqueues shelved' touched.own away q
  refine ⟨last,?_,shelved'',touched.trans touched'⟩
  rw [requeueThread, first]
  exact second

end

structure Core (threads : Links Queue PThread) (goner : Option Nat) (timers : List (Nat × Nat)) (nextTimer : Nat)
    (lists : Queue → List Nat) : Prop where
  shelved : Shelved threads lists
  placed : ∀ thread item, itemOf threads thread = some item → (∃ q, thread ∈ lists q) ∨ goner = some thread
  gone : ∀ thread, goner = some thread → (itemOf threads thread).isSome = true ∧ ∀ q, thread ∉ lists q
  timed : ∀ timer thread, (timer,thread) ∈ timers ↔ ((itemOf threads thread).bind fun item => item.schedEvt) = some timer
  single : (timers.map Prod.fst).Nodup
  numbers : ∀ event ∈ timers, event.1 < nextTimer

section
variable {threads : Links Queue PThread} {goner : Option Nat} {timers : List (Nat × Nat)} {nextTimer : Nat}
  {lists : Queue → List Nat} {self : Nat} {item : PThread} {q : Queue}

theorem movedMember {thread : Nat} : (∃ q', thread ∈ moved lists self q q') ↔ thread = self ∨ ∃ q', thread ∈ (lists q').erase self := by
  constructor
  · rintro ⟨q',member⟩
    by_cases here : q' = q
    · subst here
      rw [moved, Function.update_self] at member
      rcases List.mem_cons.mp member with own | old
      · exact .inl own
      · exact .inr ⟨q',old⟩
    · rw [moved, Function.update_of_ne here] at member
      exact .inr ⟨q',member⟩
  · rintro (own | ⟨q',old⟩)
    · exact ⟨q,by rw [moved, Function.update_self, own]; exact List.mem_cons_self⟩
    · by_cases here : q' = q
      · subst here
        exact ⟨q',by rw [moved, Function.update_self]; exact List.mem_cons_of_mem _ old⟩
      · exact ⟨q',by rw [moved, Function.update_of_ne here]; exact old⟩

theorem Core.timedTouched (core : Core threads goner timers nextTimer lists) {threads' : Links Queue PThread} {after : PThread}
    (is : itemOf threads self = some item) (touched : Touches threads threads' self after) (same : after.schedEvt = item.schedEvt)
    (timer thread : Nat) :
    (timer,thread) ∈ timers ↔ ((itemOf threads' thread).bind fun item => item.schedEvt) = some timer := by
  rw [core.timed]
  by_cases own : thread = self
  · rw [own, is, touched.own, Option.bind_some, Option.bind_some, same]
  · rw [touched.others thread own]

theorem Core.requeue (core : Core threads goner timers nextTimer lists) (is : itemOf threads self = some item)
    (stays : goner ≠ some self) (q : Queue) : ∃ threads', requeueThread threads self q = some threads' ∧
      Core threads' goner timers nextTimer (moved lists self q) ∧ Touches threads threads' self { item with head := some q } := by
  obtain ⟨threads',done,shelved,touched⟩ := requeues core.shelved is q
  refine ⟨threads',done,⟨shelved,fun thread item' is' => ?_,fun thread gone => ?_,?_,core.single,core.numbers⟩,touched⟩
  · rw [movedMember]
    by_cases own : thread = self
    · exact .inl (.inl own)
    · rw [touched.others thread own] at is'
      rcases core.placed thread item' is' with ⟨q',member⟩ | gone
      · exact .inl (.inr ⟨q',(List.mem_erase_of_ne own).mpr member⟩)
      · exact .inr gone
  · have other : thread ≠ self := fun own => stays (own ▸ gone)
    obtain ⟨live,away⟩ := core.gone thread gone
    refine ⟨by rw [touched.others thread other]; exact live,fun q' member => ?_⟩
    rcases movedMember.mp ⟨q',member⟩ with own | ⟨q'',old⟩
    · exact other own
    · exact away q'' (List.mem_of_mem_erase old)
  · exact core.timedTouched is touched rfl

theorem Core.retire (core : Core threads none timers nextTimer lists) (is : itemOf threads self = some item) :
    ∃ threads', dequeueThread threads self = some threads' ∧
      Core threads' (some self) timers nextTimer (fun q => (lists q).erase self) ∧
      Touches threads threads' self { item with head := none } := by
  obtain ⟨threads',done,shelved,touched⟩ := dequeues core.shelved is
  refine ⟨threads',done,⟨shelved,fun thread item' is' => ?_,fun thread gone => ?_,?_,core.single,core.numbers⟩,touched⟩
  · by_cases own : thread = self
    · exact .inr (by rw [own])
    · rw [touched.others thread own] at is'
      rcases core.placed thread item' is' with ⟨q',member⟩ | gone
      · exact .inl ⟨q',(List.mem_erase_of_ne own).mpr member⟩
      · cases gone
  · cases gone
    exact ⟨by rw [touched.own]; rfl,fun q => (core.shelved.layout.listed q).nodup.not_mem_erase⟩
  · exact core.timedTouched is touched rfl

theorem Core.release (core : Core threads (some self) timers nextTimer lists) (is : itemOf threads self = some item)
    (untimed : item.schedEvt = none) : Core (threads.free self) none timers nextTimer lists := by
  obtain ⟨-,away⟩ := core.gone self rfl
  have own : itemOf (threads.free self) self = none := by
    rw [itemOf, Option.map_eq_none_iff]
    exact Function.update_self _ _ _
  have others : ∀ thread ≠ self, itemOf (threads.free self) thread = itemOf threads thread :=
    fun thread apart => by rw [itemOf, freeOther threads apart, itemOf]
  refine ⟨⟨core.shelved.layout.free away,freeBounded core.shelved.bounded _,fun thread item' is' => ?_⟩,
    fun thread item' is' => ?_,nofun,fun timer thread => ?_,core.single,core.numbers⟩
  · have other : thread ≠ self := by
      rintro rfl
      rw [own] at is'
      cases is'
    rw [others thread other] at is'
    exact core.shelved.heads thread item' is'
  · have other : thread ≠ self := by
      rintro rfl
      rw [own] at is'
      cases is'
    rw [others thread other] at is'
    rcases core.placed thread item' is' with member | gone
    · exact .inl member
    · exact absurd (Option.some.inj gone).symm other
  · rw [core.timed]
    by_cases same : thread = self
    · rw [same, own, is, Option.bind_some, untimed, Option.bind_none]
    · rw [others thread same]

theorem Core.setTimer (core : Core threads goner timers nextTimer lists) (is : itemOf threads self = some item)
    (schedEvt : Option Nat) {timers' : List (Nat × Nat)} {nextTimer' : Nat}
    (others : ∀ timer thread, thread ≠ self → ((timer,thread) ∈ timers' ↔ (timer,thread) ∈ timers))
    (own : ∀ timer, (timer,self) ∈ timers' ↔ schedEvt = some timer) (single : (timers'.map Prod.fst).Nodup)
    (numbers : ∀ event ∈ timers', event.1 < nextTimer') :
    ∃ threads', setSchedEvt threads self schedEvt = some threads' ∧ Core threads' goner timers' nextTimer' lists ∧
      Touches threads threads' self { item with schedEvt := schedEvt } ∧ threads'.heads = threads.heads := by
  obtain ⟨next,there⟩ := itemCell is
  have touched := touchesPut threads self ⟨{ item with schedEvt := schedEvt },next⟩
  have layout : Layout (threads.put self ⟨{ item with schedEvt := schedEvt },next⟩) lists :=
    ⟨fun q => putFrame there rfl (core.shelved.layout.listed q),core.shelved.layout.apart⟩
  refine ⟨_,by rw [setSchedEvt, there, Option.map_some],⟨⟨layout,putBounded there core.shelved.bounded _,?_⟩,?_,?_,?_,single,numbers⟩,
    touched,rfl⟩
  · intro thread item' is' q
    by_cases same : thread = self
    · subst same
      rw [touched.own] at is'
      cases is'
      exact core.shelved.heads thread item is q
    · rw [touched.others thread same] at is'
      exact core.shelved.heads thread item' is' q
  · intro thread item' is'
    by_cases same : thread = self
    · exact core.placed thread item (same ▸ is)
    · rw [touched.others thread same] at is'
      exact core.placed thread item' is'
  · intro thread gone
    obtain ⟨live,away⟩ := core.gone thread gone
    refine ⟨?_,away⟩
    by_cases same : thread = self
    · rw [same, touched.own]
      rfl
    · rwa [touched.others thread same]
  · intro timer thread
    by_cases same : thread = self
    · rw [same, touched.own, Option.bind_some, own]
    · rw [touched.others thread same, others timer thread same, core.timed]

theorem Core.create (core : Core threads goner timers nextTimer lists) :
    ∃ threads', enqueueThread (threads.alloc ⟨⟨none,none⟩,none⟩) threads.fresh .ready = some threads' ∧
      Core threads' goner timers nextTimer (Function.update lists .ready (threads.fresh :: lists .ready)) ∧
      ∀ thread item, itemOf threads thread = some item → itemOf threads' thread = some item := by
  have shelved := core.shelved
  have fresh : ∀ q, threads.fresh ∉ lists q := shelved.layout.away (shelved.bounded _ (Nat.le_refl _))
  have absent : itemOf threads threads.fresh = none := by
    rw [itemOf, shelved.bounded _ (Nat.le_refl _), Option.map_none]
  have living : ∀ thread item, itemOf threads thread = some item → thread ≠ threads.fresh := by
    rintro thread item is rfl
    rw [absent] at is
    cases is
  have own : itemOf (threads.alloc ⟨⟨none,none⟩,none⟩) threads.fresh = some ⟨none,none⟩ := cellItem (putSelf _ _ _)
  have others : ∀ thread ≠ threads.fresh, itemOf (threads.alloc ⟨⟨none,none⟩,none⟩) thread = itemOf threads thread :=
    fun thread apart => by rw [itemOf, allocOther _ _ apart, itemOf]
  have shelved' : Shelved (threads.alloc ⟨⟨none,none⟩,none⟩) lists := by
    refine ⟨shelved.layout.alloc shelved.bounded _,allocBounded shelved.bounded _,fun thread item is q => ?_⟩
    by_cases same : thread = threads.fresh
    · rw [same, own] at is
      cases is
      exact iff_of_false nofun (same ▸ fresh q)
    · rw [others thread same] at is
      exact shelved.heads thread item is q
  obtain ⟨threads',done,last,touched⟩ := enqueues shelved' own fresh .ready
  have older : ∀ thread ≠ threads.fresh, itemOf threads' thread = itemOf threads thread :=
    fun thread apart => (touched.others thread apart).trans (others thread apart)
  refine ⟨threads',done,⟨last,fun thread item is => ?_,fun thread gone => ?_,fun timer thread => ?_,core.single,core.numbers⟩,
    fun thread item is => (older thread (living thread item is)).trans is⟩
  · by_cases same : thread = threads.fresh
    · exact .inl ⟨.ready,by rw [Function.update_self, same]; exact List.mem_cons_self⟩
    · rw [older thread same] at is
      rcases core.placed thread item is with ⟨q,member⟩ | gone
      · refine .inl ⟨q,?_⟩
        by_cases here : q = .ready
        · subst here
          rw [Function.update_self]
          exact List.mem_cons_of_mem _ member
        · rwa [Function.update_of_ne here]
      · exact .inr gone
  · obtain ⟨live,away⟩ := core.gone thread gone
    obtain ⟨item,is⟩ := Option.isSome_iff_exists.mp live
    have apart := living thread item is
    refine ⟨by rw [older thread apart]; exact live,fun q member => ?_⟩
    by_cases here : q = .ready
    · subst here
      rw [Function.update_self] at member
      exact (List.mem_cons.mp member).elim apart (away .ready)
    · rw [Function.update_of_ne here] at member
      exact away q member
  · rw [core.timed]
    by_cases same : thread = threads.fresh
    · rw [same, absent, touched.own]
      exact iff_of_false nofun nofun
    · rw [older thread same]

theorem Core.oneThread (core : Core threads goner timers nextTimer lists) {timer thread : Nat} (first : (timer,thread) ∈ timers)
    (second : (timer,self) ∈ timers) : thread = self :=
  congrArg Prod.snd (List.inj_on_of_nodup_map core.single first second rfl)

theorem touchesSelf (is : itemOf threads self = some item) : Touches threads threads self item := ⟨rfl,is,fun _ _ => rfl⟩

theorem Core.dropTimer (core : Core threads goner timers nextTimer lists) (is : itemOf threads self = some item) {timer : Nat}
    (set : item.schedEvt = some timer) : ∃ threads', setSchedEvt threads self none = some threads' ∧
      Core threads' goner (timers.filter fun event => event.1 ≠ timer) nextTimer lists ∧
      Touches threads threads' self { item with schedEvt := none } ∧ threads'.heads = threads.heads := by
  have mine : (timer,self) ∈ timers := by rw [core.timed, is, Option.bind_some, set]
  refine core.setTimer is none (fun other thread apart => ?_) (fun other => ?_) ?_ fun event member => ?_
  · rw [List.mem_filter, and_iff_left_iff_imp]
    intro pending
    refine decide_eq_true fun same => apart ?_
    have same : other = timer := same
    exact core.oneThread (same ▸ pending) mine
  · rw [List.mem_filter, core.timed, is, Option.bind_some, set]
    refine iff_of_false ?_ nofun
    rintro ⟨same,differs⟩
    exact of_decide_eq_true differs (Option.some.inj same).symm
  · exact core.single.sublist (List.filter_sublist.map _)
  · exact core.numbers event (List.mem_of_mem_filter member)

end

def currentOf : Place → List Nat
  | .thread self => [self]
  | _ => []

structure Inv (state : State) (lists : Queue → List Nat) : Prop where
  core : Core state.threads state.goner state.timers state.nextTimer lists
  current : lists .curr = currentOf state.place
  waiting : state.place ≠ .back → state.goner = none
  cleared : ∀ thread item, state.goner = some thread → itemOf state.threads thread = some item → item.schedEvt = none
  fine : state.stop ≠ some .currentLeft ∧ state.stop ≠ some .freedThread ∧ state.stop ≠ some .freedTimer

theorem nobodyGone {state : State} {threads : Links Queue PThread} (none_ : state.goner = none) :
    ∀ thread item, state.goner = some thread → itemOf threads thread = some item → item.schedEvt = none := by
  intro thread item gone
  rw [none_] at gone
  cases gone

def headOf (threads : Links Queue PThread) (thread : Nat) : Option Queue := (itemOf threads thread).bind fun item => item.head

def Spares (state after : State) (who : Nat → Prop) : Prop :=
  ∀ thread, ¬who thread → ∀ item, itemOf state.threads thread = some item → itemOf after.threads thread = some item

section
variable {state : State} {lists : Queue → List Nat} {self : Nat} {item : PThread}

theorem headItem {threads : Links Queue PThread} (is : itemOf threads self = some item) : headOf threads self = item.head := by
  rw [headOf, is, Option.bind_some]

theorem Touches.head {threads threads' : Links Queue PThread} (touched : Touches threads threads' self item) :
    headOf threads' self = item.head := headItem touched.own

theorem liveItem : Live state self ↔ ∃ item, itemOf state.threads self = some item := by
  rw [Live, itemOf, ← Option.isSome_iff_exists, Option.isSome_map]

theorem Inv.kept (inv : Inv state lists) : Kept state lists := by
  refine ⟨inv.core.shelved.layout.listed,fun q => (inv.core.shelved.layout.listed q).nodup,fun q thread member => ?_,
    fun q thread member => ?_,fun thread live => ?_,inv.fine⟩
  · obtain ⟨item,is,-⟩ := inv.core.shelved.member member
    exact liveItem.mpr ⟨item,is⟩
  · obtain ⟨item,is,named⟩ := inv.core.shelved.member member
    obtain ⟨next,there⟩ := itemCell is
    rw [there, Option.bind_some, named]
  · obtain ⟨item,is⟩ := liveItem.mp live
    by_cases gone : state.goner = some thread
    · exact .inl ⟨gone,(inv.core.gone thread gone).2⟩
    · obtain ⟨q,member⟩ := (inv.core.placed thread item is).resolve_right gone
      refine .inr ⟨gone,q,member,fun q' member' => ?_⟩
      by_contra other
      exact inv.core.shelved.layout.apart q' q other thread member' member

theorem Inv.currHead (inv : Inv state lists) : state.threads.heads .curr = (currentOf state.place).head? := by
  rw [← inv.current]
  exact listHead (inv.core.shelved.layout.listed .curr)

theorem Inv.fail (inv : Inv state lists) {why : Stop} (right : why = .null ∨ why = .timerSet) : Inv (state.fail why) lists := by
  refine ⟨inv.core,inv.current,inv.waiting,inv.cleared,?_⟩
  rcases right with rfl | rfl <;> exact ⟨nofun,nofun,nofun⟩

theorem timerRemoved (core : Core state.threads state.goner state.timers state.nextTimer lists)
    (is : itemOf state.threads self = some item) :
    ∃ threads timers, removeTimer state self = { state with threads := threads, timers := timers } ∧
      Core threads state.goner timers state.nextTimer lists ∧
      Touches state.threads threads self { item with schedEvt := none } ∧ threads.heads = state.threads.heads := by
  obtain ⟨next,there⟩ := itemCell is
  unfold removeTimer
  rw [there, Option.bind_some]
  cases set : item.schedEvt with
  | none => exact ⟨state.threads,state.timers,rfl,core,by rw [← set]; exact touchesSelf is,rfl⟩
  | some timer =>
    obtain ⟨threads,done,core',touched,heads⟩ := core.dropTimer is set
    have pending : timer ∈ state.timers.map Prod.fst := by
      refine List.mem_map_of_mem (a := (timer,self)) ?_
      rw [core.timed, is, Option.bind_some, set]
    dsimp only
    rw [if_pos pending, done]
    exact ⟨threads,_,rfl,core',touched,heads⟩

theorem timerAdded (core : Core state.threads state.goner state.timers state.nextTimer lists)
    (is : itemOf state.threads self = some item) (unset : item.schedEvt = none) (memory : Bool) :
    ∃ threads timers nextTimer item', addTimer state self memory =
        { state with threads := threads, timers := timers, nextTimer := nextTimer } ∧
      Core threads state.goner timers nextTimer lists ∧ Touches state.threads threads self item' ∧
      threads.heads = state.threads.heads := by
  unfold addTimer
  cases memory with
  | false => exact ⟨state.threads,state.timers,state.nextTimer,item,rfl,core,touchesSelf is,rfl⟩
  | true =>
    have others : ∀ timer thread, thread ≠ self →
        ((timer,thread) ∈ state.timers ++ [(state.nextTimer,self)] ↔ (timer,thread) ∈ state.timers) := by
      intro timer thread apart
      simp [apart]
    have own : ∀ timer, (timer,self) ∈ state.timers ++ [(state.nextTimer,self)] ↔ some state.nextTimer = some timer := by
      intro timer
      rw [List.mem_append, core.timed, is, Option.bind_some, unset]
      simp [eq_comm]
    have single : ((state.timers ++ [(state.nextTimer,self)]).map Prod.fst).Nodup := by
      rw [List.map_append]
      refine List.nodup_append.mpr ⟨core.single,List.nodup_singleton _,fun number old number' new same => ?_⟩
      obtain ⟨event,member,rfl⟩ := List.mem_map.mp old
      have last : number' = state.nextTimer := by simpa using new
      have below := core.numbers event member
      omega
    have numbers : ∀ event ∈ state.timers ++ [(state.nextTimer,self)], event.1 < state.nextTimer + 1 := by
      intro event member
      rcases List.mem_append.mp member with old | new
      · exact Nat.lt_succ_of_lt (core.numbers event old)
      · rw [List.mem_singleton.mp new]
        exact Nat.lt_succ_self _
    obtain ⟨threads,done,core',touched,heads⟩ := core.setTimer is (some state.nextTimer) others own single numbers
    rw [if_pos rfl, done]
    exact ⟨threads,_,_,_,rfl,core',touched,heads⟩

theorem timerItem {state : State} (is : itemOf state.threads self = some item) : hasTimer state self = item.schedEvt.isSome := by
  obtain ⟨next,there⟩ := itemCell is
  rw [hasTimer, there, Option.bind_some]

theorem Spares.same (who : Nat → Prop) : Spares state state who := fun _ _ _ is => is

theorem Touches.spares {threads' : Links Queue PThread} {goner : Option Nat} {evt : Bool} {timers : List (Nat × Nat)} {nextTimer : Nat}
    {place : Place} {stop : Option Stop} (touched : Touches state.threads threads' self item) :
    Spares state ⟨threads',goner,evt,timers,nextTimer,place,stop⟩ (· = self) :=
  fun thread other _ is => (touched.others thread other).trans is

theorem createInv (inv : Inv state lists) (memory : Bool) :
    (∃ lists', Inv (ptCreate state memory) lists') ∧ Spares state (ptCreate state memory) fun _ => False := by
  unfold ptCreate
  cases memory with
  | false => exact ⟨⟨lists,inv.fail (.inl rfl)⟩,.same _⟩
  | true =>
    obtain ⟨threads,done,core,older⟩ := inv.core.create
    rw [if_neg (by simp), done]
    refine ⟨⟨_,core,?_,inv.waiting,fun thread item gone is => ?_,inv.fine⟩,fun thread _ item is => older thread item is⟩
    · rw [Function.update_of_ne (by decide)]
      exact inv.current
    · obtain ⟨live,-⟩ := inv.core.gone thread gone
      obtain ⟨item',is'⟩ := Option.isSome_iff_exists.mp live
      have same : some item = some item' := is.symm.trans (older thread item' is')
      cases same
      exact inv.cleared thread item gone is'

theorem movedOther {q q' : Queue} (other : q' ≠ q) (away : self ∉ lists q') : moved lists self q q' = lists q' := by
  rw [moved, Function.update_of_ne other, List.erase_of_not_mem away]

theorem readied {threads : Links Queue PThread} {timers : List (Nat × Nat)} (inv : Inv state lists)
    (working : state.place ≠ .back) (other : state.place ≠ .thread self)
    (core : Core threads state.goner timers state.nextTimer lists) (is : itemOf threads self = some item) :
    ∃ threads', requeueThread threads self .ready = some threads' ∧
      Touches threads threads' self { item with head := some .ready } ∧
      ∃ lists', Inv { state with threads := threads', timers := timers } lists' := by
  have none_ := inv.waiting working
  obtain ⟨threads',done,core',touched⟩ := core.requeue is (by rw [none_]; exact nofun) .ready
  have away : self ∉ lists .curr := by
    rw [inv.current]
    cases place : state.place with
    | main => exact List.not_mem_nil
    | back => exact List.not_mem_nil
    | thread current =>
      intro member
      rw [place] at other
      exact other (by rw [List.mem_singleton.mp member])
  refine ⟨threads',done,touched,_,core',(movedOther (by decide) away).trans inv.current,inv.waiting,nobodyGone none_,inv.fine⟩

theorem unblockInv (inv : Inv state lists) (working : state.place ≠ .back) (live : Live state self)
    (other : state.place ≠ .thread self) :
    (∃ lists', Inv (ptUnblock state (some self)) lists') ∧ Spares state (ptUnblock state (some self)) (· = self) ∧
      headOf (ptUnblock state (some self)).threads self = some .ready := by
  obtain ⟨item,is⟩ := liveItem.mp live
  obtain ⟨threads,done,touched,inv'⟩ := readied inv working other inv.core is
  rw [ptUnblock, done]
  exact ⟨inv',touched.spares,touched.head⟩

theorem currentMoved {current : Nat} (is : lists .curr = [current]) : moved lists current .blocked .curr = [] := by
  rw [moved, Function.update_of_ne (by decide), is, List.erase_cons_head]

theorem currentThread (inv : Inv state lists) (head : state.threads.heads .curr = some self) : state.place = .thread self := by
  rw [inv.currHead] at head
  cases place : state.place with
  | main =>
    rw [place] at head
    cases head
  | back =>
    rw [place] at head
    cases head
  | thread current =>
    rw [place] at head
    cases head
    rfl

theorem suspends {threads : Links Queue PThread} {timers : List (Nat × Nat)} {nextTimer : Nat}
    (inv : Inv state lists) (place : state.place = .thread self)
    (core : Core threads state.goner timers nextTimer lists) (is : itemOf threads self = some item) :
    ∃ threads', requeueThread threads self .blocked = some threads' ∧
      Touches threads threads' self { item with head := some .blocked } ∧
      ∃ lists', Inv { state with threads := threads', timers := timers, nextTimer := nextTimer, place := .back } lists' := by
  have none_ := inv.waiting (by rw [place]; exact nofun)
  obtain ⟨threads',done,core',touched⟩ := core.requeue is (by rw [none_]; exact nofun) .blocked
  have current : lists .curr = [self] := by rw [inv.current, place, currentOf]
  refine ⟨threads',done,touched,_,core',currentMoved current,fun away => absurd rfl away,nobodyGone none_,inv.fine⟩

theorem Inv.currentItem (inv : Inv state lists) (place : state.place = .thread self) :
    ∃ item, itemOf state.threads self = some item ∧ item.head = some .curr := by
  have member : self ∈ lists .curr := by
    rw [inv.current, place, currentOf]
    exact List.mem_cons_self
  exact inv.core.shelved.member member

theorem blockInv (inv : Inv state lists) (arg : Option Nat) :
    (∃ lists', Inv (ptBlock state arg) lists') ∧ Spares state (ptBlock state arg) fun thread => state.place = .thread thread := by
  unfold ptBlock
  by_cases other : arg ≠ state.threads.heads .curr
  · rw [if_pos other]
    exact ⟨⟨lists,inv⟩,.same _⟩
  · rw [if_neg other]
    cases arg with
    | none => exact ⟨⟨lists,inv.fail (.inl rfl)⟩,.same _⟩
    | some self =>
      have place := currentThread inv (not_not.mp other).symm
      obtain ⟨item,is,-⟩ := inv.currentItem place
      obtain ⟨threads,done,touched,inv'⟩ := suspends inv place inv.core is
      dsimp only
      rw [done]
      refine ⟨inv',fun thread apart => touched.spares thread fun same => apart ?_⟩
      rw [place, same]

theorem waitInv (inv : Inv state lists) (msecs : Nat) (memory : Bool) :
    (∃ lists', Inv (ptWait state msecs memory) lists') ∧
      Spares state (ptWait state msecs memory) fun thread => state.place = .thread thread := by
  unfold ptWait
  cases head : state.threads.heads .curr with
  | none => exact ⟨⟨lists,inv⟩,.same _⟩
  | some self =>
    have place := currentThread inv head
    obtain ⟨item,is,-⟩ := inv.currentItem place
    dsimp only
    by_cases idle : msecs = 0 ∨ state.evt = false
    · rw [if_pos idle]
      exact ⟨⟨lists,inv⟩,.same _⟩
    rw [if_neg idle]
    have timed := timerItem is
    by_cases set : hasTimer state self = true
    · rw [if_pos set]
      exact ⟨⟨lists,inv.fail (.inr rfl)⟩,.same _⟩
    · rw [if_neg set]
      rw [timed] at set
      obtain ⟨threads,timers,nextTimer,item',added,core,touched,-⟩ :=
        timerAdded inv.core is (Option.not_isSome_iff_eq_none.mp set) memory
      rw [added]
      obtain ⟨threads',done,touched',inv'⟩ := suspends inv place core touched.own
      dsimp only
      rw [done]
      refine ⟨inv',fun thread apart => (touched.trans touched').spares thread fun same => apart ?_⟩
      rw [place, same]

theorem leavesInv {threads : Links Queue PThread} {timers : List (Nat × Nat)} (inv : Inv state lists)
    (place : state.place = .thread self) (core : Core threads (some self) timers state.nextTimer (fun q => (lists q).erase self))
    (is : itemOf threads self = some item) (untimed : item.schedEvt = none) :
    ∃ lists', Inv { state with threads := threads, timers := timers, goner := some self, place := .back } lists' := by
  refine ⟨_,core,?_,fun away => absurd rfl away,fun thread item' gone is' => ?_,inv.fine⟩
  · have current : lists .curr = [self] := by rw [inv.current, place, currentOf]
    rw [current, List.erase_cons_head]
    rfl
  · cases gone
    have same : some item' = some item := is'.symm.trans is
    cases same
    exact untimed

theorem returnInv (inv : Inv state lists) (place : state.place = .thread self) :
    (∃ lists', Inv (tmainWrapper state self) lists') ∧ Spares state (tmainWrapper state self) (· = self) := by
  obtain ⟨item,is,-⟩ := inv.currentItem place
  have none_ := inv.waiting (by rw [place]; exact nofun)
  have core := inv.core
  rw [none_] at core
  obtain ⟨threads,done,core',touched⟩ := core.retire is
  obtain ⟨threads',timers,removed,core'',touched',-⟩ :=
    @timerRemoved { state with threads := threads, goner := some self } _ self _ core' touched.own
  unfold tmainWrapper
  rw [done]
  dsimp only [State.withThreads]
  rw [removed]
  have left := leavesInv inv place core'' touched'.own rfl
  exact ⟨left,(touched.trans touched').spares⟩

theorem destroyInv (inv : Inv state lists) (working : state.place ≠ .back) (live : Live state self) :
    (∃ lists', Inv (ptDestroy state (some self)) lists') ∧ Spares state (ptDestroy state (some self)) (· = self) ∧
      (state.place ≠ .thread self → itemOf (ptDestroy state (some self)).threads self = none) := by
  obtain ⟨item,is⟩ := liveItem.mp live
  have none_ := inv.waiting working
  obtain ⟨threads,timers,removed,core,touched,heads⟩ := timerRemoved inv.core is
  rw [none_] at core
  obtain ⟨threads',done,core',touched'⟩ := core.retire touched.own
  unfold ptDestroy
  dsimp only
  rw [removed]
  dsimp only
  rw [heads, done]
  by_cases current : state.threads.heads .curr = some self
  · rw [if_pos current]
    have place := currentThread inv current
    have left := leavesInv inv place core' touched'.own rfl
    exact ⟨left,(touched.trans touched').spares,fun other => absurd place other⟩
  · rw [if_neg current]
    have released := core'.release touched'.own rfl
    rw [← none_] at released
    refine ⟨⟨_,released,?_,inv.waiting,nobodyGone none_,inv.fine⟩,fun thread apart item' is' => ?_,fun _ => ?_⟩
    · have away : self ∉ lists .curr := by
        intro member
        have head := inv.currHead
        rw [inv.current] at member
        cases place : state.place with
        | main =>
          rw [place] at member
          cases member
        | back => exact working place
        | thread other =>
          rw [place] at member head
          rw [List.mem_singleton.mp member] at current
          exact current head
      exact (List.erase_of_not_mem away).trans inv.current
    · have kept : itemOf threads' thread = some item' :=
        ((touched.trans touched').others thread apart).trans is'
      rw [← kept, itemOf, itemOf]
      exact congrArg _ (freeOther threads' apart)
    · have gone : (threads'.free self).cells self = none := Function.update_self _ _ _
      rw [itemOf]
      exact congrArg (Option.map Cell.item) gone

theorem timerInv (inv : Inv state lists) (place : state.place = .main) {event : Nat × Nat} (pending : event ∈ state.timers) :
    (∃ lists', Inv (timedEvtCb { state with timers := state.timers.filter fun other => other.1 ≠ event.1 } event.2) lists') ∧
      Spares state (timedEvtCb { state with timers := state.timers.filter fun other => other.1 ≠ event.1 } event.2) (· = event.2) ∧
      headOf (timedEvtCb { state with timers := state.timers.filter fun other => other.1 ≠ event.1 } event.2).threads event.2 =
        some .ready := by
  have set := (inv.core.timed event.1 event.2).mp pending
  obtain ⟨item,is,timed⟩ := Option.bind_eq_some_iff.mp set
  obtain ⟨threads,done,core,touched,-⟩ := inv.core.dropTimer is timed
  obtain ⟨threads',readies,touched',inv'⟩ :=
    readied inv (by rw [place]; exact nofun) (by rw [place]; exact nofun) core touched.own
  unfold timedEvtCb
  simp only [done,readies,Option.bind_eq_bind,Option.bind_some]
  exact ⟨inv',(touched.trans touched').spares,touched'.head⟩

theorem runInv (inv : Inv state lists) (place : state.place = .main) {next : Nat} (head : state.threads.heads .ready = some next) :
    headOf state.threads next = some .ready ∧ (∃ lists', Inv (runNext state) lists') ∧ Spares state (runNext state) (· = next) ∧
      (runNext state).place = .thread next ∧ hasTimer (runNext state) next = hasTimer state next := by
  have first := listHead (inv.core.shelved.layout.listed .ready)
  have member : next ∈ lists .ready := List.mem_of_head? (first ▸ head)
  obtain ⟨item,is,ready⟩ := inv.core.shelved.member member
  have none_ := inv.waiting (by rw [place]; exact nofun)
  obtain ⟨threads,done,core,touched⟩ := inv.core.requeue is (by rw [none_]; exact nofun) .curr
  unfold runNext
  rw [head]
  dsimp only
  rw [done]
  refine ⟨by rw [headItem is, ready],⟨_,core,?_,fun _ => none_,nobodyGone none_,inv.fine⟩,touched.spares,rfl,?_⟩
  · rw [moved, Function.update_self, inv.current, place]
    rfl
  · obtain ⟨after,there⟩ := itemCell touched.own
    rw [timerItem is]
    exact congrArg (fun node => (node.bind fun node : Cell PThread => node.item.schedEvt).isSome) there

theorem backInv (inv : Inv state lists) (place : state.place = .back) :
    (∃ lists', Inv (runBack state) lists') ∧ Spares state (runBack state) fun thread => state.goner = some thread := by
  have current := inv.current
  have head := inv.currHead
  rw [place] at current head
  unfold runBack
  simp only [head,currentOf,List.head?_nil,Option.isSome_none,Bool.false_eq_true,if_false]
  cases gone : state.goner with
  | none =>
    have core := inv.core
    rw [gone] at core
    exact ⟨⟨lists,core,current,fun _ => rfl,nofun,inv.fine⟩,fun _ _ _ is => is⟩
  | some goner =>
    obtain ⟨live,-⟩ := inv.core.gone goner gone
    obtain ⟨item,is⟩ := Option.isSome_iff_exists.mp live
    have core := inv.core
    rw [gone] at core
    refine ⟨⟨lists,core.release is (inv.cleared goner item gone is),current,fun _ => rfl,nofun,inv.fine⟩,
      fun thread apart item' is' => ?_⟩
    have different : thread ≠ goner := fun same => apart (by rw [same])
    rw [← is', itemOf, itemOf]
    exact congrArg _ (freeOther state.threads different)

theorem stepInv (state : State) (act : Act) (inv : ∃ lists, Inv state lists) (valid : Valid state act) :
    ∃ lists, Inv (step state act) lists := by
  obtain ⟨lists,inv⟩ := inv
  unfold step
  split
  · exact ⟨lists,inv⟩
  split
  · exact (backInv inv (by assumption)).1
  · exact ⟨lists,inv⟩
  · exact (createInv inv _).1
  · exact (blockInv inv _).1
  · rename_i arg working
    cases arg with
    | none => exact ⟨lists,inv⟩
    | some thread => exact (unblockInv inv working valid.1 valid.2).1
  · exact (waitInv inv _ _).1
  · rename_i arg working
    cases arg with
    | none => exact ⟨lists,inv⟩
    | some thread => exact (destroyInv inv working valid).1
  · split
    · exact ⟨lists,inv⟩
    · rename_i number place _ event found
      obtain ⟨named,_,_,split,-⟩ := List.find?_eq_some_iff_append.mp found
      have named : event.1 = number := of_decide_eq_true named
      have member : event ∈ state.timers := by simp [split]
      rw [← named]
      exact (timerInv inv place member).1
  · cases head : state.threads.heads .ready with
    | none => exact ⟨lists,by rwa [runNext, head]⟩
    | some next => exact (runInv inv (by assumption) head).2.1
  · exact (returnInv inv (by assumption)).1
  · exact ⟨lists,inv⟩

end

theorem initInv (evt : Bool) : Inv (ptInit evt) (fun _ => []) := by
  have layout : Layout (ptInit evt).threads (fun _ => []) := ⟨fun _ => rfl,fun _ _ _ _ member => absurd member List.not_mem_nil⟩
  exact ⟨⟨⟨layout,fun _ _ => rfl,nofun⟩,nofun,nofun,fun _ _ => ⟨nofun,nofun⟩,List.nodup_nil,nofun⟩,rfl,fun _ => rfl,nofun,
    nofun,nofun,nofun⟩

/- No run of the operations loses a thread or has it twice. -/
theorem threadsKept (evt : Bool) (acts : List Act) (valid : Along step Valid (ptInit evt) acts) :
    ∃ lists, Kept (exec step (ptInit evt) acts) lists := by
  obtain ⟨lists,inv⟩ := valid.invariant stepInv ⟨_,initInv evt⟩
  exact ⟨lists,inv.kept⟩

def waiterDestroyed : List Act :=
  [.create true,.create true,.run,.wait 5 true,.run,.run,.unblock (some 1),.destroy (some 1),.ret,.run]

theorem waiterDestroyedKept : (exec step (ptInit true) (waiterDestroyed.take 9)).goner = some 0 ∧
    ∃ lists, Kept (exec step (ptInit true) waiterDestroyed) lists := by
  refine ⟨by decide +kernel,threadsKept true waiterDestroyed ?_⟩
  refine ⟨trivial,trivial,trivial,trivial,trivial,trivial,⟨?_,?_⟩,?_,trivial,trivial,trivial⟩
  · rfl
  · decide +kernel
  · rfl

end LibProc.PseudoThreads
