import LibProc.FdCallbacks
import LibProc.PseudoThreads

/-! PT_read and PT_write of `pseudo_threads.c`, over the threads and the descriptor registry. Both are
`pt_rw_int`, which registers the thread for EVENT_FD_READ, blocks it, and goes on when it is made
current again, whoever woke it. The call a thread is in stands for its stack. -/
namespace LibProc.ThreadIo
open PseudoThreads LinkedSlots FdRegistry FdCallbacks
open Runs (exec Along)

structure IoCall where
  fd : Nat
  write : Bool
  timeout : Nat
  deriving DecidableEq, Repr

structure Io where
  threads : State
  registry : Registry
  io : Nat → Option IoCall

def fdEvent (thread : Nat) : Callback := ⟨1,none,thread⟩

def Io.init (evt : Bool) (registry : Registry) : Io := ⟨ptInit evt,registry,fun _ => none⟩

inductive Outcome where
  | done
  | wouldBlock
  deriving DecidableEq, Repr

/- The loop of `pt_rw_int` up to the switch. The result of EVT_fd_add is not looked at. -/
def blockOn (s : Io) (self : Nat) (ioCall : IoCall) (memory : Bool) : Io :=
  { registry := (evtFdAdd s.registry ioCall.fd .read (some (fdEvent self).cb) (fdEvent self).arg memory).1,
    threads := (s.threads.withThreads (requeueThread s.threads.threads self .blocked)).switchBack,
    io := Function.update s.io self (some ioCall) }

def ptRwInt (s : Io) (fd : Int) (write : Bool) (timeout : Nat) (timerMemory memory : Bool) : Io :=
  match s.threads.threads.heads .curr with
  | none => s
  | some self =>
    if fd < 0 ∨ s.threads.evt = false then s
    else if 0 < timeout ∧ hasTimer s.threads self = true then { s with threads := s.threads.fail .timerSet }
    else
      let timed := if 0 < timeout then addTimer s.threads self timerMemory else s.threads
      blockOn { s with threads := timed } self ⟨fd.toNat,write,timeout⟩ memory

def resumeIo (s : Io) (self : Nat) (ioCall : IoCall) (outcome : Outcome) (memory : Bool) : Io :=
  if 0 < ioCall.timeout ∧ hasTimer s.threads self = false then { s with io := Function.update s.io self none }
  else
    let removed := { s with threads := removeTimer s.threads self }
    match outcome with
    | .done => { removed with io := Function.update s.io self none }
    | .wouldBlock => blockOn removed self ioCall memory

def runThread (s : Io) (outcome : Outcome) (memory : Bool) : Io :=
  match s.threads.threads.heads .ready with
  | none => s
  | some next =>
    let running := { s with threads := runNext s.threads }
    match s.io next with
    | none => running
    | some ioCall => resumeIo running next ioCall outcome memory

def fdReady (s : Io) (fd : Nat) (event : FdEvent) (keep : Int) : Io :=
  let started := dispatch s.registry fd event
  match started.running,callbackOf s.registry fd event with
  | some run,some callback =>
    if callback = fdEvent callback.arg then
      { s with
        registry := finish started run eventRemove
        threads := s.threads.withThreads (requeueThread s.threads.threads callback.arg .ready) }
    else { s with registry := finish started run keep }
  | _,_ => { s with registry := started }

inductive Act where
  | thread (act : PseudoThreads.Act)
  | run (outcome : Outcome) (memory : Bool)
  | rw (fd : Int) (write : Bool) (timeout : Nat) (timerMemory memory : Bool)
  | ready (fd : Nat) (event : FdEvent) (keep : Int)
  deriving DecidableEq, Repr

def stackOf (threads : State) (io : Nat → Option IoCall) (thread : Nat) : Option IoCall :=
  if (threads.threads.cells thread).isSome then io thread else none

def step (s : Io) (act : Act) : Io :=
  if s.threads.stop.isSome then s
  else match s.threads.place,act with
    | _,.thread .run => s
    | _,.thread act =>
      let threads := PseudoThreads.step s.threads act
      { s with threads := threads, io := stackOf threads s.io }
    | .back,.run _ _ =>
      let threads := runBack s.threads
      { s with threads := threads, io := stackOf threads s.io }
    | .main,.run outcome memory => runThread s outcome memory
    | .thread _,.rw fd write timeout timerMemory memory => ptRwInt s fd write timeout timerMemory memory
    | .main,.ready fd event keep => fdReady s fd event keep
    | _,_ => s

def IoCall.event (ioCall : IoCall) : FdEvent := if ioCall.write then .write else .read

def BlockedIn (s : Io) (thread fd : Nat) (event : FdEvent) : Prop :=
  headOf s.threads.threads thread = some .blocked ∧
    ∃ ioCall, s.io thread = some ioCall ∧ ioCall.fd = fd ∧ ioCall.event = event

def Coherent (s : Io) : Prop := ∀ thread fd event,
  callbackOf s.registry fd event = some (fdEvent thread) ↔ BlockedIn s thread fd event

def Valid (s : Io) : Act → Prop
  | .thread act => PseudoThreads.Valid s.threads act
  | _ => True

def Waits (s : Io) (thread : Nat) : Prop := headOf s.threads.threads thread = some .blocked ∧ (s.io thread).isSome = true

def Registers (s : Io) (fd : Nat) (memory : Bool) : Prop :=
  ((s.registry.view fd).isSome = true ∨ memory = true) ∧ ∀ thread, ¬BlockedIn s thread fd .read

/- A thread leaves a read by the event of its descriptor alone, writes never block, and a read that
blocks is registered and alone on its descriptor. -/
def Safe (s : Io) : Act → Prop
  | .thread (.timer timer) => ∀ thread, (timer,thread) ∈ s.threads.timers → ¬Waits s thread
  | .thread (.unblock (some thread)) => ¬Waits s thread
  | .thread (.destroy (some thread)) => ¬Waits s thread
  | .rw fd write timeout _ memory => ∀ self, s.threads.place = .thread self → 0 ≤ fd → s.threads.evt = true →
      (0 < timeout → hasTimer s.threads self = false) → write = false ∧ Registers s fd.toNat memory
  | .run .wouldBlock memory => ∀ next ioCall, s.threads.threads.heads .ready = some next → s.io next = some ioCall →
      (0 < ioCall.timeout → hasTimer s.threads next = true) → Registers s ioCall.fd memory
  | _ => True

structure Inv (s : Io) : Prop where
  threads : ∃ lists, PseudoThreads.Inv s.threads lists
  registry : FdRuns.Inv s.registry
  still : s.registry.running = none
  reads : ∀ thread ioCall, s.io thread = some ioCall → ioCall.write = false ∧
    (headOf s.threads.threads thread = some .blocked ∨ headOf s.threads.threads thread = some .ready)
  coherent : Coherent s

section
variable {s : Io} {self fd : Nat} {event : FdEvent} {ioCall : IoCall}

theorem headCell {threads : Links Queue PThread} {thread : Nat} {q : Queue} (is : headOf threads thread = some q) :
    ∃ item, itemOf threads thread = some item ∧ item.head = some q := Option.bind_eq_some_iff.mp is

theorem Inv.item (inv : Inv s) {thread : Nat} (is : s.io thread = some ioCall) :
    ∃ item, itemOf s.threads.threads thread = some item := by
  rcases (inv.reads thread ioCall is).2 with blocked | ready
  · obtain ⟨item,there,-⟩ := headCell blocked
    exact ⟨item,there⟩
  · obtain ⟨item,there,-⟩ := headCell ready
    exact ⟨item,there⟩

theorem stackSome {threads : State} {io : Nat → Option IoCall} {thread : Nat} (is : stackOf threads io thread = some ioCall) :
    io thread = some ioCall ∧ itemOf threads.threads thread ≠ none := by
  unfold stackOf at is
  split at is
  · rename_i live
    refine ⟨is,fun absent => ?_⟩
    rw [itemOf, Option.map_eq_none_iff] at absent
    rw [absent] at live
    cases live
  · cases is

theorem stackLive {threads : State} {io : Nat → Option IoCall} {thread : Nat} {item : PThread}
    (is : itemOf threads.threads thread = some item) : stackOf threads io thread = io thread := by
  obtain ⟨next,there⟩ := itemCell is
  rw [stackOf, there]
  rfl

theorem threadsChange (inv : Inv s) {after : State} (good : ∃ lists, PseudoThreads.Inv after lists) {who : Nat → Prop}
    (spares : Spares s.threads after who)
    (touched : ∀ thread, who thread → (s.io thread).isSome = true → headOf s.threads.threads thread = some .ready ∧
      (headOf after.threads thread = some .ready ∨ itemOf after.threads thread = none)) :
    Inv { s with threads := after, io := stackOf after s.io } := by
  have stays : ∀ thread ioCall, s.io thread = some ioCall →
      (headOf after.threads thread = headOf s.threads.threads thread ∧ stackOf after s.io thread = some ioCall) ∨
      (headOf s.threads.threads thread = some .ready ∧ itemOf after.threads thread = none) := by
    intro thread ioCall is
    by_cases meant : who thread
    · obtain ⟨ready,readyOrGone⟩ := touched thread meant (by rw [is]; rfl)
      rcases readyOrGone with ready' | gone
      · obtain ⟨item,there,-⟩ := headCell ready'
        exact .inl ⟨by rw [ready', ready],by rw [stackLive there, is]⟩
      · exact .inr ⟨ready,gone⟩
    · obtain ⟨item,there⟩ := inv.item is
      have there' := spares thread meant item there
      exact .inl ⟨by rw [headItem there, headItem there'],by rw [stackLive there', is]⟩
  refine ⟨good,inv.registry,inv.still,fun thread ioCall is => ?_,fun thread fd event => ?_⟩
  · obtain ⟨old,live⟩ := stackSome is
    rcases stays thread ioCall old with ⟨same,-⟩ | ⟨-,gone⟩
    · rw [same]
      exact inv.reads thread ioCall old
    · exact absurd gone live
  · rw [inv.coherent]
    constructor
    · rintro ⟨blocked,ioCall,is,named⟩
      rcases stays thread ioCall is with ⟨same,is'⟩ | ⟨ready,-⟩
      · exact ⟨same.trans blocked,ioCall,is',named⟩
      · rw [blocked] at ready
        cases ready
    · rintro ⟨blocked,ioCall,is,named⟩
      obtain ⟨old,live⟩ := stackSome is
      rcases stays thread ioCall old with ⟨same,-⟩ | ⟨-,gone⟩
      · exact ⟨same.symm.trans blocked,ioCall,old,named⟩
      · exact absurd gone live

theorem Inv.running (inv : Inv s) (place : s.threads.place = .thread self) : s.io self = none := by
  obtain ⟨lists,good⟩ := inv.threads
  obtain ⟨item,is,current⟩ := good.currentItem place
  cases found : s.io self with
  | none => rfl
  | some ioCall =>
    have head := (inv.reads self ioCall found).2
    rw [headItem is, current] at head
    rcases head with bad | bad <;> cases bad

theorem notWaiting (inv : Inv s) {thread : Nat} (safe : ¬Waits s thread) (some_ : (s.io thread).isSome = true) :
    headOf s.threads.threads thread = some .ready := by
  obtain ⟨ioCall,is⟩ := Option.isSome_iff_exists.mp some_
  exact (inv.reads thread ioCall is).2.resolve_left fun blocked => safe ⟨blocked,some_⟩

theorem threadInv (inv : Inv s) {act : PseudoThreads.Act} (other : act ≠ .run) (valid : PseudoThreads.Valid s.threads act)
    (safe : Safe s (.thread act)) :
    Inv { s with threads := PseudoThreads.step s.threads act, io := stackOf (PseudoThreads.step s.threads act) s.io } := by
  obtain ⟨lists,good⟩ := inv.threads
  have same : Inv { s with threads := s.threads, io := stackOf s.threads s.io } :=
    threadsChange inv ⟨lists,good⟩ (.same fun _ => False) fun _ no => no.elim
  have current : ∀ thread, s.threads.place = .thread thread → (s.io thread).isSome = true → ∀ p : Prop, p := by
    intro thread place some_
    rw [inv.running place] at some_
    cases some_
  unfold PseudoThreads.step
  split
  · exact same
  split
  · exact absurd rfl other
  · exact same
  · obtain ⟨good',spares⟩ := createInv good _
    exact threadsChange inv good' spares fun _ no => no.elim
  · obtain ⟨good',spares⟩ := blockInv good _
    exact threadsChange inv good' spares fun thread place some_ => current thread place some_ _
  · rename_i arg working
    cases arg with
    | none => exact same
    | some thread =>
      obtain ⟨good',spares,ready⟩ := unblockInv good working valid.1 valid.2
      refine threadsChange inv good' spares fun other is some_ => ?_
      rw [show other = thread from is] at some_ ⊢
      exact ⟨notWaiting inv safe some_,.inl ready⟩
  · obtain ⟨good',spares⟩ := waitInv good _ _
    exact threadsChange inv good' spares fun thread place some_ => current thread place some_ _
  · rename_i arg working
    cases arg with
    | none => exact same
    | some thread =>
      obtain ⟨good',spares,gone⟩ := destroyInv good working valid
      refine threadsChange inv good' spares fun other is some_ => ?_
      rw [show other = thread from is] at some_ ⊢
      exact ⟨notWaiting inv safe some_,.inr (gone fun place => current thread place some_ _)⟩
  · split
    · exact same
    · rename_i number place _ event found
      obtain ⟨named,_,_,split,-⟩ := List.find?_eq_some_iff_append.mp found
      have named : event.1 = number := of_decide_eq_true named
      have member : event ∈ s.threads.timers := by simp [split]
      rw [← named]
      obtain ⟨good',spares,ready⟩ := timerInv good place member
      refine threadsChange inv good' spares fun other is some_ => ?_
      rw [show other = event.2 from is] at some_ ⊢
      exact ⟨notWaiting inv (safe event.2 (named ▸ member)) some_,.inl ready⟩
  · exact absurd rfl other
  · rename_i self place
    obtain ⟨good',spares⟩ := returnInv good place
    refine threadsChange inv good' spares fun thread is some_ => ?_
    rw [show thread = self from is] at some_ ⊢
    exact current self place some_ _
  · exact same

theorem backIoInv (inv : Inv s) (place : s.threads.place = .back) :
    Inv { s with threads := runBack s.threads, io := stackOf (runBack s.threads) s.io } := by
  obtain ⟨lists,good⟩ := inv.threads
  obtain ⟨good',spares⟩ := backInv good place
  refine threadsChange inv good' spares fun thread gone some_ => ?_
  obtain ⟨ioCall,is⟩ := Option.isSome_iff_exists.mp some_
  have away := (good.core.gone thread gone).2
  have listed : ∀ q, headOf s.threads.threads thread ≠ some q := by
    intro q head
    obtain ⟨item,there,named⟩ := headCell head
    exact away q ((good.core.shelved.heads thread item there q).mp named)
  exact ((inv.reads thread ioCall is).2.elim (listed .blocked) (listed .ready)).elim

theorem blockOnInv (inv : Inv s) {threads : State} {lists : Queue → List Nat} {item : PThread} {memory : Bool}
    (good : PseudoThreads.Inv s.threads lists) (place : s.threads.place = .thread self)
    (added : ∃ timers nextTimer, threads = { s.threads with threads := threads.threads, timers := timers, nextTimer := nextTimer } ∧
      Core threads.threads s.threads.goner timers nextTimer lists ∧ Touches s.threads.threads threads.threads self item)
    (reads : ioCall.write = false) (registers : Registers s ioCall.fd memory) :
    Inv (blockOn { s with threads := threads } self ioCall memory) := by
  obtain ⟨timers,nextTimer,is,core,touched⟩ := added
  obtain ⟨threads',done,touched',good'⟩ := suspends good place core touched.own
  have both := touched.trans touched'
  have after : (threads.withThreads (requeueThread threads.threads self .blocked)).switchBack =
      { s.threads with threads := threads', timers := timers, nextTimer := nextTimer, place := .back } := by
    rw [done, is]
    rfl
  have placed := inv.registry.sound.placed
  have success : (evtFdAdd s.registry ioCall.fd .read (some (fdEvent self).cb) (fdEvent self).arg memory).2 ≠ -1 := by
    unfold evtFdAdd evtFdAddWithCleanup
    dsimp only
    cases found : s.registry.view ioCall.fd with
    | some node => exact (by decide : (1 : Int) ≠ -1)
    | none =>
      rcases registers.1 with some_ | memory
      · rw [found] at some_
        cases some_
      · rw [memory]
        exact (by decide : (1 : Int) ≠ -1)
  have out := inv.running place
  unfold blockOn
  rw [after]
  refine ⟨good',addInv inv.registry _ _ _ _ _,(addRunning _ _ _ _ _ _).trans inv.still,fun thread other here => ?_,
    fun thread fd event => ?_⟩
  · have here : Function.update s.io self (some ioCall) thread = some other := here
    change other.write = false ∧ (headOf threads' thread = some .blocked ∨ headOf threads' thread = some .ready)
    by_cases own : thread = self
    · subst own
      rw [Function.update_self] at here
      cases here
      exact ⟨reads,.inl both.head⟩
    · rw [Function.update_of_ne own] at here
      obtain ⟨write,head⟩ := inv.reads thread other here
      refine ⟨write,?_⟩
      rw [headOf, both.others thread own]
      exact head
  · rw [addCallback placed success, BlockedIn]
    dsimp only
    by_cases own : thread = self
    · subst own
      rw [Function.update_self, both.head]
      have event' : ioCall.event = .read := by rw [IoCall.event, reads]; rfl
      by_cases here : fd = ioCall.fd ∧ event = .read
      · rw [if_pos here, here.1, here.2]
        exact iff_of_true rfl ⟨rfl,ioCall,rfl,rfl,event'⟩
      · rw [if_neg here, inv.coherent]
        refine iff_of_false ?_ ?_
        · rintro ⟨-,other,was,-⟩
          rw [out] at was
          cases was
        · rintro ⟨-,other,was,named,kind⟩
          cases was
          exact here ⟨named.symm,kind.symm.trans event'⟩
    · rw [Function.update_of_ne own, headOf, both.others thread own, ← headOf]
      by_cases here : fd = ioCall.fd ∧ event = .read
      · rw [if_pos here, here.1, here.2]
        refine iff_of_false (fun same => own ?_) (registers.2 thread)
        exact (congrArg Callback.arg (Option.some.inj same)).symm
      · rw [if_neg here]
        exact inv.coherent thread fd event

theorem rwInv (inv : Inv s) (place : s.threads.place = .thread self) {fd : Int} {write : Bool} {timeout : Nat}
    {timerMemory memory : Bool} (safe : Safe s (.rw fd write timeout timerMemory memory)) :
    Inv (ptRwInt s fd write timeout timerMemory memory) := by
  obtain ⟨lists,good⟩ := inv.threads
  obtain ⟨item,is,-⟩ := good.currentItem place
  have head := good.currHead
  rw [place] at head
  have head : s.threads.threads.heads .curr = some self := head
  unfold ptRwInt
  rw [head]
  dsimp only
  by_cases refused : fd < 0 ∨ s.threads.evt = false
  · rwa [if_pos refused]
  rw [if_neg refused]
  obtain ⟨positive,events⟩ := not_or.mp refused
  by_cases set : 0 < timeout ∧ hasTimer s.threads self = true
  · rw [if_pos set]
    exact ⟨⟨lists,good.fail (.inr rfl)⟩,inv.registry,inv.still,inv.reads,inv.coherent⟩
  rw [if_neg set]
  have unset : 0 < timeout → hasTimer s.threads self = false :=
    fun timed => Bool.eq_false_iff.mpr fun has => set ⟨timed,has⟩
  obtain ⟨reads,registers⟩ := safe self place (Int.not_lt.mp positive) (by simpa using events) unset
  by_cases timed : 0 < timeout
  · rw [if_pos timed]
    have none_ := unset timed
    rw [timerItem is] at none_
    obtain ⟨threads,timers,nextTimer,item',added,core,touched,-⟩ :=
      timerAdded good.core is (Option.not_isSome_iff_eq_none.mp (by rw [none_]; exact Bool.false_ne_true)) timerMemory
    rw [added]
    exact blockOnInv inv good place ⟨timers,nextTimer,rfl,core,touched⟩ reads registers
  · rw [if_neg timed]
    exact blockOnInv inv good place ⟨s.threads.timers,s.threads.nextTimer,rfl,good.core,touchesSelf is⟩ reads registers

theorem Inv.leaves (inv : Inv s) (ready : headOf s.threads.threads self = some .ready) :
    Inv { s with io := Function.update s.io self none } := by
  refine ⟨inv.threads,inv.registry,inv.still,fun thread ioCall is => ?_,fun thread fd event => ?_⟩
  · have is : Function.update s.io self none thread = some ioCall := is
    by_cases own : thread = self
    · rw [own, Function.update_self] at is
      cases is
    · rw [Function.update_of_ne own] at is
      exact inv.reads thread ioCall is
  · rw [inv.coherent, BlockedIn, BlockedIn]
    dsimp only
    by_cases own : thread = self
    · rw [own, ready]
      exact iff_of_false (fun both => by cases both.1) (fun both => by cases both.1)
    · rw [Function.update_of_ne own]

theorem threadsMoved (inv : Inv s) {after : State} (good : ∃ lists, PseudoThreads.Inv after lists)
    (spares : Spares s.threads after (· = self)) (out : s.io self = none) : Inv { s with threads := after } := by
  have changed := threadsChange inv good spares fun thread is some_ => by
    rw [show thread = self from is, out] at some_
    cases some_
  have same : stackOf after s.io = s.io := by
    funext thread
    cases is : s.io thread with
    | none => rw [stackOf, is, ite_self]
    | some ioCall =>
      have apart : thread ≠ self := by
        rintro rfl
        rw [out] at is
        cases is
      obtain ⟨item,there⟩ := inv.item is
      rw [stackLive (spares thread apart item there), is]
  rwa [same] at changed

theorem resumeInv (inv : Inv s) (place : s.threads.place = .thread self) {io : Nat → Option IoCall}
    (out : Function.update io self none = s.io) (outcome : Outcome) (memory : Bool)
    (safe : outcome = .wouldBlock → (0 < ioCall.timeout → hasTimer s.threads self = true) →
      ioCall.write = false ∧ Registers s ioCall.fd memory) :
    Inv (resumeIo { s with io := io } self ioCall outcome memory) := by
  obtain ⟨lists,good⟩ := inv.threads
  obtain ⟨item,is,-⟩ := good.currentItem place
  unfold resumeIo
  by_cases late : 0 < ioCall.timeout ∧ hasTimer s.threads self = false
  · rw [if_pos late]
    dsimp only
    rwa [out]
  rw [if_neg late]
  obtain ⟨threads,timers,removed,core,touched,-⟩ := timerRemoved good.core is
  have none_ := good.waiting (by rw [place]; exact nofun)
  have cleared : PseudoThreads.Inv { s.threads with threads := threads, timers := timers } lists :=
    ⟨core,good.current,good.waiting,PseudoThreads.nobodyGone none_,good.fine⟩
  dsimp only
  rw [removed]
  cases outcome with
  | done =>
    dsimp only
    rw [out]
    exact threadsMoved inv ⟨lists,cleared⟩ touched.spares (inv.running place)
  | wouldBlock =>
    have timed : 0 < ioCall.timeout → hasTimer s.threads self = true :=
      fun positive => by simpa using fun none_ => late ⟨positive,none_⟩
    obtain ⟨reads,registers⟩ := safe rfl timed
    have blocked := @blockOnInv s self ioCall inv { s.threads with threads := threads, timers := timers } lists _ memory good place
      ⟨timers,s.threads.nextTimer,rfl,core,touched⟩ reads registers
    unfold blockOn at blocked ⊢
    rw [← out] at blocked
    simp only [Function.update_idem] at blocked
    exact blocked

theorem runThreadInv (inv : Inv s) (place : s.threads.place = .main) {outcome : Outcome} {memory : Bool}
    (safe : Safe s (.run outcome memory)) : Inv (runThread s outcome memory) := by
  obtain ⟨lists,good⟩ := inv.threads
  unfold runThread
  cases head : s.threads.threads.heads .ready with
  | none => exact inv
  | some next =>
    obtain ⟨ready,good',spares,current,timed⟩ := runInv good place head
    have left := inv.leaves ready
    have running : Inv { s with threads := runNext s.threads, io := Function.update s.io next none } :=
      threadsMoved left good' spares (Function.update_self _ _ _)
    dsimp only
    cases is : s.io next with
    | none =>
      have same : Function.update s.io next none = s.io := by
        rw [← is, Function.update_eq_self]
      rwa [same] at running
    | some ioCall =>
      refine resumeInv running current rfl outcome memory fun again wakes => ?_
      subst again
      have wakes : 0 < ioCall.timeout → hasTimer s.threads next = true := fun positive => timed ▸ wakes positive
      obtain ⟨found,alone⟩ := safe next ioCall head is wakes
      refine ⟨(inv.reads next ioCall is).1,found,fun thread here => alone thread ?_⟩
      rw [← inv.coherent]
      exact (running.coherent thread ioCall.fd .read).mpr here

theorem sameCallback {thread other : Nat} (same : fdEvent thread = fdEvent other) : thread = other := congrArg Callback.arg same

theorem dispatched (inv : Inv s) (fd : Nat) (event : FdEvent) :
    FdRuns.Inv (dispatch s.registry fd event) ∧
      (∀ fd' event', callbackOf (dispatch s.registry fd event) fd' event' = callbackOf s.registry fd' event') ∧
      ((dispatch s.registry fd event).running = none ∨ ∃ run, (dispatch s.registry fd event).running = some run ∧
        run.slot = .link ∧ run.fd = fd ∧ run.event = event ∧ flagOf (dispatch s.registry fd event) fd event = .running ∧
        callbackOf s.registry fd event ≠ none) := by
  have good := inv.registry.dispatch inv.still fd event
  rcases dispatchCases s.registry fd event with ⟨view,running,-⟩ | ⟨node,steps,found,starts⟩
  · refine ⟨good,fun fd' event' => ?_,.inl (running.trans inv.still)⟩
    rw [callbackOf, view, callbackOf]
  · have stepped : FdRuns.Inv { s.registry with stepsToBreak := steps } := inv.registry.frame rfl rfl rfl rfl
    have own : node.fd = fd := FdCoherence.viewFd found
    have here : ({ s.registry with stepsToBreak := steps } : Registry).view node.fd = some node := by
      rw [own]
      exact found
    have begun := startRunning stepped inv.still here event
    refine ⟨good,fun fd' event' => ?_,?_⟩
    · rw [starts]
      exact startCallback stepped inv.still here event event' fd'
    · rw [← starts] at begun
      split at begun
      · rename_i present
        obtain ⟨⟨previous,running⟩,flag⟩ := begun
        rw [own] at running flag
        refine .inr ⟨_,running,rfl,rfl,rfl,flag,fun absent => ?_⟩
        rw [callbackFound found] at absent
        rw [absent] at present
        cases present
      · exact .inl begun

theorem readyInv (inv : Inv s) (place : s.threads.place = .main) (fd : Nat) (event : FdEvent) (keep : Int) :
    Inv (fdReady s fd event keep) := by
  obtain ⟨lists,good⟩ := inv.threads
  obtain ⟨registry,same,outcome⟩ := dispatched inv fd event
  have coherent : ∀ thread fd' event', callbackOf (dispatch s.registry fd event) fd' event' = some (fdEvent thread) ↔
      BlockedIn s thread fd' event' := by
    intro thread fd' event'
    rw [same]
    exact inv.coherent thread fd' event'
  unfold fdReady
  dsimp only
  rcases outcome with quiet | ⟨run,running,link,named,kind,flag,present⟩
  · rw [quiet]
    exact ⟨⟨lists,good⟩,registry,quiet,inv.reads,coherent⟩
  rw [running]
  have finished : ∀ keep, FdRuns.Inv (finish (dispatch s.registry fd event) run keep) :=
    fun keep => registry.finish running (.inl link)
  have left : ∀ keep fd' event', callbackOf (finish (dispatch s.registry fd event) run keep) fd' event' =
      if (fd' = fd ∧ event' = event) ∧ keep = eventRemove then none else callbackOf s.registry fd' event' := by
    intro keep fd' event'
    rw [finishCallback registry running link, named, kind, flag, same]
    simp only [removalAsked,reduceCtorEq,decide_false,decide_true,Bool.and_true,Bool.false_or,decide_eq_true_eq]
  cases found : callbackOf s.registry fd event with
  | none => exact absurd found present
  | some callback =>
    dsimp only
    split
    · rename_i ours
      rw [ours] at found
      have here := (inv.coherent callback.arg fd event).mp found
      obtain ⟨item,is,-⟩ := headCell here.1
      have working : s.threads.place ≠ .back := by rw [place]; exact fun same => by cases same
      have other : s.threads.place ≠ .thread callback.arg := by rw [place]; exact fun same => by cases same
      obtain ⟨threads,done,touched,good'⟩ := readied good working other good.core is
      rw [done]
      refine ⟨good',finished _,rfl,fun thread ioCall was => ?_,fun thread fd' event' => ?_⟩
      · change ioCall.write = false ∧ (headOf threads thread = some .blocked ∨ headOf threads thread = some .ready)
        obtain ⟨reads,head⟩ := inv.reads thread ioCall was
        refine ⟨reads,?_⟩
        by_cases own : thread = callback.arg
        · rw [own]
          exact .inr touched.head
        · rwa [headOf, touched.others thread own]
      · rw [left, BlockedIn]
        change _ ↔ headOf threads thread = some .blocked ∧ _
        by_cases own : thread = callback.arg
        · rw [own, touched.head]
          refine iff_of_false (fun other => ?_) (fun both => by cases both.1)
          split at other
          · cases other
          · rename_i apart
            obtain ⟨-,ioCall,first,fdName,eventName⟩ := here
            obtain ⟨-,ioCall',second,fdName',eventName'⟩ := (inv.coherent callback.arg fd' event').mp other
            rw [first] at second
            cases second
            exact apart ⟨⟨fdName'.symm.trans fdName,eventName'.symm.trans eventName⟩,rfl⟩
        · rw [headOf, touched.others thread own, ← headOf]
          refine Iff.trans ?_ (inv.coherent thread fd' event')
          split
          · rename_i both
            refine iff_of_false (fun absent => by cases absent) fun other => own ?_
            rw [both.1.1, both.1.2, found] at other
            exact (sameCallback (Option.some.inj other)).symm
          · rfl
    · rename_i theirs
      refine ⟨⟨lists,good⟩,finished keep,rfl,inv.reads,fun thread fd' event' => ?_⟩
      refine Iff.trans ?_ (inv.coherent thread fd' event')
      rw [left]
      split
      · rename_i both
        refine iff_of_false (fun absent => by cases absent) fun other => theirs ?_
        rw [both.1.1, both.1.2, found] at other
        rw [Option.some.inj other]
        rfl
      · rfl

theorem stepInv (s : Io) (act : Act) (inv : Inv s) (ok : Valid s act ∧ Safe s act) : Inv (step s act) := by
  obtain ⟨valid,safe⟩ := ok
  unfold step
  split
  · exact inv
  split
  · exact inv
  · rename_i other
    exact threadInv inv other valid safe
  · exact backIoInv inv (by assumption)
  · exact runThreadInv inv (by assumption) safe
  · exact rwInv inv (by assumption) safe
  · exact readyInv inv (by assumption) _ _ _
  · exact inv

end

structure Free (registry : Registry) : Prop where
  inv : FdRuns.Inv registry
  still : registry.running = none
  none_ : ∀ thread fd event, callbackOf registry fd event ≠ some (fdEvent thread)

theorem initInv (evt : Bool) {registry : Registry} (free : Free registry) : Inv (.init evt registry) := by
  refine ⟨⟨_,PseudoThreads.initInv evt⟩,free.inv,free.still,nofun,fun thread fd event => ?_⟩
  refine iff_of_false (free.none_ thread fd event) ?_
  rintro ⟨-,ioCall,is,-⟩
  cases is

/- In a run of safe steps a thread is registered just while it is blocked in its read. -/
theorem registrationsCoherent (evt : Bool) {registry : Registry} (free : Free registry) (acts : List Act)
    (safe : Along step (fun s act => Valid s act ∧ Safe s act) (.init evt registry) acts) :
    Coherent (exec step (.init evt registry) acts) :=
  (safe.invariant stepInv (initInv evt free)).coherent

theorem createFree (hashSize : Nat) : Free (evtCreateHandler hashSize) :=
  ⟨FdRuns.createInv hashSize,rfl,fun _ _ _ => nofun⟩

def start : Io := .init true (evtCreateHandler 19)

def opened (write : Bool) (timeout : Nat) : List Act :=
  [.thread (.create true),.run .done true,.rw 5 write timeout true true]

def readOnce : List Act := opened false 0 ++ [.run .done true,.ready 5 .read eventKeep,.run .done true,.thread .ret]

theorem readOnceCoherent : callbackOf (exec step start (opened false 0)).registry 5 .read = some (fdEvent 0) ∧
    Coherent (exec step start readOnce) := by
  refine ⟨by decide +kernel,registrationsCoherent true (createFree 19) readOnce ?_⟩
  refine ⟨⟨trivial,trivial⟩,⟨trivial,trivial⟩,⟨trivial,?_⟩,⟨trivial,trivial⟩,⟨trivial,trivial⟩,⟨trivial,trivial⟩,
    ⟨trivial,trivial⟩,trivial⟩
  intro self _ _ _ _
  refine ⟨rfl,.inr rfl,?_⟩
  rintro thread ⟨-,ioCall,is,-⟩
  have none_ : stackOf _ (fun _ => none) thread = some ioCall := is
  rw [stackOf, ite_self] at none_
  cases none_

/- PT_write waits for EVENT_FD_READ, and a thread that timed out is still registered. -/
theorem registrationsStale : ¬Coherent (exec step start (opened true 0)) ∧
    ¬Coherent (exec step start (opened false 10 ++ [.run .done true,.thread (.timer 0)])) := by
  refine ⟨fun coherent => ?_,fun coherent => ?_⟩
  · have registered : callbackOf (exec step start (opened true 0)).registry 5 .read = some (fdEvent 0) := by decide +kernel
    obtain ⟨-,ioCall,is,-,kind⟩ := (coherent 0 5 .read).mp registered
    cases is
    cases kind
  · have registered : callbackOf (exec step start (opened false 10 ++ [.run .done true,.thread (.timer 0)])).registry 5 .read =
        some (fdEvent 0) := by decide +kernel
    have ready : headOf (exec step start (opened false 10 ++ [.run .done true,.thread (.timer 0)])).threads.threads 0 =
        some .ready := by decide +kernel
    have blocked := ((coherent 0 5 .read).mp registered).1
    rw [ready] at blocked
    cases blocked

end LibProc.ThreadIo
