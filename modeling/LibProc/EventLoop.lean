import LibProc.Runs
import Mathlib.Data.List.Nodup

/-! The control flow of EVT_start_loop_auto_exit and the deferred events. Which callbacks
run in a phase, and what select returns, is the environment's choice; a callback or a
pseudo thread acts on the loop by deferring, cancelling and asking it to end. Only the
end of a pass drains the deferred list, and the loop has ways out that do not get there. -/
namespace LibProc.EventLoop
open Runs

/- A deferred event; its key is what EVT_defer_add returned, and a cancelled one has no
callback left. -/
structure DeferredEvent where
  key : Nat
  cb : Bool
  deriving DecidableEq, Repr

inductive LoopPc where
  | entry
  | head
  | threads
  | stepping
  | blocking
  | timed (retval : Int)
  | ready
  | cleaning
  | draining
  | running
  | tail
  | returned (retval : Int)
  deriving DecidableEq, Repr

structure Loop where
  inLoop : Bool
  keepGoing : Bool
  deferred : List DeferredEvent
  fresh : Nat
  added : List Nat
  cancelled : List Nat
  called : List Nat
  pc : LoopPc
  deriving DecidableEq, Repr

def evtDeferAdd (loop : Loop) : Loop :=
  if loop.inLoop then
    { loop with
      deferred := ⟨loop.fresh,true⟩ :: loop.deferred
      fresh := loop.fresh + 1, added := loop.fresh :: loop.added }
  else { loop with fresh := loop.fresh + 1, called := loop.fresh :: loop.called }

def disarm (key : Nat) (event : DeferredEvent) : DeferredEvent :=
  if event.key = key then { event with cb := false } else event

/- A key is good while its event is in the list: the loop frees the event after its call. -/
def evtDeferCancel (loop : Loop) (key : Nat) : Loop :=
  if key ∈ loop.deferred.map DeferredEvent.key then
    { loop with deferred := loop.deferred.map (disarm key), cancelled := key :: loop.cancelled }
  else loop

def evtExitLoop (loop : Loop) : Loop := { loop with keepGoing := false }

inductive CallbackAct where
  | deferAdd
  | deferCancel (key : Nat)
  | exitLoop
  deriving DecidableEq, Repr

def callbackAct (loop : Loop) : CallbackAct → Loop
  | .deferAdd => evtDeferAdd loop
  | .deferCancel key => evtDeferCancel loop key
  | .exitLoop => evtExitLoop loop

def evtExitFd : Nat := 1
def evtExitSched : Nat := 2

def autoExits (autoExit : Nat) (criticalSched criticalFd : Int) : Bool :=
  let remainingWork := (if 0 < criticalSched then evtExitSched else 0) |||
    (if 0 < criticalFd then evtExitFd else 0)
  autoExit ≠ 0 && autoExit &&& remainingWork = 0

inductive Errno where
  | zero | eintr | ebadf | other
  deriving DecidableEq, Repr

inductive LoopEvent where
  | enter
  | test
  | act (act : CallbackAct)
  | threadsDone
  | stepsDone (criticalSched criticalFd : Int)
  | blocked (retval : Int)
  | held
  | timedDone (errno : Errno)
  | fdsDone
  | cleaned (found : Bool)
  | next
  | callbackDone
  | tailDone
  deriving DecidableEq, Repr

def Loop.at (loop : Loop) (pc : LoopPc) : Loop := { loop with pc := pc }

def leave (loop : Loop) : Loop := { loop with inLoop := false, pc := .returned 0 }

def afterTimed (loop : Loop) (retval : Int) (errno : Errno) : Loop :=
  if 0 < retval then loop.at .ready
  else if retval = -1 then
    match errno with
    | .zero => loop.at .head
    | .eintr => loop.at .head
    | .ebadf => loop.at .cleaning
    | .other => loop.at (.returned (-1))
  else loop.at .draining

def runDeferred (loop : Loop) : Loop :=
  match loop.deferred with
  | [] => loop.at .tail
  | event :: rest =>
    if event.cb then
      { loop with deferred := rest, called := event.key :: loop.called, pc := .running }
    else { loop with deferred := rest }

def acting : LoopPc → Bool
  | .threads => true
  | .stepping => true
  | .timed _ => true
  | .ready => true
  | .cleaning => true
  | .running => true
  | .tail => true
  | _ => false

def step (autoExit : Nat) (loop : Loop) : LoopEvent → Loop
  | .enter =>
    if loop.pc = .entry then { loop with inLoop := true, keepGoing := true, pc := .head } else loop
  | .test =>
    if loop.pc = .head then (if loop.keepGoing then loop.at .threads else leave loop) else loop
  | .act act => if acting loop.pc then callbackAct loop act else loop
  | .threadsDone =>
    if loop.pc = .threads then (if loop.keepGoing then loop.at .stepping else leave loop) else loop
  | .stepsDone criticalSched criticalFd =>
    if loop.pc = .stepping then
      if autoExits autoExit criticalSched criticalFd then leave { loop with keepGoing := false }
      else loop.at .blocking
    else loop
  | .blocked retval => if loop.pc = .blocking then loop.at (.timed retval) else loop
  | .held =>
    match loop.pc with
    | .timed _ => loop.at .draining
    | .ready => loop.at .draining
    | _ => loop
  | .timedDone errno =>
    match loop.pc with
    | .timed retval => afterTimed loop retval errno
    | _ => loop
  | .fdsDone => if loop.pc = .ready then loop.at .draining else loop
  | .cleaned found =>
    if loop.pc = .cleaning then (if found then loop.at .draining else loop.at (.returned (-1))) else loop
  | .next => if loop.pc = .draining then runDeferred loop else loop
  | .callbackDone => if loop.pc = .running then loop.at .draining else loop
  | .tailDone => if loop.pc = .tail then loop.at .head else loop

def start (inLoop : Bool) (before : List Bool) : Loop :=
  { inLoop := inLoop, keepGoing := false
    deferred := before.mapIdx fun key cb => ⟨key,cb⟩
    fresh := before.length, added := [], cancelled := [], called := [], pc := .entry }

/- Every event is in one place: still in the list, or called, and never called twice. -/
structure Once (loop : Loop) : Prop where
  below : ∀ event ∈ loop.deferred, event.key < loop.fresh
  calledBelow : ∀ key ∈ loop.called, key < loop.fresh
  distinct : (loop.deferred.map DeferredEvent.key).Nodup
  uncalled : ∀ event ∈ loop.deferred, event.key ∉ loop.called
  armed : ∀ event ∈ loop.deferred, event.key ∈ loop.added → event.key ∉ loop.cancelled →
    event.cb = true
  fate : ∀ key ∈ loop.added, key ∉ loop.cancelled →
    loop.called.count key = 1 ∨ key ∈ loop.deferred.map DeferredEvent.key

structure InPlace (loop : Loop) : Prop where
  entered : loop.pc ≠ .entry → (∀ retval, loop.pc ≠ .returned retval) → loop.inLoop = true
  done : ∀ retval, loop.pc = .returned retval → loop.inLoop = false ∧ loop.deferred = []

@[simp] theorem disarmKey (key : Nat) (event : DeferredEvent) : (disarm key event).key = event.key := by
  rw [disarm]
  split <;> rfl

theorem disarmKeys (key : Nat) (events : List DeferredEvent) :
    (events.map (disarm key)).map DeferredEvent.key = events.map DeferredEvent.key := by
  rw [List.map_map]
  exact List.map_congr_left fun event _ => disarmKey key event

theorem onceDeferAdd {loop : Loop} (once : Once loop) (inLoop : loop.inLoop = true) :
    Once (evtDeferAdd loop) := by
  have fresh : loop.fresh ∉ loop.deferred.map DeferredEvent.key := by
    intro member
    obtain ⟨event,there,same⟩ := List.mem_map.mp member
    have := once.below event there
    omega
  have uncalled : loop.fresh ∉ loop.called := fun member => by
    have := once.calledBelow _ member
    omega
  rw [evtDeferAdd, if_pos inLoop]
  refine ⟨?_,?_,?_,?_,?_,?_⟩
  · intro event member
    rcases List.mem_cons.mp member with rfl | old
    · exact Nat.lt_succ_self _
    · exact Nat.lt_succ_of_lt (once.below event old)
  · exact fun key member => Nat.lt_succ_of_lt (once.calledBelow key member)
  · exact List.nodup_cons.mpr ⟨fresh,once.distinct⟩
  · intro event member
    rcases List.mem_cons.mp member with rfl | old
    · exact uncalled
    · exact once.uncalled event old
  · intro event member added live
    rcases List.mem_cons.mp member with rfl | old
    · rfl
    · refine once.armed event old ?_ live
      rcases List.mem_cons.mp added with same | was
      · exact absurd (List.mem_map_of_mem old) (same ▸ fresh)
      · exact was
  · intro key added live
    rcases List.mem_cons.mp added with rfl | was
    · exact .inr List.mem_cons_self
    · rcases once.fate key was live with done | pending
      · exact .inl done
      · exact .inr (List.mem_cons_of_mem _ pending)

theorem onceDeferCancel {loop : Loop} (once : Once loop) (key : Nat) :
    Once (evtDeferCancel loop key) := by
  rw [evtDeferCancel]
  split
  swap
  · exact once
  refine ⟨?_,once.calledBelow,?_,?_,?_,?_⟩
  · intro event member
    obtain ⟨old,there,rfl⟩ := List.mem_map.mp member
    rw [disarmKey]
    exact once.below old there
  · rw [disarmKeys]
    exact once.distinct
  · intro event member
    obtain ⟨old,there,rfl⟩ := List.mem_map.mp member
    rw [disarmKey]
    exact once.uncalled old there
  · intro event member added live
    obtain ⟨old,there,rfl⟩ := List.mem_map.mp member
    rw [disarmKey] at added live
    obtain ⟨other,kept⟩ := not_or.mp (fun is => live (List.mem_cons.mpr is))
    rw [disarm, if_neg other]
    exact once.armed old there added kept
  · intro other added live
    rw [disarmKeys]
    exact once.fate other added fun member => live (List.mem_cons_of_mem _ member)

theorem Once.frame {loop loop' : Loop} (once : Once loop) (deferred : loop'.deferred = loop.deferred)
    (fresh : loop'.fresh = loop.fresh) (added : loop'.added = loop.added)
    (cancelled : loop'.cancelled = loop.cancelled) (called : loop'.called = loop.called) :
    Once loop' := by
  refine ⟨?_,?_,?_,?_,?_,?_⟩
  · rw [deferred, fresh]
    exact once.below
  · rw [called, fresh]
    exact once.calledBelow
  · rw [deferred]
    exact once.distinct
  · rw [deferred, called]
    exact once.uncalled
  · rw [deferred, added, cancelled]
    exact once.armed
  · rw [deferred, added, cancelled, called]
    exact once.fate

theorem Once.at {loop : Loop} (once : Once loop) (pc : LoopPc) : Once (loop.at pc) :=
  once.frame rfl rfl rfl rfl rfl

theorem onceAct {loop : Loop} (once : Once loop) (inLoop : loop.inLoop = true) (act : CallbackAct) :
    Once (callbackAct loop act) := by
  cases act with
  | deferAdd => exact onceDeferAdd once inLoop
  | deferCancel key => exact onceDeferCancel once key
  | exitLoop => exact once.frame rfl rfl rfl rfl rfl

theorem onceRunDeferred {loop : Loop} (once : Once loop) : Once (runDeferred loop) := by
  unfold runDeferred
  split
  · exact once.at .tail
  rename_i event rest list
  have distinct := once.distinct
  rw [list, List.map_cons, List.nodup_cons] at distinct
  have there : ∀ other ∈ rest, other ∈ loop.deferred := fun other member => by
    rw [list]
    exact List.mem_cons_of_mem _ member
  have here : event ∈ loop.deferred := by
    rw [list]
    exact List.mem_cons_self
  have fate : ∀ key ∈ loop.added, key ∉ loop.cancelled →
      loop.called.count key = 1 ∨ key = event.key ∨ key ∈ rest.map DeferredEvent.key := by
    intro key added live
    have old := once.fate key added live
    rwa [list, List.map_cons, List.mem_cons] at old
  split
  · rename_i armed
    have uncalled := once.uncalled event here
    refine ⟨fun other member => once.below other (there other member),?_,distinct.2,?_,
      fun other member => once.armed other (there other member),?_⟩
    · intro key member
      rcases List.mem_cons.mp member with rfl | old
      · exact once.below event here
      · exact once.calledBelow key old
    · intro other member called
      rcases List.mem_cons.mp called with same | old
      · exact distinct.1 (same ▸ List.mem_map_of_mem member)
      · exact once.uncalled other (there other member) old
    · intro key added live
      rw [List.count_cons]
      by_cases same : event.key = key
      · left
        have zero := List.count_eq_zero_of_not_mem uncalled
        rw [same] at zero
        simp [same,zero]
      · rcases fate key added live with done | mine | pending
        · left
          simp [done,same]
        · exact absurd mine.symm same
        · exact .inr pending
  · rename_i disarmed
    refine ⟨fun other member => once.below other (there other member),once.calledBelow,distinct.2,
      fun other member => once.uncalled other (there other member),
      fun other member => once.armed other (there other member),?_⟩
    intro key added live
    rcases fate key added live with done | rfl | pending
    · exact .inl done
    · exact absurd (once.armed event here added live) disarmed
    · exact .inr pending

/- The ways out that go wrong are not taken: the loop is left only with an empty list,
and no error of select ends it. -/
def drained (autoExit : Nat) (loop : Loop) : LoopEvent → Bool
  | .test => loop.pc ≠ .head || loop.keepGoing || loop.deferred = []
  | .threadsDone => loop.pc ≠ .threads || loop.keepGoing || loop.deferred = []
  | .stepsDone criticalSched criticalFd =>
    loop.pc ≠ .stepping || !autoExits autoExit criticalSched criticalFd || loop.deferred = []
  | .timedDone errno =>
    match loop.pc with
    | .timed retval => retval ≠ -1 || errno ≠ .other
    | _ => true
  | .cleaned found => loop.pc ≠ .cleaning || found
  | _ => true

def Accounted (loop : Loop) : Prop := Once loop ∧ InPlace loop

section
variable {loop : Loop}

theorem accountedAt {pc : LoopPc} (good : Accounted loop) (inside : loop.inLoop = true)
    (more : ∀ retval, pc ≠ .returned retval) : Accounted (loop.at pc) :=
  ⟨good.1.at pc,⟨fun _ _ => inside,fun retval is => absurd is (more retval)⟩⟩

theorem accountedLeave (good : Accounted loop) (empty : loop.deferred = []) (keepGoing : Bool) :
    Accounted (leave { loop with keepGoing := keepGoing }) :=
  ⟨good.1.frame rfl rfl rfl rfl rfl,⟨fun _ more => absurd rfl (more 0),fun _ _ => ⟨rfl,empty⟩⟩⟩

theorem accountedTest {pc : LoopPc} (good : Accounted loop) (inside : loop.inLoop = true)
    (more : ∀ retval, pc ≠ .returned retval) (empty : loop.keepGoing = false → loop.deferred = []) :
    Accounted (if loop.keepGoing then loop.at pc else leave loop) := by
  split
  · exact accountedAt good inside more
  · rename_i stop
    exact accountedLeave good (empty (eq_false_of_ne_true stop)) loop.keepGoing

theorem callbackActPlace (act : CallbackAct) (inside : loop.inLoop = true) :
    (callbackAct loop act).inLoop = true ∧ (callbackAct loop act).pc = loop.pc := by
  cases act with
  | deferAdd => simp [callbackAct,evtDeferAdd,inside]
  | deferCancel key =>
    simp only [callbackAct,evtDeferCancel]
    split <;> exact ⟨inside,rfl⟩
  | exitLoop => exact ⟨inside,rfl⟩

theorem accountedAct (good : Accounted loop) (act : CallbackAct) (inside : loop.inLoop = true)
    (more : ∀ retval, loop.pc ≠ .returned retval) : Accounted (callbackAct loop act) := by
  obtain ⟨still,place⟩ := callbackActPlace act inside
  refine ⟨onceAct good.1 inside act,⟨fun _ _ => still,fun retval is => ?_⟩⟩
  rw [place] at is
  exact absurd is (more retval)

theorem accountedAfterTimed (good : Accounted loop) (inside : loop.inLoop = true) {retval : Int}
    {errno : Errno} (mild : retval = -1 → errno ≠ .other) : Accounted (afterTimed loop retval errno) := by
  unfold afterTimed
  split
  · exact accountedAt good inside (by simp)
  split
  · rename_i failed
    have mild := mild failed
    cases errno with
    | zero => exact accountedAt good inside (by simp)
    | eintr => exact accountedAt good inside (by simp)
    | ebadf => exact accountedAt good inside (by simp)
    | other => exact absurd rfl mild
  · exact accountedAt good inside (by simp)

theorem accountedRunDeferred (good : Accounted loop) (inside : loop.inLoop = true)
    (more : ∀ retval, loop.pc ≠ .returned retval) : Accounted (runDeferred loop) := by
  refine ⟨onceRunDeferred good.1,?_⟩
  unfold runDeferred
  split
  · exact ⟨fun _ _ => inside,by simp [Loop.at]⟩
  · split
    · exact ⟨fun _ _ => inside,by simp⟩
    · exact ⟨fun _ _ => inside,fun retval is => absurd is (more retval)⟩

end

theorem accountedStep (autoExit : Nat) (loop : Loop) (event : LoopEvent) (good : Accounted loop)
    (free : drained autoExit loop event = true) : Accounted (step autoExit loop event) := by
  have inside : ∀ pc, loop.pc = pc → pc ≠ .entry → (∀ retval, pc ≠ .returned retval) →
      loop.inLoop = true := fun pc is busy more => good.2.entered (is ▸ busy) (is ▸ more)
  cases event with
  | enter =>
    rw [step]
    split
    · exact ⟨good.1.frame rfl rfl rfl rfl rfl,⟨fun _ _ => rfl,by simp⟩⟩
    · exact good
  | test =>
    rw [step]
    split
    · rename_i place
      refine accountedTest good (inside _ place (by simp) (by simp)) (by simp) fun stop => ?_
      simpa [drained,place,stop] using free
    · exact good
  | act act =>
    rw [step]
    split
    · rename_i place
      have busy : loop.pc ≠ .entry := fun is => by simp [is,acting] at place
      have more : ∀ retval, loop.pc ≠ .returned retval := fun retval is => by simp [is,acting] at place
      exact accountedAct good act (inside _ rfl busy more) more
    · exact good
  | threadsDone =>
    rw [step]
    split
    · rename_i place
      refine accountedTest good (inside _ place (by simp) (by simp)) (by simp) fun stop => ?_
      simpa [drained,place,stop] using free
    · exact good
  | stepsDone criticalSched criticalFd =>
    rw [step]
    split
    · rename_i place
      split
      · rename_i idle
        exact accountedLeave good (by simpa [drained,place,idle] using free) false
      · exact accountedAt good (inside _ place (by simp) (by simp)) (by simp)
    · exact good
  | blocked retval =>
    rw [step]
    split
    · rename_i place
      exact accountedAt good (inside _ place (by simp) (by simp)) (by simp)
    · exact good
  | held =>
    simp only [step]
    split
    · rename_i place
      exact accountedAt good (inside _ place (by simp) (by simp)) (by simp)
    · rename_i place
      exact accountedAt good (inside _ place (by simp) (by simp)) (by simp)
    · exact good
  | timedDone errno =>
    simp only [step]
    split
    · rename_i place
      refine accountedAfterTimed good (inside _ place (by simp) (by simp)) fun failed => ?_
      simpa [drained,place,failed] using free
    · exact good
  | fdsDone =>
    rw [step]
    split
    · rename_i place
      exact accountedAt good (inside _ place (by simp) (by simp)) (by simp)
    · exact good
  | cleaned found =>
    rw [step]
    split
    · rename_i place
      have some : found = true := by simpa [drained,place] using free
      rw [if_pos some]
      exact accountedAt good (inside _ place (by simp) (by simp)) (by simp)
    · exact good
  | next =>
    rw [step]
    split
    · rename_i place
      exact accountedRunDeferred good (inside _ place (by simp) (by simp)) (by simp [place])
    · exact good
  | callbackDone =>
    rw [step]
    split
    · rename_i place
      exact accountedAt good (inside _ place (by simp) (by simp)) (by simp)
    · exact good
  | tailDone =>
    rw [step]
    split
    · rename_i place
      exact accountedAt good (inside _ place (by simp) (by simp)) (by simp)
    · exact good

theorem accountedStart (inLoop : Bool) (before : List Bool) : Accounted (start inLoop before) := by
  have keys : (start inLoop before).deferred.map DeferredEvent.key = List.range before.length := by
    apply List.ext_getElem
    · simp [start]
    · intro i left right
      simp [start]
  refine ⟨⟨?_,by simp [start],?_,by simp [start],by simp [start],by simp [start]⟩,
    ⟨fun busy => absurd rfl busy,by simp [start]⟩⟩
  · intro event member
    have inRange : event.key ∈ (start inLoop before).deferred.map DeferredEvent.key :=
      List.mem_map_of_mem member
    rw [keys] at inRange
    exact List.mem_range.mp inRange
  · rw [keys]
    exact List.nodup_range

theorem deferredAlwaysRun (autoExit : Nat) (inLoop : Bool) (before : List Bool) (events : List LoopEvent)
    (free : Along (step autoExit) (fun loop event => drained autoExit loop event = true)
      (start inLoop before) events) (retval : Int)
    (done : (exec (step autoExit) (start inLoop before) events).pc = .returned retval) :
    let loop := exec (step autoExit) (start inLoop before) events
    loop.deferred = [] ∧ loop.inLoop = false ∧
      ∀ key ∈ loop.added, key ∉ loop.cancelled → loop.called.count key = 1 := by
  intro loop
  have good : Accounted loop := free.invariant
    (fun state event inv ok => accountedStep autoExit state event inv ok) (accountedStart inLoop before)
  obtain ⟨out,empty⟩ := good.2.done retval done
  refine ⟨empty,out,fun key added live => ?_⟩
  rcases good.1.fate key added live with once | pending
  · exact once
  · rw [empty] at pending
    cases pending

def orderly : List LoopEvent :=
  [.enter,.test,.threadsDone,.stepsDone 1 0,.blocked 0,.act .deferAdd,.act .deferAdd,
    .act (.deferCancel 0),.act .exitLoop,.timedDone .zero,.next,.callbackDone,.next,.next,.tailDone,.test]

theorem deferredAlwaysRunOrderly :
    (exec (step 0) (start false []) orderly).deferred = [] ∧
      (exec (step 0) (start false []) orderly).called.count 1 = 1 :=
  have ran := deferredAlwaysRun 0 false [] orderly (by decide) 0 (by decide)
  ⟨ran.1,ran.2.2 1 (by decide) (by decide)⟩

/- A pseudo thread defers an event and ends the loop: the break is taken before the list
is looked at. -/
theorem deferredLeftBehind :
    let loop := exec (step 0) (start false [])
      [.enter,.test,.act .deferAdd,.act .exitLoop,.threadsDone]
    loop.pc = .returned 0 ∧ loop.deferred ≠ [] ∧ 0 ∈ loop.added ∧ 0 ∉ loop.cancelled ∧
      loop.called.count 0 = 0 := by
  decide

end LibProc.EventLoop
