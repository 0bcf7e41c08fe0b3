import LibProc.SchedCounter
import LibProc.FdCounter
import LibProc.EventLoop

/-! The auto-exit test against the work it is about. The handler's two counters are kept by
hand; in a run that keeps them, the loop is left exactly when no class of the mask has a
critical event or descriptor left. -/
namespace LibProc.AutoExit
open PriorityQueue Scheduler Runs Tallies SchedCounter FdCounter FdRegistry EventLoop

variable {A : Type}

structure Handler (A : Type) where
  timed : Timed A
  fds : Registry

inductive HandlerAct (A : Type) where
  | sched (act : SchedAct A)
  | fd (act : FdAct)

def handlerStep (h : Handler A) : HandlerAct A → Handler A
  | .sched act => {h with timed := schedStep h.timed act}
  | .fd act => {h with fds := fdStep h.fds act}

def evtCreateHandlerWith (hashSize : Nat) (events : Memory A) (d dbg : Nat → EventId) : Handler A :=
  ⟨startTimed hashSize events d dbg,evtCreateHandler hashSize⟩

def mayAct (h : Handler A) : HandlerAct A → Prop
  | .sched act => SchedCounter.allowed h.timed act ∧ heapRight h.timed act
  | .fd act => FdCounter.allowed h.fds act

def keeps (h : Handler A) : HandlerAct A → Prop
  | .sched act => SchedCounter.kept h.timed act
  | .fd act => FdCounter.kept act

def leaves (autoExit : Nat) (h : Handler A) : Prop :=
  ∀ loop : Loop, loop.pc = .stepping →
    (EventLoop.step autoExit loop (.stepsDone h.timed.ctx.criticalSchedCount h.fds.tables.criticalFdCount)).pc =
      .returned 0

structure CountersExact (h : Handler A) : Prop where
  sched : Tally h.timed.ctx.criticalSchedCount (criticalEvents h.timed)
  fd : Tally h.fds.tables.criticalFdCount (criticalNodes h.fds)
  exits : ∀ autoExit, leaves autoExit h ↔ autoExit ≠ 0 ∧
    (autoExit &&& evtExitSched ≠ 0 → criticalEvents h.timed = ∅) ∧
    (autoExit &&& evtExitFd ≠ 0 → criticalNodes h.fds = ∅)

theorem leavesIff (autoExit : Nat) (h : Handler A) : leaves autoExit h ↔
    autoExits autoExit h.timed.ctx.criticalSchedCount h.fds.tables.criticalFdCount = true := by
  constructor
  · intro left
    have now := left ⟨true,true,[],0,[],[],[],.stepping⟩ rfl
    by_contra stays
    simp [EventLoop.step,stays,Loop.at] at now
  · intro exits loop place
    simp [EventLoop.step,place,exits,EventLoop.leave]

theorem autoExitsIff (autoExit : Nat) (sched fd : Int) : autoExits autoExit sched fd = true ↔
    autoExit ≠ 0 ∧ (autoExit &&& evtExitSched ≠ 0 → ¬ 0 < sched) ∧ (autoExit &&& evtExitFd ≠ 0 → ¬ 0 < fd) := by
  simp only [autoExits,Bool.and_eq_true,decide_eq_true_eq,Nat.and_or_distrib_left,Nat.or_eq_zero_iff]
  refine and_congr Iff.rfl (and_congr ?_ ?_)
  · by_cases more : 0 < sched <;> simp [more]
  · by_cases more : 0 < fd <;> simp [more]

theorem exactOf {h : Handler A} (timed : Counted h.timed) (fds : FdCounted h.fds) : CountersExact h := by
  refine ⟨timed.tally,fds.nodes,fun autoExit => ?_⟩
  rw [leavesIff, autoExitsIff, timed.tally.positive, fds.nodes.positive]
  simp only [Set.not_nonempty_iff_eq_empty]

/- Any run in which each flag that is set keeps its truth in a char, and each event that asks
to be kept finds room. hashSize is an int. -/
theorem countersExact (hashSize : Nat) (int : hashSize < 2 ^ 31) (events : Memory A) (d dbg : Nat → EventId)
    (acts : List (HandlerAct A))
    (along : Along handlerStep (fun h act => mayAct h act ∧ keeps h act)
      (evtCreateHandlerWith hashSize events d dbg) acts) :
    CountersExact (exec handlerStep (evtCreateHandlerWith hashSize events d dbg) acts) := by
  have both : ∀ (h : Handler A) (act : HandlerAct A), Counted h.timed ∧ FdCounted h.fds → mayAct h act ∧ keeps h act →
      Counted (handlerStep h act).timed ∧ FdCounted (handlerStep h act).fds := by
    rintro h act ⟨timed,fds⟩ ⟨may,good⟩
    cases act with
    | sched act => exact ⟨timed.step may.1 may.2 good,fds⟩
    | fd act => exact ⟨timed,fds.step may good⟩
  have kept := along.invariant both ⟨startCounted (by omega) events d dbg,createCounted hashSize⟩
  exact exactOf kept.1 kept.2

instance (c : Callbacks (Memory A) EventId Timeval) (s : Memory A × Queue EventId) (e : EventId) :
    Decidable (TiedLast c s e) := inferInstanceAs (Decidable (_ ∧ _ ∧ _))

instance (w : Timed A) : ∀ act, Decidable (heapRight w act)
  | .moveToMono _ _ e => inferInstanceAs (Decidable (¬ TiedLast callbacks (w.ctx.heap (w.ctx.events e).queue) e))
  | .remove e => inferInstanceAs
      (Decidable (Waiting w e → ¬ TiedLast callbacks (w.ctx.heap (w.ctx.events e).queue) e))
  | .add .. | .setCritical .. | .makeBreakpoint _ | .fire _ | .fireDbg _ | .singleStep _ | .ret .. | .debugger .. =>
    inferInstanceAs (Decidable True)

instance (w : Timed A) : ∀ act, Decidable (SchedCounter.kept w act)
  | .setCritical _ critical => inferInstanceAs (Decidable (charTruth critical))
  | .ret true grow => inferInstanceAs
      (Decidable (∀ run ∈ w.running, ¬ Full grow (w.ctx.heap (w.ctx.events run.event).queue).2))
  | .ret false _ | .add .. | .makeBreakpoint _ | .moveToMono .. | .remove _ | .fire _ | .fireDbg _ | .singleStep _
  | .debugger .. => inferInstanceAs (Decidable True)

instance (registry : Registry) : ∀ act, Decidable (FdCounter.allowed registry act)
  | .registry (.call c) => inferInstanceAs
      (Decidable (∀ run ∈ registry.running, FdDispatch.permits registry.hashSize run.fd c ∨ FdDispatch.removes c = false))
  | .registry (.dispatch _ _) => inferInstanceAs (Decidable (_ = _))
  | .registry .singleStep => inferInstanceAs (Decidable False)
  | .registry (.ret _) | .registry (.debugger _ _) | .setCritical _ _ => inferInstanceAs (Decidable True)

instance : ∀ act, Decidable (FdCounter.kept act)
  | .setCritical _ critical => inferInstanceAs (Decidable (charTruth critical))
  | .registry _ => inferInstanceAs (Decidable True)

instance (h : Handler A) : ∀ act, Decidable (mayAct h act)
  | .sched act => inferInstanceAs (Decidable (SchedCounter.allowed h.timed act ∧ heapRight h.timed act))
  | .fd act => inferInstanceAs (Decidable (FdCounter.allowed h.fds act))

instance (h : Handler A) : ∀ act, Decidable (keeps h act)
  | .sched act => inferInstanceAs (Decidable (SchedCounter.kept h.timed act))
  | .fd act => inferInstanceAs (Decidable (FdCounter.kept act))

def fresh : Handler Unit := evtCreateHandlerWith 19 (fun _ => clearedCB ()) (fun _ => 0) (fun _ => 0)

def addSecond (n : Int) : HandlerAct Unit := .sched (.add true true ⟨0,0⟩ ⟨n,0⟩ ⟨n,0⟩ ())

def session : List (HandlerAct Unit) :=
  [addSecond 1,addSecond 5,addSecond 3,.sched (.makeBreakpoint 1),.sched (.setCritical 2 0),
    .sched (.moveToMono true ⟨0,0⟩ 3),.sched (.fire ⟨1,0⟩),.sched (.singleStep ⟨1,0⟩),.sched (.setCritical 2 5),
    .sched (.ret true true),.sched (.fireDbg ⟨3,0⟩),.sched (.ret false true),
    .fd (.registry (.call (.add 3 .read (some 1) none 0 true))),.fd (.registry (.dispatch 3 .read)),
    .fd (.registry (.call (.add 22 .write (some 2) none 0 true))),.fd (.setCritical 22 0),.fd (.registry (.ret eventRemove)),
    .sched (.remove 2)]

theorem countersExactSession : CountersExact (exec handlerStep fresh session) :=
  countersExact 19 (by decide) _ _ _ session (by decide +kernel)

def lowByte : List (HandlerAct Unit) := [addSecond 1,.sched (.setCritical 1 256)]

theorem lowByteNeverExits : Along handlerStep mayAct fresh lowByte ∧ ¬ CountersExact (exec handlerStep fresh lowByte) := by
  refine ⟨by decide +kernel,fun exact => ?_⟩
  have counted : 0 < (exec handlerStep fresh lowByte).timed.ctx.criticalSchedCount := by decide +kernel
  obtain ⟨e,inPlay,critical⟩ := exact.sched.positive.mp counted
  have main : (exec handlerStep fresh lowByte).timed.ctx.queue.size = 2 := by decide +kernel
  have debug : (exec handlerStep fresh lowByte).timed.ctx.dbgQueue.size = 1 := by decide +kernel
  have flag : ((exec handlerStep fresh lowByte).timed.ctx.events
      ((exec handlerStep fresh lowByte).timed.ctx.queue.d 1)).critical = false := by decide +kernel
  rcases inPlay with (⟨i,first,last,is⟩ | ⟨i,first,last,is⟩) | running | held
  · rw [main] at last
    rw [← is, show i = 1 by omega, flag] at critical
    cases critical
  · rw [debug] at last
    omega
  · cases running
  · cases held.1

end LibProc.AutoExit
