import LibProc.SchedHandles

/-! The reply timer of the debugger. While commands wait for an answer the loop keeps one event
with the callback edbg_response_timeout, and its address in dbg_reply_evt. The callback forgets
the address, and asks for the event to be kept. -/
namespace LibProc.ReplyTimer
open PriorityQueue Scheduler Runs SchedCounter SchedHandles

variable {A : Type}

def respWaitMs : Int := 300

structure Loop (A : Type) where
  handles : Handles A
  dbgReplyEvt : Option EventId

/- `watches`: the debugger is not disabled, the clock is a virtual one and cmds_pending is set;
`pending` is what it answers. -/
inductive LoopAct (A : Type) where
  | handle (act : HandleAct A)
  | iterationEnd (watches pending malloc grow growMono : Bool) (now nowMono : Timeval)

def timesOut [DecidableEq A] (reply : A) (w : Handles A) : Bool :=
  match w.timed.running with
  | some run => decide ((w.timed.ctx.events run.event).call = reply)
  | none => false

def handleAct [DecidableEq A] (reply : A) (w : Loop A) : HandleAct A → Loop A
  | .sched (.ret keep grow) =>
    if timesOut reply w.handles then ⟨handleStep w.handles (.sched (.ret true grow)),none⟩
    else ⟨handleStep w.handles (.sched (.ret keep grow)),w.dbgReplyEvt⟩
  | act => ⟨handleStep w.handles act,w.dbgReplyEvt⟩

def replyAdded (reply : A) (w : Handles A) (malloc grow growMono : Bool) (now nowMono : Timeval) : Loop A :=
  let time := evtMs2tv respWaitMs
  let added := handleStep w (.sched (.add malloc grow now time time reply))
  match (evtSchedAdd w.timed.ctx malloc grow now time reply).1 with
  | none => ⟨added,none⟩
  | some e => ⟨handleStep (handleStep added (.sched (.moveToMono growMono nowMono e))) (.sched (.setCritical e 0)),some e⟩

def loopStep [DecidableEq A] (reply : A) (w : Loop A) : LoopAct A → Loop A
  | .handle act => handleAct reply w act
  | .iterationEnd watches pending malloc grow growMono now nowMono =>
    if watches then
      if pending then
        match w.dbgReplyEvt with
        | none => replyAdded reply w.handles malloc grow growMono now nowMono
        | some _ => w
      else
        match w.dbgReplyEvt with
        | none => w
        | some e => ⟨handleStep w.handles (.sched (.remove e)),none⟩
    else w

def startLoop (hashSize : Nat) (events : Memory A) (d dbg : Nat → EventId) : Loop A :=
  ⟨startHandles hashSize events d dbg,none⟩

/- edbg_response_timeout is static and dbg_reply_evt is given to nobody; the timer pauses the main
queue. -/
def foreign (reply : A) (w : Loop A) : HandleAct A → Prop
  | .update _ e _ => (w.handles.timed.ctx.events e).call ≠ reply
  | .updatePartialCredit _ e _ => (w.handles.timed.ctx.events e).call ≠ reply
  | .sched (.add _ _ _ _ _ call) => call ≠ reply
  | .sched (.setCritical e _) => (w.handles.timed.ctx.events e).call ≠ reply
  | .sched (.makeBreakpoint e) => (w.handles.timed.ctx.events e).call ≠ reply
  | .sched (.moveToMono _ _ e) => (w.handles.timed.ctx.events e).call ≠ reply
  | .sched (.remove e) => (w.handles.timed.ctx.events e).call ≠ reply
  | .sched (.fire _) => w.dbgReplyEvt = none
  | _ => True

def mayAct (reply : A) (w : Loop A) : LoopAct A → Prop
  | .handle act => mayCall w.handles act ∧ foreign reply w act
  | .iterationEnd .. => w.handles.timed.running = none

def expires (reply : A) (ctx : EventState A) : HandleAct A → Prop
  | .sched (.fireDbg now) => ∃ e ∈ peek ctx.dbgQueue, (ctx.events e).call = reply ∧
    Timeval.timercmp (· > ·) (ctx.events e).nextAwake now = false
  | _ => False

/- The timer does not expire; memory for its move, and nothing displaced when it is removed. -/
def sparesTimer (reply : A) (w : Loop A) : LoopAct A → Prop
  | .handle act => sparesSlots w.handles.timed act ∧ ¬ expires reply w.handles.timed.ctx act
  | .iterationEnd watches pending _ _ growMono _ _ => watches = true →
    (pending = true → w.dbgReplyEvt = none → ¬ Full growMono w.handles.timed.ctx.dbgQueue) ∧
    (pending = false → ∀ e ∈ w.dbgReplyEvt, ¬ Displaces callbacks (w.handles.timed.ctx.heap .dbgQueue) e)

def OneTimer (reply : A) (w : Loop A) : Prop :=
  ∀ x, Waiting w.handles.timed x ∧ (w.handles.timed.ctx.events x).call = reply ↔ w.dbgReplyEvt = some x

def endsWithOneTimer [DecidableEq A] (reply : A) (w : Loop A) : LoopAct A → Prop
  | .handle _ => True
  | .iterationEnd watches pending malloc grow growMono now nowMono =>
    OneTimer reply (loopStep reply w (.iterationEnd watches pending malloc grow growMono now nowMono))

structure TimerKept (reply : A) (w : Loop A) : Prop where
  handled : Handled w.handles
  calls : ∀ x, w.handles.live x = true → ((w.handles.timed.ctx.events x).call = reply ↔ w.dbgReplyEvt = some x)
  waits : ∀ e, w.dbgReplyEvt = some e → Queued w.handles.timed.ctx.dbgQueue e

section
variable {reply : A} {w : Loop A} {act : HandleAct A} {x e : EventId}

theorem TimerKept.oneTimer (kept : TimerKept reply w) : OneTimer reply w := by
  intro x
  constructor
  · rintro ⟨waiting,call⟩
    exact (kept.calls x ((kept.handled.live x).mpr (.inl waiting))).mp call
  · intro is
    have waiting : Waiting w.handles.timed x := .inr (kept.waits x is)
    exact ⟨waiting,(kept.calls x ((kept.handled.live x).mpr (.inl waiting))).mpr is⟩

theorem addFresh {ctx : EventState A} {malloc grow : Bool} {now time timestep : Timeval} {call : A}
    (added : (evtSchedAddWithTimestep ctx malloc grow now time timestep call).1 = some e) : malloc = true ∧ e = ctx.fresh := by
  unfold evtSchedAddWithTimestep at added
  split at added
  · rename_i allocated
    refine ⟨allocated,?_⟩
    dsimp only at added
    split at added
    · exact (Option.some.inj added).symm
    · cases added
  · cases added

theorem liveBefore {v : Handles A} (live : (handleStep v act).live x = true) : v.live x = true ∨
    x = v.timed.ctx.fresh ∧ ∃ grow now time timestep call, act = .sched (.add true grow now time timestep call) := by
  cases act with
  | update | updatePartialCredit => exact .inl live
  | sched act =>
    cases act with
    | add malloc grow now time timestep call =>
      rw [handleStep, liveAfter] at live
      cases added : (evtSchedAddWithTimestep v.timed.ctx malloc grow now time timestep call).1 with
      | none =>
        rw [added] at live
        exact .inl live
      | some e =>
        rw [added] at live
        obtain ⟨rfl,rfl⟩ := addFresh added
        by_cases same : x = v.timed.ctx.fresh
        · exact .inr ⟨same,grow,now,time,timestep,call,rfl⟩
        · exact .inl ((Function.update_of_ne same _ _).symm.trans live)
    | remove e =>
      rw [handleStep, liveAfter] at live
      dsimp only at live
      split at live
      · by_cases same : x = e
        · subst same
          simp at live
        · exact .inl ((Function.update_of_ne same _ _).symm.trans live)
      · exact .inl live
    | ret keep grow =>
      rw [handleStep] at live
      dsimp only at live
      cases keep with
      | true => exact .inl live
      | false =>
        rw [liveAfter] at live
        cases is : v.timed.running with
        | none =>
          rw [is] at live
          exact .inl live
        | some run =>
          rw [is] at live
          by_cases same : x = run.event
          · subst same
            simp at live
          · exact .inl ((Function.update_of_ne same _ _).symm.trans live)
    | setCritical | makeBreakpoint | moveToMono | fire | fireDbg | singleStep | debugger => exact .inl live

theorem addedEvent {v : Handles A} (inv : Handled v) (grow : Bool) (now time timestep : Timeval) (call : A) :
    ((handleStep v (.sched (.add true grow now time timestep call))).timed.ctx.events v.timed.ctx.fresh).call = call ∧
    (v.timed.ctx.fresh < (handleStep v (.sched (.add true grow now time timestep call))).timed.ctx.fresh) ∧
    ((evtSchedAddWithTimestep v.timed.ctx true grow now time timestep call).1 ≠ none →
      Queued (handleStep v (.sched (.add true grow now time timestep call))).timed.ctx.queue v.timed.ctx.fresh) := by
  have off : Off v.timed.ctx v.timed.ctx.fresh := fun id queued => inv.stands.outOfPlay (.inl (waitingIff.mpr ⟨id,queued⟩))
  obtain ⟨place,where_,shifted,result,fresh,-⟩ := addShifted inv.shelves off grow now time timestep call
  refine ⟨sameField shifted.self ScheduleCB.call fun _ => rfl,?_,fun added => ?_⟩
  · change _ < (evtSchedAddWithTimestep v.timed.ctx true grow now time timestep call).2.fresh
    rw [fresh]
    exact Nat.lt_succ_self _
  · have main : place = some .queue := by
      refine where_.resolve_left fun none_ => added ?_
      rw [result, none_]
      rfl
    exact (shifted.members .queue _).mpr (.inr ⟨rfl,main⟩)

theorem TimerKept.untouched (kept : TimerKept reply w) (may : mayAct reply w (.handle act))
    (spared : sparesTimer reply w (.handle act)) (is : w.dbgReplyEvt = some e) : e ≠ touched w.handles act := by
  have waiting : Waiting w.handles.timed e := .inr (kept.waits e is)
  obtain ⟨-,-,rests,free⟩ := kept.handled.stands.queued waiting
  obtain ⟨first,last⟩ := (kept.handled.standing e).bound (.inl waiting)
  have call := (kept.calls e ((kept.handled.live e).mpr (.inl waiting))).mpr is
  cases act with
  | update now t time | updatePartialCredit now t time =>
    rintro rfl
    exact may.2 call
  | sched act =>
    cases act with
    | add malloc grow now time timestep call => exact Nat.ne_of_lt last
    | setCritical t critical | makeBreakpoint t | moveToMono grow now t | remove t =>
      rintro rfl
      exact may.2 call
    | fire now => exact absurd (is.symm.trans may.2) (by simp)
    | fireDbg now =>
      intro same
      rw [touched, fireDbgEvent] at same
      cases found : peek w.handles.timed.ctx.dbgQueue with
      | none =>
        rw [found] at same
        exact Nat.ne_of_gt first same
      | some head =>
        rw [found] at same
        dsimp only at same
        split at same
        · exact Nat.ne_of_gt first same
        · rename_i due
          cases same
          exact spared.2 ⟨_,found,call,by simpa using due⟩
    | singleStep now =>
      intro same
      cases next : w.handles.timed.ctx.nextTimedEvent with
      | none =>
        rw [touched, next] at same
        exact Nat.ne_of_gt first same
      | some held =>
        rw [touched, next] at same
        cases same
        exact free ⟨next,Nat.ne_of_gt first⟩
    | ret keep grow =>
      intro same
      cases running : w.handles.timed.running with
      | none =>
        rw [touched, running] at same
        exact Nat.ne_of_gt first same
      | some run =>
        rw [touched, running] at same
        cases same
        exact rests (by rw [Running, running]; rfl)
    | debugger breakOnNext stepsToBreak => exact Nat.ne_of_gt first

theorem TimerKept.between (kept : TimerKept reply w) (may : mayAct reply w (.handle act))
    (spared : sparesTimer reply w (.handle act)) : TimerKept reply ⟨handleStep w.handles act,w.dbgReplyEvt⟩ := by
  obtain ⟨handled,⟨place,cb,touches⟩,call⟩ := kept.handled.reached may.1 spared.1
  refine ⟨handled,fun x live => ?_,fun e is => ?_⟩
  · rcases liveBefore live with old | ⟨rfl,grow,now,time,timestep,new,rfl⟩
    · rw [call x ((kept.handled.standing x).bound ((kept.handled.live x).mp old)).2]
      exact kept.calls x old
    · rw [(addedEvent kept.handled grow now time timestep new).1]
      refine iff_of_false may.2 fun is => ?_
      exact kept.handled.stands.outOfPlay (.inl (.inr (kept.waits _ is)))
  · exact (touches.shifted.members .dbgQueue e).mpr (.inl ⟨kept.untouched may spared is,kept.waits e is⟩)

theorem TimerKept.timely [DecidableEq A] (kept : TimerKept reply w) : timesOut reply w.handles = false := by
  unfold timesOut
  cases is : w.handles.timed.running with
  | none => rfl
  | some run =>
    have running : Running w.handles.timed run.event := by rw [Running, is]; rfl
    refine decide_eq_false fun call => ?_
    have waits := kept.waits _ ((kept.calls _ ((kept.handled.live _).mpr (.inr (.inl running)))).mp call)
    exact (kept.handled.stands.queued (.inr waits)).2.2.1 running

theorem TimerKept.handle [DecidableEq A] (kept : TimerKept reply w) (may : mayAct reply w (.handle act))
    (spared : sparesTimer reply w (.handle act)) : TimerKept reply (loopStep reply w (.handle act)) := by
  have same : handleAct reply w act = ⟨handleStep w.handles act,w.dbgReplyEvt⟩ := by
    cases act with
    | update | updatePartialCredit => rfl
    | sched act =>
      cases act with
      | ret keep grow => simp [handleAct,kept.timely]
      | add | setCritical | makeBreakpoint | moveToMono | remove | fire | fireDbg | singleStep | debugger => rfl
  rw [loopStep, same]
  exact kept.between may spared

theorem addSpares {ctx : EventState A} {malloc grow : Bool} {now time timestep : Timeval} {call : A}
    (added : (evtSchedAddWithTimestep ctx malloc grow now time timestep call).1 = some e) :
    ¬ Displaces callbacks ((evtSchedAddWithTimestep ctx malloc grow now time timestep call).2.heap .queue) e := by
  obtain ⟨rfl,rfl⟩ := addFresh added
  simp only [evtSchedAddWithTimestep,if_true] at added ⊢
  split at added
  · rename_i done
    rw [if_pos done]
    refine insertSpares lawful fun full => ?_
    rw [insertFull full] at done
    cases done
  · cases added

theorem addDbgQueue (ctx : EventState A) (malloc grow : Bool) (now time timestep : Timeval) (call : A) :
    (evtSchedAddWithTimestep ctx malloc grow now time timestep call).2.dbgQueue = ctx.dbgQueue := by
  unfold evtSchedAddWithTimestep
  split
  · dsimp only
    split <;> rfl
  · rfl

theorem TimerKept.added (kept : TimerKept reply w) (free : w.dbgReplyEvt = none) {growMono : Bool}
    (room : ¬ Full growMono w.handles.timed.ctx.dbgQueue) (malloc grow : Bool) (now nowMono : Timeval) :
    TimerKept reply (replyAdded reply w.handles malloc grow growMono now nowMono) := by
  have inv := kept.handled
  have others : ∀ x, w.handles.live x = true →
      x < w.handles.timed.ctx.fresh ∧ (w.handles.timed.ctx.events x).call ≠ reply := by
    intro x live
    refine ⟨((inv.standing x).bound ((inv.live x).mp live)).2,fun call => ?_⟩
    exact absurd (free.symm.trans ((kept.calls x live).mp call)) (by simp)
  have one := inv.add malloc grow now (evtMs2tv respWaitMs) (evtMs2tv respWaitMs) reply
  unfold replyAdded
  dsimp only
  cases result : (evtSchedAdd w.handles.timed.ctx malloc grow now (evtMs2tv respWaitMs) reply).1 with
  | none =>
    have same : liveAfter w.handles (.add malloc grow now (evtMs2tv respWaitMs) (evtMs2tv respWaitMs) reply) =
        w.handles.live := by
      rw [liveAfter]
      change (evtSchedAddWithTimestep w.handles.timed.ctx malloc grow now _ _ reply).1 = none at result
      rw [result]
    refine ⟨one.handled,fun x live => ?_,fun e is => by cases is⟩
    obtain ⟨old,other⟩ := others x (congrFun same x ▸ live)
    rw [one.call x old]
    exact iff_of_false other (by simp)
  | some e =>
    obtain ⟨rfl,rfl⟩ := addFresh result
    obtain ⟨newCall,grows,queued⟩ := addedEvent inv grow now (evtMs2tv respWaitMs) (evtMs2tv respWaitMs) reply
    have waits := queued fun none_ => by
      change (evtSchedAddWithTimestep w.handles.timed.ctx true grow now _ _ reply).1 = some _ at result
      rw [none_] at result
      cases result
    generalize added_ : handleStep w.handles (.sched (.add true grow now (evtMs2tv respWaitMs) (evtMs2tv respWaitMs) reply)) =
      added at one newCall grows waits ⊢
    obtain ⟨home,idle,rests,held⟩ := one.handled.stands.queued (.inl waits)
    have main := ((one.handled.standing _).home .queue waits).1
    have spared : sparesSlots added.timed (.sched (.moveToMono growMono nowMono w.handles.timed.ctx.fresh)) := by
      refine ⟨held,rests,?_,fun _ => ?_⟩
      · rw [main, ← added_]
        exact addSpares result
      · rw [← added_]
        change ¬ Full growMono (evtSchedAddWithTimestep w.handles.timed.ctx true grow now _ _ reply).2.dbgQueue
        rw [addDbgQueue]
        exact room
    have live := (one.handled.live _).mpr (.inl (.inl waits))
    have two := one.handled.moveToMono live nowMono spared
    have three : Reached _ (handleStep _ (.sched (.setCritical w.handles.timed.ctx.fresh 0))) _ :=
      two.handled.reached live trivial
    have moved := (monoShifted one.handled.shelves home spared.2.2.1 spared.2.2.2 nowMono).1
    obtain ⟨_,_,older⟩ := two.touches
    refine ⟨three.handled,fun x live => ?_,fun e is => ?_⟩
    · change added.live x = true at live
      by_cases new : x = w.handles.timed.ctx.fresh
      · subst new
        rw [three.call _ (grows.trans_le older.fresh), two.call _ grows, newCall]
        exact iff_of_true rfl rfl
      · rw [← added_] at live
        obtain ⟨old,other⟩ := others x ((liveBefore live).resolve_right fun is => new is.1)
        rw [three.call x ((old.trans grows).trans_le older.fresh), two.call x (old.trans grows), one.call x old]
        exact iff_of_false other fun is => new (Option.some.inj is).symm
    · cases is
      exact (moved.members .dbgQueue _).mpr (.inr ⟨rfl,rfl⟩)

theorem TimerKept.dropped (kept : TimerKept reply w) (is : w.dbgReplyEvt = some e)
    (spares : ¬ Displaces callbacks (w.handles.timed.ctx.heap .dbgQueue) e) :
    TimerKept reply ⟨handleStep w.handles (.sched (.remove e)),none⟩ := by
  have inv := kept.handled
  have queued := kept.waits e is
  obtain ⟨own,idle⟩ := (inv.standing e).home .dbgQueue queued
  have live := (inv.live e).mpr (.inl (.inr queued))
  have out := inv.remove live fun _ => by
    rw [own]
    exact spares
  have gone : (handleStep w.handles (.sched (.remove e))).live = Function.update w.handles.live e false := if_pos idle
  refine ⟨out.handled,fun x live' => ?_,fun e is => by cases is⟩
  rw [gone] at live'
  have ne : x ≠ e := by
    rintro rfl
    simp at live'
  rw [Function.update_of_ne ne] at live'
  rw [out.call x ((inv.standing x).bound ((inv.live x).mp live')).2]
  refine iff_of_false (fun call => ne ?_) (by simp)
  exact Option.some.inj (((kept.calls x live').mp call).symm.trans is)

theorem TimerKept.iterationEnd [DecidableEq A] (kept : TimerKept reply w) {watches pending malloc grow growMono : Bool}
    {now nowMono : Timeval}
    (spared : sparesTimer reply w (.iterationEnd watches pending malloc grow growMono now nowMono)) :
    TimerKept reply (loopStep reply w (.iterationEnd watches pending malloc grow growMono now nowMono)) := by
  rw [loopStep]
  cases watches with
  | false => exact kept
  | true =>
    obtain ⟨room,spares⟩ := spared rfl
    cases pending with
    | true =>
      cases is : w.dbgReplyEvt with
      | none => exact kept.added is (room rfl is) malloc grow now nowMono
      | some e => exact kept
    | false =>
      cases is : w.dbgReplyEvt with
      | none => exact kept
      | some e => exact kept.dropped is (spares rfl e is)

theorem TimerKept.step [DecidableEq A] (kept : TimerKept reply w) {act : LoopAct A} (may : mayAct reply w act)
    (spared : sparesTimer reply w act) : TimerKept reply (loopStep reply w act) := by
  cases act with
  | handle act => exact kept.handle may spared
  | iterationEnd watches pending malloc grow growMono now nowMono => exact kept.iterationEnd spared

end

theorem startKept (reply : A) {hashSize : Nat} (fits : 8 * (hashSize + 1) < 2 ^ 64) (events : Memory A)
    (d dbg : Nat → EventId) : TimerKept reply (startLoop hashSize events d dbg) :=
  ⟨startHandled fits events d dbg,fun _ live => (by cases live),fun _ is => by cases is⟩

/- In any run in which the reply timer does not expire, each iteration ends with the timer that
dbg_reply_evt names, or with none. -/
theorem oneTimerAlong [DecidableEq A] (reply : A) (hashSize : Nat) (int : hashSize < 2 ^ 31) (events : Memory A)
    (d dbg : Nat → EventId) (acts : List (LoopAct A))
    (along : Along (loopStep reply) (fun w act => mayAct reply w act ∧ sparesTimer reply w act)
      (startLoop hashSize events d dbg) acts) :
    Along (loopStep reply) (endsWithOneTimer reply) (startLoop hashSize events d dbg) acts := by
  refine along.given (fun _ _ kept good => kept.step good.1 good.2) (fun w act kept good => ?_)
    (startKept reply (by omega) events d dbg)
  cases act with
  | handle act => trivial
  | iterationEnd watches pending malloc grow growMono now nowMono => exact (kept.iterationEnd good.2).oneTimer

section
variable [DecidableEq A] (reply : A)

instance (w : Loop A) : ∀ act, Decidable (foreign reply w act)
  | .update _ e _ | .updatePartialCredit _ e _ | .sched (.setCritical e _) | .sched (.makeBreakpoint e)
  | .sched (.moveToMono _ _ e) | .sched (.remove e) =>
    inferInstanceAs (Decidable ((w.handles.timed.ctx.events e).call ≠ reply))
  | .sched (.add _ _ _ _ _ call) => inferInstanceAs (Decidable (call ≠ reply))
  | .sched (.fire _) => inferInstanceAs (Decidable (w.dbgReplyEvt = none))
  | .sched (.fireDbg _) | .sched (.singleStep _) | .sched (.ret ..) | .sched (.debugger ..) =>
    inferInstanceAs (Decidable True)

instance (w : Loop A) : ∀ act, Decidable (mayAct reply w act)
  | .handle act => inferInstanceAs (Decidable (mayCall w.handles act ∧ foreign reply w act))
  | .iterationEnd .. => inferInstanceAs (Decidable (w.handles.timed.running = none))

instance (ctx : EventState A) : ∀ act, Decidable (expires reply ctx act)
  | .sched (.fireDbg now) => inferInstanceAs (Decidable (∃ e ∈ peek ctx.dbgQueue, (ctx.events e).call = reply ∧
      Timeval.timercmp (· > ·) (ctx.events e).nextAwake now = false))
  | .sched (.add ..) | .sched (.setCritical ..) | .sched (.makeBreakpoint _) | .sched (.moveToMono ..) | .sched (.remove _)
  | .sched (.fire _) | .sched (.singleStep _) | .sched (.ret ..) | .sched (.debugger ..) | .update .. | .updatePartialCredit .. =>
    inferInstanceAs (Decidable False)

instance (w : Loop A) : ∀ act, Decidable (sparesTimer reply w act)
  | .handle act => inferInstanceAs
      (Decidable (sparesSlots w.handles.timed act ∧ ¬ expires reply w.handles.timed.ctx act))
  | .iterationEnd watches pending _ _ growMono _ _ => inferInstanceAs (Decidable (watches = true →
      (pending = true → w.dbgReplyEvt = none → ¬ Full growMono w.handles.timed.ctx.dbgQueue) ∧
      (pending = false → ∀ e ∈ w.dbgReplyEvt, ¬ Displaces callbacks (w.handles.timed.ctx.heap .dbgQueue) e)))

end

inductive Callback where
  | edbgResponseTimeout
  | other
  deriving DecidableEq, Repr

def fresh : Loop Callback := startLoop 19 (fun _ => clearedCB .other) (fun _ => 0) (fun _ => 0)

def endAt (pending : Bool) (n : Int) : LoopAct Callback := .iterationEnd true pending true true true ⟨n,0⟩ ⟨n,0⟩

def answered : List (LoopAct Callback) :=
  [.handle (.sched (.add true true ⟨0,0⟩ ⟨1,0⟩ ⟨1,0⟩ .other)),endAt true 0,.handle (.sched (.fireDbg ⟨0,200000⟩)),
    .handle (.update ⟨0,0⟩ 1 ⟨2,0⟩),endAt true 0,endAt false 0,.handle (.sched (.fire ⟨2,0⟩)),
    .handle (.sched (.ret true true)),endAt true 2]

theorem oneTimerAnswered : Along (loopStep .edbgResponseTimeout) (endsWithOneTimer .edbgResponseTimeout) fresh answered :=
  oneTimerAlong Callback.edbgResponseTimeout 19 (by decide) _ _ _ answered (by decide +kernel)

def expired : List (LoopAct Callback) :=
  [endAt true 0,.handle (.sched (.fireDbg ⟨0,300000⟩)),.handle (.sched (.ret true true)),endAt true 0]

theorem expiredTimerStays : Along (loopStep .edbgResponseTimeout) (mayAct .edbgResponseTimeout) fresh expired ∧
    ¬ Along (loopStep .edbgResponseTimeout) (endsWithOneTimer .edbgResponseTimeout) fresh expired := by
  refine ⟨by decide +kernel,fun along => ?_⟩
  have last : OneTimer .edbgResponseTimeout (exec (loopStep .edbgResponseTimeout) fresh expired) := along.2.2.2.1
  have second : (exec (loopStep .edbgResponseTimeout) fresh expired).dbgReplyEvt = some 2 := by decide +kernel
  have first : Waiting (exec (loopStep .edbgResponseTimeout) fresh expired).handles.timed 1 ∧
      ((exec (loopStep .edbgResponseTimeout) fresh expired).handles.timed.ctx.events 1).call = .edbgResponseTimeout := by
    decide +kernel
  rw [(last 1).mp first] at second
  cases second

end LibProc.ReplyTimer
