import LibProc.Runs
import LibProc.SchedulerSpec

/-! Runs of the timed-event loop. A step is one call of the scheduler interface, from
outside or from the running callback, one turn of the loop that pops a due event, or
the return of its callback. The invariant holds at every step, whatever is scheduled. -/
namespace LibProc.TimedLoop
open PriorityQueue HeapOrder Scheduler Runs

variable {A : Type}

structure Loop (A : Type) where
  ctx : EventState A
  running : Option (EventId × Timeval)
  clock : Timeval

def start (hashSize : Nat) (events : Memory A) (d dbg : Nat → EventId) (clock : Timeval) : Loop A :=
  ⟨evtInitWithSize hashSize events d dbg,none,clock⟩

inductive Action (A : Type) where
  | add (malloc grow : Bool) (now time timestep : Timeval) (call : A)
  | update (now : Timeval) (e : EventId) (time : Timeval)
  | credit (now : Timeval) (e : EventId) (time : Timeval)
  | fire (now : Timeval)
  | ret (keep grow : Bool)

def fired (now : Timeval) (w : Loop A) : Option (EventId × Bool) × EventState A → Loop A
  | (some (e,true),ctx) => ⟨ctx,some (e,now),now⟩
  | (_,ctx) => ⟨ctx,w.running,now⟩

def step (w : Loop A) : Action A → Loop A
  | .add malloc grow now time timestep call =>
      ⟨(evtSchedAddWithTimestep w.ctx malloc grow now time timestep call).2,w.running,now⟩
  | .update now e time => ⟨evtSchedUpdate w.ctx now e time,w.running,now⟩
  | .credit now e time => ⟨evtSchedUpdatePartialCredit w.ctx now e time,w.running,now⟩
  | .fire now => fired now w (fireTimedEvent w.ctx now)
  | .ret keep grow => match w.running with
    | some (e,curTime) => ⟨finishTimedEvent w.ctx e curTime keep grow,none,w.clock⟩
    | none => w

def Held (w : Loop A) (e : EventId) : Prop :=
  Queued w.ctx.queue e ∨ w.running.map Prod.fst = some e

def Legal (w : Loop A) : Action A → Prop
  | .add _ _ now _ _ _ => w.clock ≤ now
  | .update now e _ => w.clock ≤ now ∧ Held w e
  | .credit now e _ => w.clock ≤ now ∧ Held w e
  | .fire now => w.clock ≤ now ∧ w.running = none
  | .ret _ _ => w.running ≠ none

instance (w : Loop A) (e : EventId) : Decidable (Held w e) := inferInstanceAs (Decidable (_ ∨ _))

instance (w : Loop A) : ∀ a, Decidable (Legal w a)
  | .add .. => inferInstanceAs (Decidable (_ ≤ _))
  | .update .. => inferInstanceAs (Decidable (_ ∧ _))
  | .credit .. => inferInstanceAs (Decidable (_ ∧ _))
  | .fire .. => inferInstanceAs (Decidable (_ ∧ _))
  | .ret .. => inferInstanceAs (Decidable (_ ≠ _))

def NoChildEarlier (w : Loop A) (e : EventId) (awake : Timeval) : Prop :=
  ∀ child, child < w.ctx.queue.size → 1 < child → child / 2 = (w.ctx.events e).pos →
    awake ≤ (w.ctx.events (w.ctx.queue.d child)).nextAwake

instance (w : Loop A) (e : EventId) (awake : Timeval) : Decidable (NoChildEarlier w e awake) :=
  inferInstanceAs (Decidable (∀ child, child < _ → _))

/- The updates the queue can follow: those of a running event, and those that leave a
queued event no later than its children. -/
def InPlace (w : Loop A) : Action A → Prop
  | .update now e time => Queued w.ctx.queue e → NoChildEarlier w e (Timeval.timeradd now time)
  | .credit now e time => Queued w.ctx.queue e →
      NoChildEarlier w e (creditedAwake now (w.ctx.events e).scheduleTime time)
  | _ => True

instance (w : Loop A) : ∀ a, Decidable (InPlace w a)
  | .add .. => inferInstanceAs (Decidable True)
  | .update .. => inferInstanceAs (Decidable (_ → _))
  | .credit .. => inferInstanceAs (Decidable (_ → _))
  | .fire .. => inferInstanceAs (Decidable True)
  | .ret .. => inferInstanceAs (Decidable True)

structure Steady (w : Loop A) : Prop where
  ready : Ready w.ctx
  busy : ∀ e t, w.running = some (e,t) →
    e < w.ctx.fresh ∧ ¬ Queued w.ctx.queue e ∧ Busy (w.ctx.events e)

theorem startSteady (hashSize : Nat) (events : Memory A) (d dbg : Nat → EventId) (clock : Timeval) :
    Steady (start hashSize events d dbg clock) where
  ready :=
    { sound := ⟨le_rfl,fun i first last => by simp [start,evtInitWithSize,init] at last; omega,
        fun i first last => by simp [start,evtInitWithSize,init] at last; omega⟩
      bound := by
        rintro e ⟨i,first,last,_⟩
        simp [start,evtInitWithSize,init] at last
        omega
      idle := by
        rintro e ⟨i,first,last,_⟩
        simp [start,evtInitWithSize,init] at last
        omega
      running := rfl }
  busy e t none := by simp [start] at none

theorem addSteady {w : Loop A} (steady : Steady w) (malloc grow : Bool) (now time timestep : Timeval)
    (call : A) : Steady (step w (.add malloc grow now time timestep call)) where
  ready := (addSpec steady.ready malloc grow now time timestep call).ready
  busy e t found := by
    have added := addSpec steady.ready malloc grow now time timestep call
    obtain ⟨bound,absent,busy⟩ := steady.busy e t found
    refine ⟨bound.trans_le added.fresh,?_,busy.ofBody (added.old e bound)⟩
    intro queued
    rcases (added.members e).mp queued with new | old
    · rcases added.result with none | some
      · rw [none] at new
        contradiction
      · rw [some] at new
        exact bound.ne (Option.some.inj new).symm
    · exact absent old

theorem requeueSteady {w : Loop A} {e : EventId} {now : Timeval} {f : ScheduleCB A → ScheduleCB A}
    (r : Rescheduling f) (steady : Steady w) (held : Held w e)
    (early : Queued w.ctx.queue e → NoChildEarlier w e (f (w.ctx.events e)).nextAwake) :
    Steady ⟨requeue (w.ctx.modify e f) e,w.running,now⟩ := by
  have gone : ∀ x t, w.running = some (x,t) → Queued w.ctx.queue e → x ≠ e := by
    rintro x t found queued rfl
    exact (steady.busy x t found).2.1 queued
  rcases held with queued | running
  · obtain ⟨settles,bodies,fresh,off⟩ := requeueQueued r steady.ready queued
    have settled := settles.mpr fun child first parent last => early queued child last first parent
    have others : ∀ x, x ≠ e → body ((requeue (w.ctx.modify e f) e).events x) = body (w.ctx.events x) := by
      intro x ne
      rw [bodies x, modifyOther f ne]
    refine ⟨⟨settled.sound,?_,?_,off.trans steady.ready.running⟩,?_⟩
    · intro x q
      rw [fresh]
      exact steady.ready.bound x ((settled.members x).mp q)
    · intro x q
      have idle := steady.ready.idle x ((settled.members x).mp q)
      by_cases same : x = e
      · subst same
        refine Idle.ofBody (b := f (w.ctx.events x)) ?_ ((bodies x).trans (by rw [modifySelf]))
        exact ⟨(r.inCallback _).trans idle.1,(r.queue _).trans idle.2.1,(r.breakpoint _).trans idle.2.2⟩
      · exact idle.ofBody (others x same)
    · intro x t found
      obtain ⟨bound,absent,busy⟩ := steady.busy x t found
      refine ⟨fresh ▸ bound,fun q => absent ((settled.members x).mp q),?_⟩
      exact busy.ofBody (others x (gone x t found queued))
  · obtain ⟨⟨x,t⟩,found,same⟩ := Option.map_eq_some_iff.mp running
    cases same
    obtain ⟨bound,absent,busy⟩ := steady.busy x t found
    have other : ∀ y, Queued w.ctx.queue y → y ≠ x := fun y q same => absent (same ▸ q)
    rw [requeueRunning r busy.1]
    refine ⟨⟨?_,steady.ready.bound,?_,steady.ready.running⟩,?_⟩
    · refine soundModify (fun y q => ?_) (fun y q => ?_) steady.ready.sound
      · rw [modifyOther _ (other y q)]
      · rw [modifyOther _ (other y q)]
    · intro y q
      rw [modifyOther _ (other y q)]
      exact steady.ready.idle y q
    · intro y t' found'
      cases Option.some.inj (found.symm.trans found')
      refine ⟨bound,absent,?_⟩
      rw [modifySelf]
      exact ⟨by simp,(r.queue _).trans busy.2.1,(r.breakpoint _).trans busy.2.2⟩

theorem fireSteady {w : Loop A} (steady : Steady w) (now : Timeval) :
    Steady (step w (.fire now)) := by
  rcases fireSpec steady.ready now with ⟨same,_⟩ | ⟨head,ctx',same,found,_,taken⟩
  · simp only [step,same,fired]
    exact ⟨steady.ready,fun e t running => steady.busy e t running⟩
  · simp only [step,same,fired]
    have queued := (peekQueued steady.ready.sound found).2.2
    refine ⟨taken.ready,?_⟩
    rintro e t running
    cases Option.some.inj running
    refine ⟨taken.fresh ▸ steady.ready.bound head queued,fun q => ((taken.members head).mp q).2 rfl,?_⟩
    have was := steady.ready.idle head queued
    refine Busy.ofBody (b := entered (w.ctx.events head)) ?_ taken.self
    exact ⟨by simp [entered],was.2.1,was.2.2⟩

theorem retSteady {w : Loop A} (steady : Steady w) (keep grow : Bool) : Steady (step w (.ret keep grow)) := by
  cases found : w.running with
  | none =>
    simp only [step,found]
    exact steady
  | some pair =>
    obtain ⟨e,t⟩ := pair
    obtain ⟨bound,absent,busy⟩ := steady.busy e t found
    simp only [step,found]
    refine ⟨?_,by simp⟩
    cases keep with
    | true => exact (keepSpec steady.ready busy absent bound t grow).ready
    | false => exact (dropSpec steady.ready t grow).2.2.2

theorem stepSteady (w : Loop A) (a : Action A) (steady : Steady w) (ok : Legal w a ∧ InPlace w a) :
    Steady (step w a) := by
  cases a with
  | add malloc grow now time timestep call => exact addSteady steady malloc grow now time timestep call
  | update now e time => exact requeueSteady (updateRescheduling now time) steady ok.1.2 ok.2
  | credit now e time => exact requeueSteady (creditRescheduling now time) steady ok.1.2 ok.2
  | fire now => exact fireSteady steady now
  | ret keep grow => exact retSteady steady keep grow

def PeekEarliest (w : Loop A) : Prop :=
  ∀ head, peek w.ctx.queue = some head → ∀ e, Queued w.ctx.queue e →
    (w.ctx.events head).nextAwake ≤ (w.ctx.events e).nextAwake

theorem runPeeksEarliest {hashSize : Nat} {events : Memory A} {d dbg : Nat → EventId} {clock : Timeval}
    {acts : List (Action A)}
    (run : Along step (fun w a => Legal w a ∧ InPlace w a) (start hashSize events d dbg clock) acts) :
    PeekEarliest (exec step (start hashSize events d dbg clock) acts) := by
  have steady := run.invariant stepSteady (startSteady hashSize events d dbg clock)
  intro head found e queued
  exact peekLeast steady.ready.sound found queued

def seconds (n : Int) : Timeval := ⟨n,0⟩

def blank : Loop Unit := start 19 (fun _ => newSchedCB ⟨0,0⟩ ⟨0,0⟩ ⟨0,0⟩ ()) (fun _ => 0) (fun _ => 0) ⟨0,0⟩

def sampleRun : List (Action Unit) :=
  [.add true true (seconds 0) (seconds 5) (seconds 5) (),.add true true (seconds 0) (seconds 7) (seconds 7) (),
    .update (seconds 1) 2 (seconds 1),.fire (seconds 2),.ret true true,.fire (seconds 6),
    .credit (seconds 6) 2 (seconds 9),.ret true true]

theorem sampleRunPeeksEarliest :
    Along step (fun w a => Legal w a ∧ InPlace w a) blank sampleRun ∧
      PeekEarliest (exec step blank sampleRun) := by
  have run : Along step (fun w a => Legal w a ∧ InPlace w a) blank sampleRun := by decide +kernel
  exact ⟨run,runPeeksEarliest run⟩

def laterRun : List (Action Unit) :=
  [.add true true (seconds 0) (seconds 1) (seconds 1) (),.add true true (seconds 0) (seconds 2) (seconds 2) (),
    .update (seconds 0) 1 (seconds 10)]

theorem laterUpdateStaysAtHead : Along step Legal blank laterRun ∧ ¬ PeekEarliest (exec step blank laterRun) := by
  refine ⟨by decide +kernel,?_⟩
  intro earliest
  have less := earliest 1 (by decide +kernel) 2 (by decide +kernel)
  revert less
  decide +kernel

end LibProc.TimedLoop
