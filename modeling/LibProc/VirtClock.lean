import LibProc.TimedRuns

/-! The loop under the virtual clock of eventTimer.c. Every reading is the time the
clock was last set to, and the clock is set when the loop blocks: to the wake time of
the head. So a firing is read at exactly the time it was due. -/
namespace LibProc.VirtClock
open PriorityQueue HeapOrder Scheduler Runs TimedLoop TimedRuns

variable {A : Type}

def etVirtBlock (active : Bool) (nextAwake : Option Timeval) (pauseWhileBlocking : Bool) (time : Timeval) : Timeval :=
  match nextAwake with
  | some next => if pauseWhileBlocking then time else if active then next else time
  | none => time

structure Virt (A : Type) where
  trace : Traced A
  time : Timeval

inductive Action (A : Type) where
  | add (malloc grow : Bool) (time timestep : Timeval) (call : A)
  | block
  | fire
  | ret (keep grow : Bool)

def nextAwake (ctx : EventState A) : Option Timeval := (peek ctx.queue).map fun e => (ctx.events e).nextAwake

def step (v : Virt A) : Action A → Virt A
  | .add malloc grow time timestep call => ⟨traced v.trace (.add malloc grow v.time time timestep call),v.time⟩
  | .block => ⟨v.trace,etVirtBlock true (nextAwake v.trace.loop.ctx) false v.time⟩
  | .fire => ⟨traced v.trace (.fire v.time),v.time⟩
  | .ret keep grow => ⟨traced v.trace (.ret keep grow),v.time⟩

def start (hashSize : Nat) (events : Memory A) (d dbg : Nat → EventId) (initTime : Timeval) : Virt A :=
  ⟨begin_ hashSize events d dbg initTime,initTime⟩

def Legal (v : Virt A) : Action A → Prop
  | .add _ _ time timestep _ => Delay time ∧ Delay timestep
  | .block => v.trace.loop.running = none
  | .fire => v.trace.loop.running = none
  | .ret _ _ => v.trace.loop.running ≠ none

instance (v : Virt A) : ∀ a, Decidable (Legal v a)
  | .add .. => inferInstanceAs (Decidable (_ ∧ _))
  | .block => inferInstanceAs (Decidable (_ = _))
  | .fire => inferInstanceAs (Decidable (_ = _))
  | .ret .. => inferInstanceAs (Decidable (_ ≠ _))

def PutBack (v : Virt A) : Action A → Prop
  | .ret keep grow => keep = true → ¬ Full grow v.trace.loop.ctx.queue
  | _ => True

instance (v : Virt A) : ∀ a, Decidable (PutBack v a)
  | .add .. => inferInstanceAs (Decidable True)
  | .block => inferInstanceAs (Decidable True)
  | .fire => inferInstanceAs (Decidable True)
  | .ret .. => inferInstanceAs (Decidable (_ → _))

structure Punctual (v : Virt A) : Prop where
  scheduled : Scheduled v.trace
  reading : v.time.Reading
  clock : v.trace.loop.clock ≤ v.time
  ahead : ∀ x, Held v.trace.loop x → v.time ≤ awake v.trace.loop x
  prompt : ∀ e due now, .fired e due now ∈ v.trace.log → due = now
  put : ∀ e room, .returned e true room ∈ v.trace.log → room = true

theorem startPunctual (hashSize : Nat) (events : Memory A) (d dbg : Nat → EventId) {initTime : Timeval}
    (reading : initTime.Reading) : Punctual (start hashSize events d dbg initTime) where
  scheduled := beginScheduled hashSize events d dbg reading
  reading := reading
  clock := le_rfl
  ahead x held := by
    rcases held with ⟨i,first,last,_⟩ | running
    · simp only [start,begin_,TimedLoop.start,evtInitWithSize,init] at last
      omega
    · simp [start,begin_,TimedLoop.start] at running
  prompt := by simp [start,begin_]
  put := by simp [start,begin_]

section
variable {w w' : Loop A} {log : List Occurrence} {time : Timeval}

theorem promptStep (change : Change w w' log) (clock : w'.clock ≤ time)
    (ahead : ∀ x, Held w x → time ≤ awake w x) : ∀ e due now, .fired e due now ∈ log → due = now := by
  intro e due now mem
  cases change with
  | nothing held same frame fresh => simp at mem
  | add now time timestep reading delay stride held same clock frame first each fresh => simp at mem
  | fire head now held was least due idle runs set awakes periods entered fresh =>
    cases List.mem_singleton.mp mem
    exact le_antisymm due ((set ▸ clock).trans (ahead _ (.inl was)))
  | ret x curTime keep room held was absent idle clock frame moved fresh => simp at mem

end

theorem tracedPunctual {v : Virt A} {a : TimedLoop.Action A} (punctual : Punctual v) (ok : Timely v.trace a)
    (clock : (TimedLoop.step v.trace.loop a).clock ≤ v.time)
    (adds : ∀ e b d s, .added e b d s ∈ occurs v.trace.loop a → v.time ≤ b)
    (put : ∀ e room, .returned e true room ∈ occurs v.trace.loop a → room = true) :
    Punctual ⟨traced v.trace a,v.time⟩ := by
  have regular := punctual.scheduled.regular
  have happened := change regular.steady ok
  refine ⟨scheduledStep v.trace a punctual.scheduled ok,punctual.reading,clock,
    aheadStep regular happened adds punctual.ahead,?_,?_⟩
  · intro e due now mem
    rcases List.mem_append.mp mem with new | old
    · exact promptStep happened clock punctual.ahead e due now new
    · exact punctual.prompt e due now old
  · intro e room mem
    rcases List.mem_append.mp mem with new | old
    · exact put e room new
    · exact punctual.put e room old

theorem blockPunctual {v : Virt A} (punctual : Punctual v) (idle : v.trace.loop.running = none) :
    Punctual (step v .block) := by
  have regular := punctual.scheduled.regular
  cases found : peek v.trace.loop.ctx.queue with
  | none =>
    have same : step v .block = v := by simp [step,nextAwake,found,etVirtBlock]
    rw [same]
    exact punctual
  | some head =>
    have set : step v .block = ⟨v.trace,awake v.trace.loop head⟩ := by
      simp [step,nextAwake,found,etVirtBlock]
    have held : Held v.trace.loop head := .inl (peekQueued regular.steady.ready.sound found).2.2
    rw [set]
    refine ⟨punctual.scheduled,(regular.awakes head held).reading,punctual.clock.trans (punctual.ahead head held),
      ?_,punctual.prompt,punctual.put⟩
    rintro x (queued | running)
    · exact peekLeast regular.steady.ready.sound found queued
    · simp [idle] at running

theorem stepPunctual (v : Virt A) (a : Action A) (punctual : Punctual v) (ok : Legal v a ∧ PutBack v a) :
    Punctual (step v a) := by
  obtain ⟨legal,back⟩ := ok
  cases a with
  | add malloc grow time timestep call =>
    refine tracedPunctual punctual ⟨punctual.clock,punctual.reading,legal.1,legal.2⟩ le_rfl ?_ ?_
    · intro e b d s mem
      simp only [occurs] at mem
      split at mem
      · cases List.mem_singleton.mp mem
        exact le_rfl
      · simp at mem
    · intro e room mem
      simp only [occurs] at mem
      split at mem <;> simp at mem
  | block => exact blockPunctual punctual legal
  | fire =>
    refine tracedPunctual punctual ⟨punctual.clock,legal,punctual.reading⟩ ?_ ?_ ?_
    · simp only [TimedLoop.step,fired]
      split <;> exact le_rfl
    · intro e b d s mem
      simp only [occurs] at mem
      split at mem <;> simp at mem
    · intro e room mem
      simp only [occurs] at mem
      split at mem <;> simp at mem
  | ret keep grow =>
    refine tracedPunctual punctual legal ?_ ?_ ?_
    · simp only [TimedLoop.step]
      split <;> exact punctual.clock
    · intro e b d s mem
      simp only [occurs] at mem
      split at mem <;> simp at mem
    · intro e room mem
      simp only [occurs] at mem
      split at mem
      · simp only [List.mem_singleton,Occurrence.returned.injEq] at mem
        obtain ⟨_,rfl,rfl⟩ := mem
        simpa using back rfl
      · simp at mem

def seenBy (e : EventId) (T : Timeval) : Occurrence → Bool
  | .fired x _ now => x == e && decide (now ≤ T)
  | _ => false

/- Once nothing due by `T` is left, a periodic event that was always kept has fired once
for every period that fits between its scheduling and `T`. -/
def CountsPeriods (v : Virt A) : Prop :=
  ∀ e b p T, .added e b p p ∈ v.trace.log → 0 < p.usecs →
    (∀ keep room, .returned e keep room ∈ v.trace.log → keep = true) →
    v.trace.loop.running = none → (∀ x, Queued v.trace.loop.ctx.queue x → T < awake v.trace.loop x) →
    T.Normal → b.usecs ≤ T.usecs →
    (v.trace.log.countP (seenBy e T) : Int) = (T.usecs - b.usecs) / p.usecs ∧
    ((∀ x due now, .fired x due now ∈ v.trace.log → now ≤ T) →
      (firings e v.trace.log : Int) = (T.usecs - b.usecs) / p.usecs)

theorem seenDue {v : Virt A} (punctual : Punctual v) (e : EventId) (T : Timeval) :
    v.trace.log.countP (seenBy e T) = v.trace.log.countP (dueBy e T) := by
  refine List.countP_congr fun o mem => ?_
  cases o with
  | fired x due now => rw [seenBy, dueBy, punctual.prompt x due now mem]
  | added => simp [seenBy,dueBy]
  | returned => simp [seenBy,dueBy]

theorem Punctual.countsPeriods {v : Virt A} (punctual : Punctual v) : CountsPeriods v := by
  intro e b p T added positive keeps idle clear normal later
  have plan := punctual.scheduled.plan.plans e b p p added
  have held : Held v.trace.loop e := plan.kept fun keep room mem => by
    cases keeps keep room mem
    exact ⟨rfl,punctual.put e room mem⟩
  have queued : Queued v.trace.loop.ctx.queue e := by
    rcases held with queued | running
    · exact queued
    · simp [idle] at running
  have next : T.usecs < b.usecs + p.usecs + firings e v.trace.log * p.usecs := by
    have awaits := clear e queued
    rw [lt_iff_not_ge, Timeval.leUsecs (punctual.scheduled.regular.awakes e held) normal,
      plan.next held, completed, unfinishedIdle idle, sub_zero] at awaits
    exact not_le.mp awaits
  have nonneg : 0 ≤ (T.usecs - b.usecs) / p.usecs := Int.ediv_nonneg (by omega) positive.le
  have few : (T.usecs - b.usecs) / p.usecs ≤ firings e v.trace.log := by
    refine Int.lt_add_one_iff.mp (Int.ediv_lt_of_lt_mul positive ?_)
    linarith
  have count : (v.trace.log.countP (seenBy e T) : Int) = (T.usecs - b.usecs) / p.usecs := by
    rw [seenDue punctual, plan.count T normal rfl positive]
    unfold periodsBy
    omega
  refine ⟨count,fun all => ?_⟩
  rw [← count, firings]
  congr 1
  refine List.countP_congr fun o mem => ?_
  cases o with
  | fired x due now => simp [firedBy,seenBy,all x due now mem]
  | added => simp [firedBy,seenBy]
  | returned => simp [firedBy,seenBy]

theorem runsKeepSchedule {hashSize : Nat} {events : Memory A} {d dbg : Nat → EventId} {clock : Timeval}
    {acts : List (TimedLoop.Action A)} {virtActs : List (Action A)} (reading : clock.Reading)
    (run : Along traced Timely (begin_ hashSize events d dbg clock) acts)
    (virtRun : Along step (fun v a => Legal v a ∧ PutBack v a) (start hashSize events d dbg clock) virtActs) :
    OnTime (exec traced (begin_ hashSize events d dbg clock) acts) ∧
      CountsPeriods (exec step (start hashSize events d dbg clock) virtActs) :=
  ⟨runOnTime reading run,
    (virtRun.invariant stepPunctual (startPunctual hashSize events d dbg reading)).countsPeriods⟩

def blankTrace : Traced Unit :=
  begin_ 19 (fun _ => newSchedCB ⟨0,0⟩ ⟨0,0⟩ ⟨0,0⟩ ()) (fun _ => 0) (fun _ => 0) ⟨0,0⟩

def blankVirt : Virt Unit := ⟨blankTrace,⟨0,0⟩⟩

def mixedRun : List (TimedLoop.Action Unit) :=
  [.add true true (seconds 0) (seconds 2) (seconds 2) (),.add true true (seconds 0) (seconds 3) (seconds 3) (),
    .fire (seconds 2),.ret true true,.fire (seconds 7),.add true true (seconds 7) (seconds 0) (seconds 1) (),
    .ret true true,.fire (seconds 7),.ret false true,.fire (seconds 8),.ret true true]

def mixedVirtRun : List (Action Unit) :=
  [.add true true (seconds 2) (seconds 2) (),.add true true (seconds 3) (seconds 3) (),.block,.fire,.ret true true,
    .block,.fire,.add true true (seconds 9) (seconds 9) (),.ret true true,.block,.fire,.ret true true,.fire]

theorem mixedRunsKeepSchedule :
    OnTime (exec traced blankTrace mixedRun) ∧ CountsPeriods (exec step blankVirt mixedVirtRun) :=
  runsKeepSchedule (show (seconds 0).Reading by decide) (by decide +kernel) (by decide +kernel)

def lostRun : List (Action Unit) :=
  [.add true true (seconds 1) (seconds 1) (),.block,.fire] ++
    List.replicate 19 (.add true true (seconds 10) (seconds 10) ()) ++ [.ret true false]

theorem unplacedEventStopsFiring : Along step Legal blankVirt lostRun ∧
    ¬ CountsPeriods (exec step blankVirt lostRun) := by
  refine ⟨by decide +kernel,fun counts => ?_⟩
  have size : (exec step blankVirt lostRun).trace.loop.ctx.queue.size = 20 := by decide +kernel
  have later : ∀ i < 20, 1 ≤ i → seconds 2 < awake (exec step blankVirt lostRun).trace.loop
      ((exec step blankVirt lostRun).trace.loop.ctx.queue.d i) := by decide +kernel
  have keeps : ∀ o ∈ (exec step blankVirt lostRun).trace.log, ∀ room, o ≠ .returned 1 false room := by
    decide +kernel
  have clear : ∀ x, Queued (exec step blankVirt lostRun).trace.loop.ctx.queue x →
      seconds 2 < awake (exec step blankVirt lostRun).trace.loop x := by
    rintro x ⟨i,first,last,rfl⟩
    exact later i (size ▸ last) first
  have once := (counts 1 (seconds 0) (seconds 1) (seconds 2) (by decide +kernel) (by decide)
    (fun keep room mem => by
      cases keep with
      | true => rfl
      | false => exact (keeps _ mem room rfl).elim)
    (by decide +kernel) clear (by decide) (by decide)).1
  revert once
  decide +kernel

end LibProc.VirtClock
