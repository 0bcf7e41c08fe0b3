import LibProc.TimedLoop
import Mathlib.Tactic.Ring

/-! Schedules of whole runs without updates, removals or breakpoints. The log records
what happened, newest first; it is not part of the handler. A reading may be any that
does not go back; schedules are stated in total microseconds. -/
namespace LibProc.TimedRuns
open PriorityQueue HeapOrder Scheduler Runs TimedLoop

variable {A : Type}

inductive Occurrence where
  | added (e : EventId) (t d s : Timeval)
  | fired (e : EventId) (due now : Timeval)
  | returned (e : EventId) (keep room : Bool)
  deriving DecidableEq, Repr

structure Traced (A : Type) where
  loop : Loop A
  log : List Occurrence

def occurs (w : Loop A) : Action A → List Occurrence
  | .add malloc grow now time timestep call =>
      match (evtSchedAddWithTimestep w.ctx malloc grow now time timestep call).1 with
      | some e => [.added e now time timestep]
      | none => []
  | .fire now => match (fireTimedEvent w.ctx now).1 with
    | some (e,true) => [.fired e (w.ctx.events e).nextAwake now]
    | _ => []
  | .ret keep grow => match w.running with
    | some (e,_) => [.returned e keep (decide (¬ Full grow w.ctx.queue))]
    | none => []
  | _ => []

def traced (t : Traced A) (a : Action A) : Traced A := ⟨step t.loop a,occurs t.loop a ++ t.log⟩

def begin_ (hashSize : Nat) (events : Memory A) (d dbg : Nat → EventId) (clock : Timeval) : Traced A :=
  ⟨start hashSize events d dbg clock,[]⟩

def Delay (t : Timeval) : Prop := 0 ≤ t.sec ∧ t.Normal

instance (t : Timeval) : Decidable (Delay t) := inferInstanceAs (Decidable (_ ∧ _))

def Timely (t : Traced A) : Action A → Prop
  | .add _ _ now time timestep _ => t.loop.clock ≤ now ∧ now.Reading ∧ Delay time ∧ Delay timestep
  | .fire now => t.loop.clock ≤ now ∧ t.loop.running = none ∧ now.Reading
  | .ret _ _ => t.loop.running ≠ none
  | _ => False

instance (t : Traced A) : ∀ a, Decidable (Timely t a)
  | .add .. => inferInstanceAs (Decidable (_ ∧ _))
  | .update .. => inferInstanceAs (Decidable False)
  | .credit .. => inferInstanceAs (Decidable False)
  | .fire .. => inferInstanceAs (Decidable (_ ∧ _))
  | .ret .. => inferInstanceAs (Decidable (_ ≠ _))

theorem Timely.legal {t : Traced A} {a : Action A} (ok : Timely t a) : Legal t.loop a ∧ InPlace t.loop a := by
  cases a with
  | add => exact ⟨ok.1,trivial⟩
  | update => exact ok.elim
  | credit => exact ok.elim
  | fire => exact ⟨⟨ok.1,ok.2.1⟩,trivial⟩
  | ret => exact ⟨ok,trivial⟩

def dueOf : Occurrence → Option Timeval
  | .fired _ due _ => some due
  | _ => none

def firedBy (e : EventId) : Occurrence → Bool
  | .fired x _ _ => x == e
  | _ => false

def firings (e : EventId) (log : List Occurrence) : Nat := log.countP (firedBy e)

def dueBy (e : EventId) (T : Timeval) : Occurrence → Bool
  | .fired x due _ => x == e && decide (due ≤ T)
  | _ => false

theorem delayLater {t d : Timeval} (ht : t.Reading) (hd : Delay d) : t ≤ Timeval.timeradd t d := by
  obtain ⟨sec,low,high⟩ := hd
  obtain ⟨least,most⟩ := ht
  rw [Timeval.leIff]
  simp only [Timeval.timeradd]
  split <;> simp only <;> omega

abbrev awake (w : Loop A) (x : EventId) : Timeval := (w.ctx.events x).nextAwake
abbrev period (w : Loop A) (x : EventId) : Timeval := (w.ctx.events x).timeStep

theorem heldBound {w : Loop A} (steady : Steady w) {x : EventId} (held : Held w x) : x < w.ctx.fresh := by
  rcases held with queued | running
  · exact steady.ready.bound x queued
  · obtain ⟨⟨y,t⟩,found,same⟩ := Option.map_eq_some_iff.mp running
    cases same
    exact (steady.busy _ t found).1

inductive Change (w w' : Loop A) : List Occurrence → Prop where
  | nothing (held : ∀ x, Held w' x ↔ Held w x) (same : w'.running = w.running)
      (frame : ∀ x, Held w x → body (w'.ctx.events x) = body (w.ctx.events x))
      (fresh : w.ctx.fresh ≤ w'.ctx.fresh) : Change w w' []
  | add (now time timestep : Timeval) (reading : now.Reading) (delay : Delay time) (stride : Delay timestep)
      (held : ∀ x, Held w' x ↔ x = w.ctx.fresh ∨ Held w x)
      (same : w'.running = w.running) (clock : w'.clock = now)
      (frame : ∀ x, Held w x → body (w'.ctx.events x) = body (w.ctx.events x))
      (first : awake w' w.ctx.fresh = Timeval.timeradd now time) (each : period w' w.ctx.fresh = timestep)
      (fresh : w.ctx.fresh < w'.ctx.fresh) :
      Change w w' [.added w.ctx.fresh now time timestep]
  | fire (e : EventId) (now : Timeval) (held : ∀ x, Held w' x ↔ Held w x) (was : Queued w.ctx.queue e)
      (least : ∀ x, Queued w.ctx.queue x → awake w e ≤ awake w x) (due : awake w e ≤ now)
      (idle : w.running = none) (runs : w'.running = some (e,now)) (clock : w'.clock = now)
      (awakes : ∀ x, awake w' x = awake w x) (periods : ∀ x, period w' x = period w x)
      (entered : (w'.ctx.events e).inCallback = 1) (fresh : w'.ctx.fresh = w.ctx.fresh) :
      Change w w' [.fired e (awake w e) now]
  | ret (e : EventId) (curTime : Timeval) (keep room : Bool)
      (held : ∀ x, Held w' x ↔ (keep = true ∧ room = true ∧ x = e) ∨ Queued w.ctx.queue x)
      (was : w.running = some (e,curTime)) (absent : ¬ Queued w.ctx.queue e) (idle : w'.running = none)
      (clock : w'.clock = w.clock)
      (frame : ∀ x, x ≠ e → body (w'.ctx.events x) = body (w.ctx.events x))
      (moved : keep = true → body (w'.ctx.events e) = body (keptEvent curTime (w.ctx.events e)))
      (fresh : w'.ctx.fresh = w.ctx.fresh) :
      Change w w' [.returned e keep room]

theorem addChange {w : Loop A} {now time timestep : Timeval} (steady : Steady w) (malloc grow : Bool) (call : A)
    (reading : now.Reading) (delay : Delay time) (stride : Delay timestep) :
    Change w (step w (.add malloc grow now time timestep call)) (occurs w (.add malloc grow now time timestep call)) := by
  have added := addSpec steady.ready malloc grow now time timestep call
  have frame : ∀ x, Held w x → body ((step w (.add malloc grow now time timestep call)).ctx.events x) =
      body (w.ctx.events x) := fun x held => added.old x (heldBound steady held)
  rcases added.result with none | some
  · simp only [occurs,none]
    refine .nothing (fun x => or_congr ?_ Iff.rfl) rfl frame added.fresh
    refine (added.members x).trans ?_
    simp [none]
  · simp only [occurs,some]
    have new : body _ = body (newSchedCB now time timestep call) := added.new some
    refine .add now time timestep reading delay stride (fun x => ?_) rfl rfl frame
      (sameField new ScheduleCB.nextAwake fun _ => rfl) (sameField new ScheduleCB.timeStep fun _ => rfl) (added.used some)
    have members := added.members x
    simp only [some,Option.some.injEq] at members
    simp only [Held,step]
    rw [members, or_assoc, eq_comm]

theorem fireChange {w : Loop A} (steady : Steady w) (idle : w.running = none) (now : Timeval) :
    Change w (step w (.fire now)) (occurs w (.fire now)) := by
  rcases fireSpec steady.ready now with ⟨same,_⟩ | ⟨head,ctx',same,found,due,taken⟩
  · simp only [occurs,step,same,fired]
    exact .nothing (fun _ => Iff.rfl) rfl (fun _ _ => rfl) le_rfl
  · simp only [occurs,step,same,fired]
    have queued := (peekQueued steady.ready.sound found).2.2
    have fields : ∀ x, (ctx'.events x).nextAwake = (w.ctx.events x).nextAwake ∧
        (ctx'.events x).timeStep = (w.ctx.events x).timeStep := by
      intro x
      by_cases here : x = head
      · subst here
        exact ⟨sameField taken.self ScheduleCB.nextAwake fun _ => rfl,
          sameField taken.self ScheduleCB.timeStep fun _ => rfl⟩
      · exact ⟨sameField (taken.others x here) ScheduleCB.nextAwake fun _ => rfl,
          sameField (taken.others x here) ScheduleCB.timeStep fun _ => rfl⟩
    refine .fire head now (fun x => ?_) queued (fun x q => peekLeast steady.ready.sound found q) due idle
      rfl rfl (fun x => (fields x).1) (fun x => (fields x).2)
      (sameField taken.self ScheduleCB.inCallback fun _ => rfl) taken.fresh
    simp only [Held,idle,Option.map_some,Option.map_none,Option.some.injEq]
    rw [taken.members x]
    constructor
    · rintro (⟨old,_⟩ | rfl)
      · exact .inl old
      · exact .inl queued
    · rintro (old | impossible)
      · by_cases here : x = head
        · exact .inr here.symm
        · exact .inl ⟨old,here⟩
      · contradiction

theorem retChange {w : Loop A} (steady : Steady w) (keep grow : Bool) :
    Change w (step w (.ret keep grow)) (occurs w (.ret keep grow)) := by
  cases found : w.running with
  | none =>
    simp only [occurs,step,found]
    exact .nothing (fun _ => Iff.rfl) rfl (fun _ _ => rfl) le_rfl
  | some pair =>
    obtain ⟨e,t⟩ := pair
    obtain ⟨bound,absent,busy⟩ := steady.busy e t found
    simp only [occurs,step,found]
    cases keep with
    | true =>
      have kept := keepSpec steady.ready busy absent bound t grow
      refine .ret e t true _ (fun x => ?_) found absent rfl rfl kept.others (fun _ => kept.self) kept.fresh
      simp only [Held,Option.map_none]
      rw [kept.members x]
      simp
    | false =>
      obtain ⟨events,queue,fresh,_⟩ := dropSpec (e := e) steady.ready t grow
      refine .ret e t false _ (fun x => ?_) found absent rfl rfl (fun x _ => by rw [events]) (by simp) fresh
      simp [Held,queue]

theorem change {t : Traced A} {a : Action A} (steady : Steady t.loop) (ok : Timely t a) :
    Change t.loop (step t.loop a) (occurs t.loop a) := by
  cases a with
  | add malloc grow now time timestep call => exact addChange steady malloc grow call ok.2.1 ok.2.2.1 ok.2.2.2
  | update => exact ok.elim
  | credit => exact ok.elim
  | fire now => exact fireChange steady ok.2.1 now
  | ret => exact retChange steady ..

theorem clockLater {t : Traced A} {a : Action A} (reading : t.loop.clock.Reading) (ok : Timely t a) :
    t.loop.clock ≤ (step t.loop a).clock ∧ (step t.loop a).clock.Reading := by
  cases a with
  | add => exact ⟨ok.1,ok.2.1⟩
  | update => exact ok.elim
  | credit => exact ok.elim
  | fire now =>
    have clock : (step t.loop (.fire now)).clock = now := by
      simp only [step,fired]
      split <;> rfl
    rw [clock]
    exact ⟨ok.1,ok.2.2⟩
  | ret keep grow =>
    have clock : (step t.loop (.ret keep grow)).clock = t.loop.clock := by
      simp only [step]
      split <;> rfl
    rw [clock]
    exact ⟨le_rfl,reading⟩

theorem keptAwake {w w' : Loop A} {e : EventId} {curTime : Timeval} (first : (w.ctx.events e).inCallback = 1)
    (moved : body (w'.ctx.events e) = body (keptEvent curTime (w.ctx.events e))) :
    awake w' e = Timeval.timeradd (awake w e) (period w e) ∧ period w' e = period w e := by
  constructor
  · refine (sameField moved ScheduleCB.nextAwake fun _ => rfl).trans ?_
    simp [keptEvent,first]
  · refine (sameField moved ScheduleCB.timeStep fun _ => rfl).trans ?_
    simp [keptEvent,first]

structure Regular (w : Loop A) : Prop where
  steady : Steady w
  clock : w.clock.Reading
  first : ∀ e t, w.running = some (e,t) → (w.ctx.events e).inCallback = 1
  awakes : ∀ x, Held w x → (awake w x).Normal
  steps : ∀ x, Held w x → Delay (period w x)

inductive Source (w w' : Loop A) (x : EventId) : List Occurrence → Prop where
  | born (now time timestep : Timeval) (reading : now.Reading) (delay : Delay time) (stride : Delay timestep)
      (new : x = w.ctx.fresh) (clock : w'.clock = now) (first : awake w' x = Timeval.timeradd now time)
      (each : period w' x = timestep) : Source w w' x [.added x now time timestep]
  | moved (curTime : Timeval) (was : w.running = some (x,curTime))
      (next : awake w' x = Timeval.timeradd (awake w x) (period w x)) (each : period w' x = period w x) :
      Source w w' x [.returned x true true]
  | same (log : List Occurrence) (held : Held w x) (stays : awake w' x = awake w x)
      (each : period w' x = period w x) (other : ∀ keep room, .returned x keep room ∉ log) : Source w w' x log

theorem heldSource {w w' : Loop A} {log : List Occurrence} {x : EventId} (regular : Regular w)
    (change : Change w w' log) (held' : Held w' x) : Source w w' x log := by
  have frames : body (w'.ctx.events x) = body (w.ctx.events x) →
      awake w' x = awake w x ∧ period w' x = period w x := fun frame =>
    ⟨sameField frame ScheduleCB.nextAwake fun _ => rfl,sameField frame ScheduleCB.timeStep fun _ => rfl⟩
  cases change with
  | nothing held same frame fresh =>
    have old := (held x).mp held'
    exact .same _ old (frames (frame x old)).1 (frames (frame x old)).2 (by simp)
  | add now time timestep reading delay stride held same clock frame first each fresh =>
    rcases (held x).mp held' with rfl | old
    · exact .born now time timestep reading delay stride rfl clock first each
    · exact .same _ old (frames (frame x old)).1 (frames (frame x old)).2 (by simp)
  | fire head now held was least due idle runs clock awakes periods entered fresh =>
    exact .same _ ((held x).mp held') (awakes x) (periods x) (by simp)
  | ret e curTime keep room held was absent idle clock frame moved fresh =>
    rcases (held x).mp held' with ⟨rfl,rfl,rfl⟩ | queued
    · obtain ⟨next,each⟩ := keptAwake (regular.first x curTime was) (moved rfl)
      exact .moved curTime was next each
    · have other : x ≠ e := fun same => absent (same ▸ queued)
      refine .same _ (.inl queued) (frames (frame x other)).1 (frames (frame x other)).2 ?_
      simp [other]

theorem runningHeld {w : Loop A} {e : EventId} {t : Timeval} (was : w.running = some (e,t)) : Held w e :=
  .inr (by simp [was])

theorem regularStep {w w' : Loop A} {log : List Occurrence} (regular : Regular w) (steady : Steady w')
    (clock : w'.clock.Reading) (change : Change w w' log) : Regular w' := by
  refine ⟨steady,clock,?_,?_,?_⟩
  · intro e t running
    have kept : w'.running = w.running →
        (∀ x, Held w x → body (w'.ctx.events x) = body (w.ctx.events x)) →
        (w'.ctx.events e).inCallback = 1 := by
      intro same frame
      rw [same] at running
      exact (sameField (frame e (runningHeld running)) ScheduleCB.inCallback fun _ => rfl).trans
        (regular.first e t running)
    cases change with
    | nothing held same frame fresh => exact kept same frame
    | add now time timestep reading delay stride held same clock frame first each fresh => exact kept same frame
    | fire head now held was least due idle runs clock awakes periods entered fresh =>
      cases Option.some.inj (runs.symm.trans running)
      exact entered
    | ret x curTime keep room held was absent idle clock frame moved fresh =>
      rw [idle] at running
      contradiction
  · intro x held'
    cases heldSource regular change held' with
    | born now time timestep reading delay stride new clock first each =>
      rw [first]
      exact Timeval.timeraddNormal reading delay.2
    | moved curTime was next each =>
      rw [next]
      have held := runningHeld was
      exact Timeval.timeraddNormal (regular.awakes x held).reading (regular.steps x held).2
    | same _ held stays each other =>
      rw [stays]
      exact regular.awakes x held
  · intro x held'
    cases heldSource regular change held' with
    | born now time timestep reading delay stride new clock first each => exact each ▸ stride
    | moved curTime was next each => exact each ▸ regular.steps x (runningHeld was)
    | same _ held stays each other => exact each ▸ regular.steps x held

theorem aheadStep {w w' : Loop A} {log : List Occurrence} {time : Timeval} (regular : Regular w)
    (change : Change w w' log) (adds : ∀ e b d s, .added e b d s ∈ log → time ≤ b)
    (ahead : ∀ x, Held w x → time ≤ awake w x) : ∀ x, Held w' x → time ≤ awake w' x := by
  intro x held'
  cases heldSource regular change held' with
  | born now delay timestep reading normal stride new clock first each =>
    rw [first]
    exact (adds x now delay timestep (by simp)).trans (delayLater reading normal)
  | moved curTime was next each =>
    rw [next]
    have held := runningHeld was
    exact (ahead x held).trans (delayLater (regular.awakes x held).reading (regular.steps x held))
  | same _ held stays each other =>
    rw [stays]
    exact ahead x held

structure InOrder (t : Traced A) : Prop where
  due : ∀ e due now, .fired e due now ∈ t.log → due ≤ now
  past : ∀ due ∈ t.log.filterMap dueOf, due ≤ t.loop.clock ∧ ∀ x, Held t.loop x → due ≤ awake t.loop x
  sorted : (t.log.filterMap dueOf).Pairwise (· ≥ ·)

theorem inOrderStep {w w' : Loop A} {log new : List Occurrence} (regular : Regular w) (order : InOrder ⟨w,log⟩)
    (later : w.clock ≤ w'.clock) (change : Change w w' new) : InOrder ⟨w',new ++ log⟩ := by
  have past : ∀ due ∈ log.filterMap dueOf, due ≤ w'.clock ∧ ∀ x, Held w' x → due ≤ awake w' x := by
    intro due mem
    obtain ⟨reached,ahead⟩ := order.past due mem
    refine ⟨reached.trans later,aheadStep regular change ?_ ahead⟩
    intro e b d s added
    cases change with
    | nothing held same frame fresh => simp at added
    | add now time timestep reading delay stride held same clock frame first each fresh =>
      cases List.mem_singleton.mp added
      exact reached.trans (clock ▸ later)
    | fire head now held was least due idle runs clock awakes periods entered fresh => simp at added
    | ret x curTime keep room held was absent idle clock frame moved fresh => simp at added
  cases change with
  | nothing held same frame fresh => exact ⟨order.due,past,order.sorted⟩
  | add now time timestep reading delay stride held same clock frame first each fresh =>
    exact ⟨fun e due at_ mem => order.due e due at_ (by simpa using mem),past,order.sorted⟩
  | fire head now held was least due idle runs clock awakes periods entered fresh =>
    refine ⟨?_,?_,?_⟩
    · intro e d at_ mem
      rcases List.mem_cons.mp mem with same | old
      · cases same
        exact due
      · exact order.due e d at_ old
    · intro d mem
      rcases List.mem_cons.mp mem with rfl | old
      · refine ⟨clock ▸ due,fun x held' => ?_⟩
        rw [awakes x]
        rcases (held x).mp held' with queued | running
        · exact least x queued
        · simp [idle] at running
      · exact past d old
    · exact List.pairwise_cons.mpr ⟨fun d mem => (order.past d mem).2 head (.inl was),order.sorted⟩
  | ret x curTime keep room held was absent idle clock frame moved fresh =>
    exact ⟨fun e due at_ mem => order.due e due at_ (by simpa using mem),past,order.sorted⟩

def periodsBy (b p T : Timeval) : Nat := ((T.usecs - b.usecs) / p.usecs).toNat

def unfinished (w : Loop A) (e : EventId) : Int := match w.running with
  | some (x,_) => if x = e then 1 else 0
  | none => 0

def completed (w : Loop A) (log : List Occurrence) (e : EventId) : Int := firings e log - unfinished w e

def AlwaysKept (log : List Occurrence) (e : EventId) : Prop :=
  ∀ keep room, .returned e keep room ∈ log → keep = true ∧ room = true

/- Where the log leaves an event that was added at `b` with delay `d` and step `s`. -/
structure Planned (w : Loop A) (log : List Occurrence) (e : EventId) (b d s : Timeval) : Prop where
  known : e < w.ctx.fresh
  step : Held w e → period w e = s
  next : Held w e → (awake w e).usecs = b.usecs + d.usecs + completed w log e * s.usecs
  kept : AlwaysKept log e → Held w e
  count : ∀ T, T.Normal → d = s → 0 < s.usecs →
    log.countP (dueBy e T) = min (firings e log) (periodsBy b s T)

structure OnPlan (t : Traced A) : Prop where
  fires : ∀ e due now, .fired e due now ∈ t.log → e < t.loop.ctx.fresh
  plans : ∀ e b d s, .added e b d s ∈ t.log → Planned t.loop t.log e b d s

theorem firingsFresh {t : Traced A} (plan : OnPlan t) : firings t.loop.ctx.fresh t.log = 0 := by
  refine List.countP_eq_zero.mpr fun o mem => ?_
  cases o with
  | fired e due now =>
    have less := plan.fires e due now mem
    simp [firedBy,less.ne]
  | added => simp [firedBy]
  | returned => simp [firedBy]

theorem countFired {b s due T : Timeval} {n c : Nat} (normal : T.Normal) (dueNormal : due.Normal) (positive : 0 < s.usecs)
    (here : due.usecs = b.usecs + s.usecs + n * s.usecs) (before : c = min n (periodsBy b s T)) :
    (if due ≤ T then c + 1 else c) = min (n + 1) (periodsBy b s T) := by
  have reach : due ≤ T ↔ n + 1 ≤ periodsBy b s T := by
    have quotient : n + 1 ≤ periodsBy b s T ↔ (n : Int) + 1 ≤ (T.usecs - b.usecs) / s.usecs := by
      unfold periodsBy
      omega
    rw [Timeval.leUsecs dueNormal normal, quotient, Int.le_ediv_iff_mul_le positive, here]
    constructor <;> intro h <;> linarith
  by_cases reached : due ≤ T
  · have := reach.mp reached
    rw [if_pos reached]
    omega
  · have short : ¬ n + 1 ≤ periodsBy b s T := fun h => reached (reach.mpr h)
    rw [if_neg reached]
    omega

theorem countDue (e : EventId) (T : Timeval) (x : EventId) (due now : Timeval) (log : List Occurrence) :
    (.fired x due now :: log).countP (dueBy e T) =
      if x = e ∧ due ≤ T then log.countP (dueBy e T) + 1 else log.countP (dueBy e T) := by
  rw [List.countP_cons]
  simp [dueBy]
  split <;> rfl

theorem firingsFired (e x : EventId) (due now : Timeval) (log : List Occurrence) :
    firings e (.fired x due now :: log) = if x = e then firings e log + 1 else firings e log := by
  unfold firings
  rw [List.countP_cons]
  simp [firedBy]
  split <;> rfl

section
variable {w w' : Loop A} {log : List Occurrence} {e : EventId} {b d s : Timeval}

theorem plannedFrame (plan : Planned w log e b d s) (held : Held w' e ↔ Held w e)
    (same : unfinished w' e = unfinished w e)
    (frame : Held w e → body (w'.ctx.events e) = body (w.ctx.events e)) (fresh : w.ctx.fresh ≤ w'.ctx.fresh) :
    Planned w' log e b d s where
  known := plan.known.trans_le fresh
  step held' := (sameField (frame (held.mp held')) ScheduleCB.timeStep fun _ => rfl).trans (plan.step (held.mp held'))
  next held' := by
    have stays : awake w' e = awake w e :=
      sameField (frame (held.mp held')) ScheduleCB.nextAwake fun _ => rfl
    rw [stays, plan.next (held.mp held')]
    simp only [completed,same]
  kept always := held.mpr (plan.kept always)
  count := plan.count

theorem plannedLogged (plan : Planned w log e b d s) {o : Occurrence} (quiet : dueOf o = none)
    (kept : AlwaysKept (o :: log) e → Held w e) : Planned w (o :: log) e b d s := by
  have silent : firings e (o :: log) = firings e log := by
    cases o with
    | fired => simp [dueOf] at quiet
    | added => simp [firings,firedBy]
    | returned => simp [firings,firedBy]
  refine ⟨plan.known,plan.step,fun held => ?_,kept,fun T normal same positive => ?_⟩
  · rw [plan.next held, completed, completed, silent]
  · rw [silent, ← plan.count T normal same positive]
    cases o with
    | fired => simp [dueOf] at quiet
    | added => simp [dueBy]
    | returned => simp [dueBy]

theorem unfinishedSame (same : w'.running = w.running) : unfinished w' e = unfinished w e := by
  simp only [unfinished,same]

theorem unfinishedIdle (idle : w.running = none) : unfinished w e = 0 := by
  simp only [unfinished,idle]

theorem unfinishedRunning {x : EventId} {t : Timeval} (was : w.running = some (x,t)) :
    unfinished w e = if x = e then 1 else 0 := by
  simp only [unfinished,was]

theorem unfinishedFresh (steady : Steady w) : unfinished w w.ctx.fresh = 0 := by
  cases found : w.running with
  | none => exact unfinishedIdle found
  | some pair =>
    have known := (steady.busy pair.1 pair.2 found).1
    rw [unfinishedRunning found, if_neg known.ne]

theorem countUnfired {T : Timeval} (none : firings e log = 0) : log.countP (dueBy e T) = 0 := by
  refine Nat.le_zero.mp (none ▸ List.countP_mono_left fun o _ hit => ?_)
  cases o with
  | fired x due now =>
    simp only [dueBy,Bool.and_eq_true] at hit
    exact hit.1
  | added => simp [dueBy] at hit
  | returned => simp [dueBy] at hit

theorem plannedBorn (none : firings e log = 0) (idle : unfinished w' e = 0) (held : Held w' e)
    (first : awake w' e = Timeval.timeradd b d) (each : period w' e = s) (known : e < w'.ctx.fresh) :
    Planned w' log e b d s where
  known := known
  step _ := each
  next _ := by
    rw [first, Timeval.timeraddUsecs, completed, none, idle]
    simp
  kept _ := held
  count T _ _ _ := by rw [countUnfired none, none, Nat.zero_min]

theorem plannedFired {head : EventId} {now : Timeval} (plan : Planned w log e b d s) (normal : (awake w head).Normal)
    (held : Held w' e ↔ Held w e) (was : Held w head) (idle : w.running = none)
    (runs : w'.running = some (head,now)) (stays : awake w' e = awake w e) (each : period w' e = period w e)
    (fresh : w'.ctx.fresh = w.ctx.fresh) : Planned w' (.fired head (awake w head) now :: log) e b d s := by
  have before : Held w e → (awake w e).usecs = b.usecs + d.usecs + firings e log * s.usecs := by
    intro h
    rw [plan.next h, completed, unfinishedIdle idle, sub_zero]
  refine ⟨fresh ▸ plan.known,fun h => each.trans (plan.step (held.mp h)),?_,?_,?_⟩
  · intro h
    rw [stays, before (held.mp h), completed, firingsFired, unfinishedRunning runs]
    split <;> simp
  · intro always
    exact held.mpr (plan.kept fun keep room mem => always keep room (by simp [mem]))
  · intro T horizon same positive
    have old := plan.count T horizon same positive
    rw [countDue, firingsFired]
    by_cases here : head = e
    · subst here
      simp only [true_and,if_true]
      exact countFired horizon normal positive (same ▸ before was) old
    · simp [here,old]

theorem plannedReturned {x : EventId} {curTime : Timeval} {keep room : Bool} (regular : Regular w)
    (plan : Planned w log e b d s)
    (held : Held w' e ↔ (keep = true ∧ room = true ∧ e = x) ∨ Queued w.ctx.queue e)
    (was : w.running = some (x,curTime)) (absent : ¬ Queued w.ctx.queue x) (idle : w'.running = none)
    (frame : e ≠ x → body (w'.ctx.events e) = body (w.ctx.events e))
    (moved : keep = true → body (w'.ctx.events x) = body (keptEvent curTime (w.ctx.events x)))
    (fresh : w'.ctx.fresh = w.ctx.fresh) : Planned w' (.returned x keep room :: log) e b d s := by
  by_cases here : e = x
  · subst here
    have running := runningHeld was
    have pair : Held w' e → awake w' e = Timeval.timeradd (awake w e) (period w e) ∧ period w' e = period w e := by
      intro h
      rcases held.mp h with ⟨kept,_⟩ | queued
      · exact keptAwake (regular.first e curTime was) (moved kept)
      · exact (absent queued).elim
    have silent : firings e (.returned e keep room :: log) = firings e log := by simp [firings,firedBy]
    refine ⟨fresh ▸ plan.known,fun h => (pair h).2.trans (plan.step running),?_,?_,?_⟩
    · intro h
      have before := plan.next running
      rw [completed, unfinishedRunning was, if_pos rfl] at before
      rw [(pair h).1, Timeval.timeraddUsecs, before, plan.step running, completed, silent, unfinishedIdle idle]
      ring
    · intro always
      obtain ⟨kept,put⟩ := always keep room (by simp)
      exact held.mpr (.inl ⟨kept,put,rfl⟩)
    · intro T horizon same positive
      rw [silent, ← plan.count T horizon same positive]
      simp [dueBy]
  · have same : Held w' e ↔ Held w e := by
      rw [held]
      simp [here,Held,was,Ne.symm here]
    have same' : unfinished w' e = unfinished w e := by
      rw [unfinishedIdle idle, unfinishedRunning was, if_neg (Ne.symm here)]
    have now' := plannedFrame plan same same' (fun _ => frame here) fresh.ge
    exact plannedLogged now' rfl fun always => now'.kept fun keep room mem => always keep room (by simp [mem])

end

theorem planStep {w w' : Loop A} {log new : List Occurrence} (regular : Regular w) (plan : OnPlan ⟨w,log⟩)
    (change : Change w w' new) : OnPlan ⟨w',new ++ log⟩ := by
  cases change with
  | nothing held same frame fresh =>
    exact ⟨fun e due now mem => (plan.fires e due now mem).trans_le fresh,fun e b d s mem =>
      plannedFrame (plan.plans e b d s mem) (held e) (unfinishedSame same) (frame e) fresh⟩
  | add now time timestep reading delay stride held same clock frame first each fresh =>
    refine ⟨fun e due at_ mem => (plan.fires e due at_ (by simpa using mem)).trans fresh,?_⟩
    intro e b d s mem
    rcases List.mem_cons.mp mem with new | old
    · cases new
      have idle := (unfinishedSame same).trans (unfinishedFresh regular.steady)
      have here : Held w' w.ctx.fresh := (held _).mpr (.inl rfl)
      have born := plannedBorn (firingsFresh plan) idle here first each fresh
      exact plannedLogged born rfl fun _ => here
    · have was := plan.plans e b d s old
      have other : e ≠ w.ctx.fresh := was.known.ne
      have now' := plannedFrame was (by rw [held e]; simp [other]) (unfinishedSame same) (frame e) fresh.le
      exact plannedLogged now' rfl fun always => now'.kept fun keep room mem => always keep room (by simp [mem])
  | fire head now held was least due idle runs clock awakes periods entered fresh =>
    refine ⟨?_,?_⟩
    · intro e d at_ mem
      rcases List.mem_cons.mp mem with same | old
      · cases same
        exact fresh ▸ regular.steady.ready.bound head was
      · exact fresh ▸ plan.fires e d at_ old
    · intro e b d s mem
      have before := plan.plans e b d s (by simpa using mem)
      exact plannedFired before (regular.awakes head (.inl was)) (held e) (.inl was) idle runs (awakes e) (periods e) fresh
  | ret x curTime keep room held was absent idle clock frame moved fresh =>
    refine ⟨fun e due at_ mem => fresh ▸ plan.fires e due at_ (by simpa using mem),fun e b d s mem => ?_⟩
    exact plannedReturned regular (plan.plans e b d s (by simpa using mem)) (held e) was absent idle (frame e) moved fresh

structure Scheduled (t : Traced A) : Prop where
  regular : Regular t.loop
  order : InOrder t
  plan : OnPlan t

theorem beginScheduled (hashSize : Nat) (events : Memory A) (d dbg : Nat → EventId) {clock : Timeval}
    (reading : clock.Reading) : Scheduled (begin_ hashSize events d dbg clock) := by
  have none : ∀ x, ¬ Held (start hashSize events d dbg clock) x := by
    rintro x (⟨i,first,last,_⟩ | running)
    · simp only [start,evtInitWithSize,init] at last
      omega
    · simp [start] at running
  exact ⟨⟨startSteady hashSize events d dbg clock,reading,by simp [begin_,start],
      fun x held => (none x held).elim,fun x held => (none x held).elim⟩,
    ⟨by simp [begin_],by simp [begin_],by simp [begin_]⟩,⟨by simp [begin_],by simp [begin_]⟩⟩

theorem scheduledStep (t : Traced A) (a : Action A) (scheduled : Scheduled t) (ok : Timely t a) :
    Scheduled (traced t a) := by
  have happened := change scheduled.regular.steady ok
  obtain ⟨later,reading⟩ := clockLater scheduled.regular.clock ok
  have steady := stepSteady t.loop a scheduled.regular.steady ok.legal
  exact ⟨regularStep scheduled.regular steady reading happened,
    inOrderStep scheduled.regular scheduled.order later happened,
    planStep scheduled.regular scheduled.plan happened⟩

/- What a run leaves behind: firings neither early nor out of order, slots that match,
and wake times that have not drifted. -/
structure OnTime (t : Traced A) : Prop where
  due : ∀ e due now, .fired e due now ∈ t.log → due ≤ now
  sorted : (t.log.filterMap dueOf).Pairwise (· ≥ ·)
  placed : ∀ i, 1 ≤ i → i < t.loop.ctx.queue.size → (t.loop.ctx.events (t.loop.ctx.queue.d i)).pos = i
  exact_ : ∀ e b d s, .added e b d s ∈ t.log → Queued t.loop.ctx.queue e →
    (awake t.loop e).usecs = b.usecs + d.usecs + firings e t.log * s.usecs

theorem Scheduled.onTime {t : Traced A} (scheduled : Scheduled t) : OnTime t where
  due := scheduled.order.due
  sorted := scheduled.order.sorted
  placed := scheduled.regular.steady.ready.sound.placed
  exact_ e b d s added queued := by
    have idle : unfinished t.loop e = 0 := by
      cases found : t.loop.running with
      | none => exact unfinishedIdle found
      | some pair =>
        rw [unfinishedRunning (x := pair.1) (t := pair.2) found, if_neg]
        rintro rfl
        exact (scheduled.regular.steady.busy pair.1 pair.2 found).2.1 queued
    rw [(scheduled.plan.plans e b d s added).next (.inl queued), completed, idle, sub_zero]

theorem runOnTime {hashSize : Nat} {events : Memory A} {d dbg : Nat → EventId} {clock : Timeval}
    {acts : List (Action A)} (reading : clock.Reading)
    (run : Along traced Timely (begin_ hashSize events d dbg clock) acts) :
    OnTime (exec traced (begin_ hashSize events d dbg clock) acts) :=
  (run.invariant scheduledStep (beginScheduled hashSize events d dbg reading)).onTime

end LibProc.TimedRuns
