import LibProc.ThreadCalls

/-! The timers of the pseudo threads over whole runs. PT_unblock and the events of descriptors leave
the timer of the thread that they make ready where it is: PT_read and PT_write take it out when they
go on, PT_wait does not. -/
namespace LibProc.ThreadIo.Calls
open PseudoThreads FdRegistry
open Runs (exec Along)

def Awake (s : Io) (thread : Nat) : Prop :=
  headOf s.threads.threads thread = some .curr ∨ headOf s.threads.threads thread = some .ready

/- Whether a thread that is ready to go on in a read or write may have the timer of that call is up to `spared`. -/
structure TimersCoherent (spared : Bool) (w : Watched) : Prop where
  withdrawn : ∀ thread, Awake w.io thread → hasTimer w.io.threads thread = true →
    spared = true ∧ headOf w.io.threads.threads thread = some .ready ∧ (w.io.io thread).isSome = true
  asserted : w.io.threads.stop ≠ some .timerSet
  owned : ∀ number thread, (number,thread) ∈ w.io.threads.timers → ∃ call, w.calls thread = some call ∧ call.timer = some number

def Prompt (spared : Bool) (w : Watched) (act : Act) : Prop :=
  ∀ thread ∈ readies w.io act, hasTimer w.io.threads thread = true → spared = true ∧ (w.io.io thread).isSome = true

structure Held (spared : Bool) (w : Watched) : Prop where
  heads : ∀ number thread, (number,thread) ∈ w.io.threads.timers → headOf w.io.threads.threads thread = some .blocked ∨
    spared = true ∧ headOf w.io.threads.threads thread = some .ready ∧ (w.io.io thread).isSome = true
  asserted : w.io.threads.stop ≠ some .timerSet
  owned : ∀ number thread, (number,thread) ∈ w.io.threads.timers → ∃ call, w.calls thread = some call ∧ call.timer = some number

section
variable {spared : Bool} {w : Watched} {act : Act}

theorem coherentHeld (base : Base w.io) : TimersCoherent spared w ↔ Held spared w := by
  constructor
  · rintro ⟨withdrawn,asserted,owned⟩
    refine ⟨fun number thread pending => ?_,asserted,owned⟩
    have set := base.sane.hasTimer.mpr ⟨number,pending⟩
    obtain ⟨q,head⟩ := base.sane.listed pending
    cases q with
    | blocked => exact .inl head
    | ready => exact .inr (withdrawn thread (.inr head) set)
    | curr => exact .inr (withdrawn thread (.inl head) set)
  · rintro ⟨heads,asserted,owned⟩
    refine ⟨fun thread awake set => ?_,asserted,owned⟩
    obtain ⟨number,pending⟩ := base.sane.hasTimer.mp set
    refine (heads number thread pending).resolve_left fun blocked => ?_
    rcases awake with head | head <;> rw [blocked] at head <;> cases head

theorem Held.untimed (held : Held spared w) {thread : Nat}
    (awake : headOf w.io.threads.threads thread = some .curr ∨
      headOf w.io.threads.threads thread = some .ready ∧ w.io.io thread = none) : Untimed w.io thread := by
  intro number pending
  rcases held.heads number thread pending with blocked | ⟨-,ready,call⟩
  · rcases awake with head | ⟨head,-⟩ <;> rw [blocked] at head <;> cases head
  · rcases awake with head | ⟨-,none_⟩
    · rw [ready] at head
      cases head
    · rw [none_] at call
      cases call

theorem Held.step {w' : Watched} (held : Held spared w) {who : Nat → Prop} (leaves : Leaves w.io w'.io who)
    (asserted : w'.io.threads.stop ≠ some .timerSet) (calls : ∀ thread, ¬who thread → w'.calls thread = w.calls thread)
    (own : ∀ thread, who thread → ∀ number, (number,thread) ∈ w'.io.threads.timers →
      (headOf w'.io.threads.threads thread = some .blocked ∨
        spared = true ∧ headOf w'.io.threads.threads thread = some .ready ∧ (w'.io.io thread).isSome = true) ∧
      ∃ call, w'.calls thread = some call ∧ call.timer = some number) : Held spared w' := by
  refine ⟨fun number thread pending => ?_,asserted,fun number thread pending => ?_⟩
  · by_cases touched : who thread
    · exact (own thread touched number pending).1
    · have old := (leaves.timers thread touched number).mp pending
      rw [leaves.io thread touched]
      exact (held.heads number thread old).imp (leaves.heads thread touched _)
        fun both => ⟨both.1,leaves.heads thread touched _ both.2.1,both.2.2⟩
  · by_cases touched : who thread
    · exact (own thread touched number pending).2
    · rw [calls thread touched]
      exact held.owned number thread ((leaves.timers thread touched number).mp pending)

theorem Held.gone {w' : Watched} (held : Held spared w) {thread : Nat} (leaves : Leaves w.io w'.io (· = thread))
    (asserted : w'.io.threads.stop ≠ some .timerSet) (calls : ∀ other ≠ thread, w'.calls other = w.calls other)
    (untimed : Untimed w'.io thread) : Held spared w' :=
  held.step leaves asserted calls fun _ own number pending => absurd (own ▸ pending) (untimed number)

theorem heldIff (base : Base w.io) (held : Held spared w) (valid : Valid w.io act) :
    Held spared (watch w act) ↔ Prompt spared w act := by
  cases stopped : w.io.threads.stop with
  | some why =>
    have same : watch w act = w := by
      unfold watch
      dsimp only
      rw [stopped]
      rfl
    rw [same]
    refine iff_of_true held fun thread named => ?_
    unfold readies at named
    rw [stopped] at named
    cases named
  | none =>
    obtain ⟨-,change⟩ := watchChange base stopped valid
    have quiet : readies w.io act = none → Prompt spared w act := by
      intro nobody thread named
      rw [nobody] at named
      cases named
    cases change with
    | still leaves calls returns asserted nobody =>
      refine iff_of_true (held.step leaves asserted (fun _ _ => by rw [calls]) fun _ no => no.elim) fun thread named set => ?_
      obtain ⟨number,pending⟩ := base.sane.hasTimer.mp set
      exact absurd pending (nobody thread named number)
    | readied thread named leaves head timers io calls returns asserted =>
      constructor
      · intro held' other named' set
        rw [named] at named'
        cases named'
        obtain ⟨number,pending⟩ := base.sane.hasTimer.mp set
        rcases held'.heads number thread ((timers number).mpr pending) with blocked | ⟨allowed,-,call⟩
        · rw [head] at blocked
          cases blocked
        · exact ⟨allowed,io ▸ call⟩
      · intro prompt
        refine held.step leaves asserted (fun _ _ => by rw [calls]) fun other own number pending => ?_
        subst own
        have pending := (timers number).mp pending
        obtain ⟨allowed,call⟩ := prompt other named (base.sane.hasTimer.mpr ⟨number,pending⟩)
        rw [io, calls]
        exact ⟨.inr ⟨allowed,head,call⟩,held.owned number other pending⟩
    | fired number thread pending leaves head untimed io calls returns asserted nobody =>
      refine iff_of_true (held.gone leaves asserted (fun other apart => ?_) untimed) (quiet nobody)
      rw [calls, fireCalls, if_neg]
      intro theirs
      obtain ⟨lists,inv⟩ := base.sane
      exact apart (inv.core.oneThread theirs pending)
    | began self timer current leaves head timers timed calls returns asserted nobody =>
      refine iff_of_true (held.step leaves asserted (fun other apart => ?_) fun other own number pending => ?_) (quiet nobody)
      · rw [calls, Function.update_of_ne apart]
      · subst own
        refine ⟨.inl head,_,by rw [calls, Function.update_self],?_⟩
        exact ((timers number).mp pending).resolve_left (held.untimed (.inl current) number)
    | refused self current set => exact absurd (held.untimed (.inl current)) set
    | left thread leaves untimed io calls returns asserted nobody =>
      exact iff_of_true (held.gone leaves asserted calls untimed) (quiet nobody)
    | resumed next ready none_ leaves timers io calls returns asserted nobody =>
      refine iff_of_true (held.gone leaves asserted (fun other apart => ?_) fun number pending => ?_) (quiet nobody)
      · rw [calls, Function.update_of_ne apart]
      · exact held.untimed (.inr ⟨ready,none_⟩) number ((timers number).mp pending)
    | returned next ioCall result named late leaves untimed io calls returns asserted nobody =>
      refine iff_of_true (held.gone leaves asserted (fun other apart => ?_) untimed) (quiet nobody)
      rw [calls, Function.update_of_ne apart]
    | retried next ioCall named timed leaves head untimed io calls returns asserted nobody =>
      refine iff_of_true (held.gone leaves asserted (fun other apart => ?_) untimed) (quiet nobody)
      rw [calls, Function.update_of_ne apart]

end

theorem initCoherent (spared evt : Bool) (registry : Registry) : TimersCoherent spared (.init evt registry) :=
  (coherentHeld (initBase evt registry)).mpr ⟨nofun,nofun,nofun⟩

/- In every state of a run the threads that run or are ready have no timer left, no assertion has failed, and
each timer is that of the call its thread is in, just when no thread was made ready beside its timer. -/
theorem timersCoherentIff (spared evt : Bool) (registry : Registry) (acts : List Act)
    (valid : Along watch (fun w => Valid w.io) (.init evt registry) acts) :
    (∀ first, first <+: acts → TimersCoherent spared (exec watch (.init evt registry) first)) ↔
      Along watch (Prompt spared) (.init evt registry) acts := by
  have keep : ∀ w act, Base w.io → Valid w.io act → Base (watch w act).io := fun w act base valid => base.watch valid
  have each : ∀ w act, Base w.io → Valid w.io act → TimersCoherent spared w →
      (TimersCoherent spared (watch w act) ↔ Prompt spared w act) := by
    intro w act base valid coherent
    rw [coherentHeld (base.watch valid)]
    exact heldIff base ((coherentHeld base).mp coherent) valid
  exact Runs.everyIff keep each (initBase evt registry) (initCoherent spared evt registry) valid

def timedRead : List Act :=
  [.thread (.create true),.run .done true,.rw 5 false 10 true true,.run .done true,.ready 5 .read eventKeep,.run .done true]

theorem timedReadCoherent : (exec watch (.init true (evtCreateHandler 19)) timedRead).returns.length = 1 ∧
    ∀ first, first <+: timedRead → TimersCoherent true (exec watch (.init true (evtCreateHandler 19)) first) := by
  refine ⟨by decide +kernel,(timersCoherentIff true true (evtCreateHandler 19) timedRead ?_).mpr ?_⟩
  · exact ⟨trivial,trivial,trivial,trivial,trivial,trivial,trivial⟩
  · unfold Prompt
    decide +kernel

def unblockedWait : List Act :=
  [.thread (.create true),.thread (.create true),.run .done true,.thread (.wait 10 true),.run .done true,.run .done true,
    .thread (.unblock (some 1)),.thread (.block (some 0)),.run .done true,.run .done true,.thread (.wait 10 true)]

theorem unblockedWaitAsserts : Along watch (fun w => Valid w.io) (.init true (evtCreateHandler 19)) unblockedWait ∧
    (exec watch (.init true (evtCreateHandler 19)) unblockedWait).io.threads.stop = some .timerSet ∧
    ∀ spared, ¬TimersCoherent spared (exec watch (.init true (evtCreateHandler 19)) (unblockedWait.take 10)) := by
  refine ⟨⟨trivial,trivial,trivial,trivial,trivial,trivial,⟨by unfold Live; decide +kernel,
    by decide +kernel⟩,trivial,trivial,trivial,trivial,trivial⟩,
    by decide +kernel,fun spared coherent => ?_⟩
  have head : headOf (exec watch (.init true (evtCreateHandler 19)) (unblockedWait.take 10)).io.threads.threads 1 = some .curr := by
    decide +kernel
  obtain ⟨-,ready,-⟩ := coherent.withdrawn 1 (.inl head) (by decide +kernel)
  rw [head] at ready
  cases ready

end LibProc.ThreadIo.Calls
