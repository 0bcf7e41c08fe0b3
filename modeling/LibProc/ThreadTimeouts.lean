import LibProc.ThreadCalls

/-! The timeouts that PT_read and PT_write report. A resumed call takes a timer that is not there for
one that has fired. It is not there either after a read or write that ended in EWOULDBLOCK, which the
call has taken it out for, or where it could not be scheduled. -/
namespace LibProc.ThreadIo.Calls
open PseudoThreads FdRegistry
open Runs (exec Along)

def Call.Pending (call : Call) (number : Nat) : Prop := call.timer = some number ∧ call.fired = false ∧ call.again = false

structure Followed (s : Io) (thread : Nat) (call : Call) : Prop where
  pending : ∀ number, (number,thread) ∈ s.threads.timers ↔ call.Pending number
  fires : call.fired = true → call.timer.isSome = true ∧ call.again = false

def Return.Right (r : Return) : Prop := ∃ call, r.call = some call ∧ (r.result = .timedOut ↔ call.fired = true)

/- The timer could be scheduled, and no read or write of the call ended in EWOULDBLOCK. -/
def Return.Plain (r : Return) : Prop := ∃ call, r.call = some call ∧ call.timer.isSome = true ∧ call.again = false

def Return.Told (r : Return) : Prop := r.call.isSome = true ∧ (r.Right ↔ r.Plain)

structure Told (w : Watched) : Prop where
  base : Base w.io
  calls : ∀ thread ioCall, w.io.io thread = some ioCall → 0 < ioCall.timeout → ∃ call, w.calls thread = some call ∧ Followed w.io thread call
  returns : ∀ r ∈ w.returns, 0 < r.ioCall.timeout → r.Told

section
variable {w w' : Watched} {act : Act}

theorem Followed.untimed {s : Io} {thread : Nat} {call : Call} (followed : Followed s thread call) :
    Untimed s thread ↔ ∀ number, ¬call.Pending number := forall_congr' fun number => not_congr (followed.pending number)

theorem Told.step (told : Told w) (base : Base w'.io) {who : Nat → Prop} (leaves : Leaves w.io w'.io who)
    (calls : ∀ thread, ¬who thread → w'.calls thread = w.calls thread)
    (own : ∀ thread, who thread → ∀ ioCall, w'.io.io thread = some ioCall → 0 < ioCall.timeout →
      ∃ call, w'.calls thread = some call ∧ Followed w'.io thread call)
    (returns : ∀ r ∈ w'.returns, r ∈ w.returns ∨ (0 < r.ioCall.timeout → r.Told)) : Told w' := by
  refine ⟨base,fun thread ioCall is timed => ?_,fun r member timed => ?_⟩
  · by_cases touched : who thread
    · exact own thread touched ioCall is timed
    · rw [leaves.io thread touched] at is
      obtain ⟨call,known,followed⟩ := told.calls thread ioCall is timed
      exact ⟨call,by rw [calls thread touched, known],fun number => (leaves.timers thread touched number).trans (followed.pending number),
        followed.fires⟩
  · exact (returns r member).elim (fun old => told.returns r old timed) fun new => new timed

theorem Told.out (told : Told w) (base : Base w'.io) {thread : Nat} (leaves : Leaves w.io w'.io (· = thread))
    (calls : ∀ other ≠ thread, w'.calls other = w.calls other) (io : w'.io.io thread = none)
    (returns : ∀ r ∈ w'.returns, r ∈ w.returns ∨ (0 < r.ioCall.timeout → r.Told)) : Told w' := by
  refine told.step base leaves calls (fun other own ioCall is => ?_) returns
  rw [show other = thread from own, io] at is
  cases is

theorem Followed.fire {s s' : Io} {thread number : Nat} {call : Call} (followed : Followed s thread call)
    (pending : (number,thread) ∈ s.threads.timers) (untimed : Untimed s' thread) : Followed s' thread (call.fire number) := by
  obtain ⟨timer,-,fresh⟩ := (followed.pending number).mp pending
  have fired : call.fire number = { call with fired := true } := if_pos timer
  rw [fired]
  refine ⟨fun other => iff_of_false (untimed other) fun both => ?_,fun _ => ⟨?_,fresh⟩⟩
  · cases both.2.1
  · change call.timer.isSome = true
    rw [timer]
    rfl

theorem Followed.retry {s s' : Io} {thread : Nat} {call : Call} (followed : Followed s thread call) (timed : ¬Untimed s thread)
    (untimed : Untimed s' thread) : Followed s' thread call.retry := by
  obtain ⟨number,pending⟩ := not_forall_not.mp timed
  obtain ⟨-,quiet,-⟩ := (followed.pending number).mp pending
  refine ⟨fun other => iff_of_false (untimed other) fun both => ?_,fun fired => ?_⟩
  · cases both.2.2
  · have fired : call.fired = true := fired
    rw [quiet] at fired
    cases fired

theorem Followed.right {s : Io} {thread : Nat} {call : Call} (followed : Followed s thread call) {ioCall : IoCall} {result : Result}
    (late : result = .timedOut ↔ Untimed s thread) :
    (⟨ioCall,some call,result⟩ : Return).Right ↔ (⟨ioCall,some call,result⟩ : Return).Plain := by
  rw [followed.untimed] at late
  have fires := followed.fires
  obtain ⟨timer,fired,again⟩ := call
  constructor
  · rintro ⟨_,is,same⟩
    cases is
    refine ⟨_,rfl,?_⟩
    cases fired with
    | true => exact fires rfl
    | false =>
      have pending := mt (late.mpr) (mt same.mp Bool.false_ne_true)
      obtain ⟨number,is,-,first⟩ := not_forall_not.mp pending
      have is : timer = some number := is
      exact ⟨by rw [is]; rfl,first⟩
  · rintro ⟨_,is,set,first⟩
    cases is
    refine ⟨_,rfl,late.trans ?_⟩
    obtain ⟨number,is⟩ := Option.isSome_iff_exists.mp set
    cases fired with
    | true => exact iff_of_true (fun _ pending => by cases pending.2.1) rfl
    | false => exact iff_of_false (fun none_ => none_ number ⟨is,rfl,first⟩) Bool.false_ne_true

theorem Told.watch (told : Told w) (valid : Valid w.io act) : Told (watch w act) := by
  have base := told.base.watch valid
  cases stopped : w.io.threads.stop with
  | some why =>
    have same : Calls.watch w act = w := by
      unfold Calls.watch
      dsimp only
      rw [stopped]
      rfl
    rwa [same]
  | none =>
    obtain ⟨-,change⟩ := watchChange told.base stopped valid
    have older : (Calls.watch w act).returns = w.returns →
        ∀ r ∈ (Calls.watch w act).returns, r ∈ w.returns ∨ (0 < r.ioCall.timeout → r.Told) :=
      fun same r member => .inl (same ▸ member)
    cases change with
    | still leaves calls returns => exact told.step base leaves (fun _ _ => by rw [calls]) (fun _ no => no.elim) (older returns)
    | refused _ _ _ leaves calls returns => exact told.step base leaves (fun _ _ => by rw [calls]) (fun _ no => no.elim) (older returns)
    | readied thread named leaves head timers io calls returns =>
      refine told.step base leaves (fun _ _ => by rw [calls]) (fun other own ioCall is timed => ?_) (older returns)
      subst own
      rw [io] at is
      obtain ⟨call,known,followed⟩ := told.calls other ioCall is timed
      exact ⟨call,by rw [calls, known],fun number => (timers number).trans (followed.pending number),followed.fires⟩
    | fired number thread pending leaves head untimed io calls returns =>
      refine told.step base leaves (fun other apart => ?_) (fun other own ioCall is timed => ?_) (older returns)
      · rw [calls, fireCalls, if_neg]
        intro theirs
        obtain ⟨lists,inv⟩ := told.base.sane
        exact apart (inv.core.oneThread theirs pending)
      · subst own
        rw [io] at is
        obtain ⟨call,known,followed⟩ := told.calls other ioCall is timed
        refine ⟨call.fire number,?_,followed.fire pending untimed⟩
        rw [calls, fireCalls, if_pos pending, known, Option.map_some]
    | began self timer current leaves head timers timed calls returns =>
      refine told.step base leaves (fun other apart => ?_) (fun other own ioCall is positive => ?_) (older returns)
      · rw [calls, Function.update_of_ne apart]
      · subst own
        refine ⟨⟨timer,false,false⟩,by rw [calls, Function.update_self],fun number => ?_,nofun⟩
        rw [timers, or_iff_right (timed ioCall is positive number)]
        exact ⟨fun set => ⟨set,rfl,rfl⟩,fun both => both.1⟩
    | left thread leaves untimed io calls returns => exact told.out base leaves calls io (older returns)
    | resumed next ready none_ leaves timers io calls returns =>
      exact told.out base leaves (fun other apart => by rw [calls, Function.update_of_ne apart]) io (older returns)
    | returned next ioCall result is late leaves untimed io calls returns =>
      refine told.out base leaves (fun other apart => by rw [calls, Function.update_of_ne apart]) io fun r member => ?_
      rw [returns] at member
      refine (List.mem_append.mp member).imp id fun last timed => ?_
      rw [List.mem_singleton.mp last] at timed ⊢
      obtain ⟨call,known,followed⟩ := told.calls next ioCall is timed
      rw [known]
      exact ⟨rfl,followed.right (late.trans (and_iff_right timed))⟩
    | retried next ioCall is timed leaves head untimed io calls returns =>
      refine told.step base leaves (fun other apart => ?_) (fun other own ioCall' is' positive => ?_) (older returns)
      · rw [calls, Function.update_of_ne apart]
      · subst own
        rw [io] at is'
        cases is'
        obtain ⟨call,known,followed⟩ := told.calls other ioCall is positive
        exact ⟨call.retry,by rw [calls, Function.update_self, known, Option.map_some],followed.retry (timed positive) untimed⟩

end

/- Whatever has run, a call with a timeout returned -2 just when its timer had fired, if and only if the timer
could be scheduled and no read or write of the call ended in EWOULDBLOCK. -/
theorem timeoutsIff (evt : Bool) (registry : Registry) (acts : List Act)
    (valid : Along watch (fun w => Valid w.io) (.init evt registry) acts) :
    ∀ r ∈ (exec watch (.init evt registry) acts).returns, 0 < r.ioCall.timeout → r.call.isSome = true ∧ (r.Right ↔ r.Plain) := by
  have start : Told (.init evt registry) := ⟨initBase evt registry,nofun,nofun⟩
  have keep : ∀ w act, Told w → Valid w.io act → Told (watch w act) := fun w act told valid => told.watch valid
  exact (valid.invariant keep start).returns

def lateRead : List Act :=
  [.thread (.create true),.run .done true,.rw 5 false 10 true true,.run .done true,.thread (.timer 0),.run .done true]

theorem lateReadRight : (exec watch (.init true (evtCreateHandler 19)) lateRead).returns =
    [⟨⟨5,false,10⟩,some ⟨some 0,true,false⟩,.timedOut⟩] ∧
    ∀ r ∈ (exec watch (.init true (evtCreateHandler 19)) lateRead).returns, 0 < r.ioCall.timeout → r.call.isSome = true ∧ (r.Right ↔ r.Plain) :=
  ⟨by decide +kernel,timeoutsIff true (evtCreateHandler 19) lateRead ⟨trivial,trivial,trivial,trivial,trivial,trivial,trivial⟩⟩

def retriedRead : List Act :=
  [.thread (.create true),.run .done true,.rw 5 false 10 true true,.run .done true,.ready 5 .read eventKeep,.run .wouldBlock true,
    .run .done true,.ready 5 .read eventKeep,.run .done true]

theorem retriedReadWrong : Along watch (fun w => Valid w.io) (.init true (evtCreateHandler 19)) retriedRead ∧
    (exec watch (.init true (evtCreateHandler 19)) retriedRead).returns = [⟨⟨5,false,10⟩,some ⟨some 0,false,true⟩,.timedOut⟩] ∧
    ∃ r ∈ (exec watch (.init true (evtCreateHandler 19)) retriedRead).returns, 0 < r.ioCall.timeout ∧ ¬r.Right := by
  have returns : (exec watch (.init true (evtCreateHandler 19)) retriedRead).returns =
      [⟨⟨5,false,10⟩,some ⟨some 0,false,true⟩,.timedOut⟩] := by decide +kernel
  refine ⟨⟨trivial,trivial,trivial,trivial,trivial,trivial,trivial,trivial,trivial,trivial⟩,returns,_,
    by rw [returns]; exact List.mem_singleton_self _,by decide,?_⟩
  rintro ⟨call,is,same⟩
  cases is
  cases same.mp rfl

end LibProc.ThreadIo.Calls
