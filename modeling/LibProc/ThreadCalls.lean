import LibProc.ThreadIo

/-! The calls that the pseudo threads are in, beside the threads: which timer a call has set, whether
that timer has fired, whether a read or write of it has ended in EWOULDBLOCK, and what it returned.
The threads do not see any of this. -/
namespace LibProc.ThreadIo.Calls
open PseudoThreads LinkedSlots FdRegistry FdCallbacks

structure Call where
  timer : Option Nat
  fired : Bool
  again : Bool
  deriving DecidableEq, Repr

/- What `pt_rw_int` returns: -2, or what the read or write has returned. -/
inductive Result where
  | timedOut
  | finished
  deriving DecidableEq, Repr

structure Return where
  ioCall : IoCall
  call : Option Call
  result : Result
  deriving DecidableEq, Repr

structure Watched where
  io : Io
  calls : Nat → Option Call
  returns : List Return

def Watched.init (evt : Bool) (registry : Registry) : Watched := ⟨.init evt registry,fun _ => none,[]⟩

def resumeResult (s : Io) (self : Nat) (ioCall : IoCall) (outcome : Outcome) : Option Result :=
  if 0 < ioCall.timeout ∧ hasTimer s.threads self = false then some .timedOut
  else match outcome with
    | .done => some .finished
    | .wouldBlock => none

def newTimer (before after : State) : Option Nat := if before.nextTimer < after.nextTimer then some before.nextTimer else none

def Call.fire (number : Nat) (call : Call) : Call := if call.timer = some number then { call with fired := true } else call

def Call.retry (call : Call) : Call := { call with again := true }

def fireCalls (timers : List (Nat × Nat)) (number : Nat) (calls : Nat → Option Call) (thread : Nat) : Option Call :=
  if (number,thread) ∈ timers then (calls thread).map (Call.fire number) else calls thread

def resumeCall (w : Watched) (after : Io) (outcome : Outcome) : Watched :=
  match w.io.threads.threads.heads .ready with
  | none => { w with io := after }
  | some next =>
    match w.io.io next with
    | none => { w with io := after, calls := Function.update w.calls next none }
    | some ioCall =>
      match resumeResult { w.io with threads := runNext w.io.threads } next ioCall outcome with
      | some result =>
        ⟨after,Function.update w.calls next none,w.returns ++ [⟨ioCall,w.calls next,result⟩]⟩
      | none => { w with io := after, calls := Function.update w.calls next ((w.calls next).map Call.retry) }

def watch (w : Watched) (act : Act) : Watched :=
  let after := step w.io act
  if w.io.threads.stop.isSome then w
  else match w.io.threads.place,act with
    | .thread self,_ =>
      if after.threads.place = .back then
        { w with io := after, calls := Function.update w.calls self (some ⟨newTimer w.io.threads after.threads,false,false⟩) }
      else { w with io := after }
    | .main,.thread (.timer number) => { w with io := after, calls := fireCalls w.io.threads.timers number w.calls }
    | .main,.run outcome _ => resumeCall w after outcome
    | _,_ => { w with io := after }

def readies (s : Io) (act : Act) : Option Nat :=
  if s.threads.stop.isSome then none
  else match s.threads.place,act with
    | .back,_ => none
    | _,.thread (.unblock arg) => arg
    | .main,.ready fd event _ =>
      match (dispatch s.registry fd event).running,callbackOf s.registry fd event with
      | some _,some callback => if callback = fdEvent callback.arg then some callback.arg else none
      | _,_ => none
    | _,_ => none

theorem resumeCallIo (w : Watched) (after : Io) (outcome : Outcome) : (resumeCall w after outcome).io = after := by
  unfold resumeCall
  split
  · rfl
  split
  · rfl
  split <;> rfl

theorem stepStopped {s : Io} (act : Act) (stopped : s.threads.stop.isSome = true) : step s act = s := by
  unfold step
  rw [if_pos stopped]

theorem watchIo (w : Watched) (act : Act) : (watch w act).io = step w.io act := by
  unfold watch
  dsimp only
  by_cases stopped : w.io.threads.stop.isSome = true
  · rw [if_pos stopped, stepStopped act stopped]
  rw [if_neg stopped]
  split
  · split <;> rfl
  · rfl
  · exact resumeCallIo w _ _
  · rfl

def Sane (threads : State) : Prop := ∃ lists, PseudoThreads.Inv { threads with stop := none } lists

structure Base (s : Io) : Prop where
  sane : Sane s.threads
  waits : ∀ thread ioCall, s.io thread = some ioCall →
    headOf s.threads.threads thread = some .blocked ∨ headOf s.threads.threads thread = some .ready

structure Leaves (s s' : Io) (who : Nat → Prop) : Prop where
  heads : ∀ thread, ¬who thread → ∀ q, headOf s.threads.threads thread = some q → headOf s'.threads.threads thread = some q
  io : ∀ thread, ¬who thread → s'.io thread = s.io thread
  timers : ∀ thread, ¬who thread → ∀ number, (number,thread) ∈ s'.threads.timers ↔ (number,thread) ∈ s.threads.timers

def Untimed (s : Io) (thread : Nat) : Prop := ∀ number, (number,thread) ∉ s.threads.timers

def TimersSame (s s' : Io) (thread : Nat) : Prop := ∀ number, (number,thread) ∈ s'.threads.timers ↔ (number,thread) ∈ s.threads.timers

inductive Change (w : Watched) (act : Act) (w' : Watched) : Prop where
  | still (leaves : Leaves w.io w'.io fun _ => False) (calls : w'.calls = w.calls) (returns : w'.returns = w.returns)
      (asserted : w'.io.threads.stop ≠ some .timerSet) (nobody : ∀ thread, readies w.io act = some thread → Untimed w.io thread)
  | readied (thread : Nat) (is : readies w.io act = some thread) (leaves : Leaves w.io w'.io (· = thread))
      (head : headOf w'.io.threads.threads thread = some .ready) (timers : TimersSame w.io w'.io thread)
      (io : w'.io.io thread = w.io.io thread) (calls : w'.calls = w.calls) (returns : w'.returns = w.returns)
      (asserted : w'.io.threads.stop ≠ some .timerSet)
  | fired (number thread : Nat) (pending : (number,thread) ∈ w.io.threads.timers) (leaves : Leaves w.io w'.io (· = thread))
      (head : headOf w'.io.threads.threads thread = some .ready) (untimed : Untimed w'.io thread)
      (io : w'.io.io thread = w.io.io thread) (calls : w'.calls = fireCalls w.io.threads.timers number w.calls)
      (returns : w'.returns = w.returns) (asserted : w'.io.threads.stop ≠ some .timerSet) (nobody : readies w.io act = none)
  | began (self : Nat) (timer : Option Nat) (current : headOf w.io.threads.threads self = some .curr)
      (leaves : Leaves w.io w'.io (· = self)) (head : headOf w'.io.threads.threads self = some .blocked)
      (timers : ∀ number, (number,self) ∈ w'.io.threads.timers ↔ (number,self) ∈ w.io.threads.timers ∨ timer = some number)
      (timed : ∀ ioCall, w'.io.io self = some ioCall → 0 < ioCall.timeout → Untimed w.io self)
      (calls : w'.calls = Function.update w.calls self (some ⟨timer,false,false⟩)) (returns : w'.returns = w.returns)
      (asserted : w'.io.threads.stop ≠ some .timerSet) (nobody : readies w.io act = none)
  | refused (self : Nat) (current : headOf w.io.threads.threads self = some .curr) (set : ¬Untimed w.io self)
      (leaves : Leaves w.io w'.io fun _ => False) (calls : w'.calls = w.calls) (returns : w'.returns = w.returns)
  | left (thread : Nat) (leaves : Leaves w.io w'.io (· = thread)) (untimed : Untimed w'.io thread) (io : w'.io.io thread = none)
      (calls : ∀ other ≠ thread, w'.calls other = w.calls other) (returns : w'.returns = w.returns)
      (asserted : w'.io.threads.stop ≠ some .timerSet) (nobody : readies w.io act = none)
  | resumed (next : Nat) (ready : headOf w.io.threads.threads next = some .ready) (none_ : w.io.io next = none)
      (leaves : Leaves w.io w'.io (· = next)) (timers : TimersSame w.io w'.io next) (io : w'.io.io next = none)
      (calls : w'.calls = Function.update w.calls next none) (returns : w'.returns = w.returns)
      (asserted : w'.io.threads.stop ≠ some .timerSet) (nobody : readies w.io act = none)
  | returned (next : Nat) (ioCall : IoCall) (result : Result) (is : w.io.io next = some ioCall)
      (late : result = .timedOut ↔ 0 < ioCall.timeout ∧ Untimed w.io next)
      (leaves : Leaves w.io w'.io (· = next)) (untimed : Untimed w'.io next) (io : w'.io.io next = none)
      (calls : w'.calls = Function.update w.calls next none) (returns : w'.returns = w.returns ++ [⟨ioCall,w.calls next,result⟩])
      (asserted : w'.io.threads.stop ≠ some .timerSet) (nobody : readies w.io act = none)
  | retried (next : Nat) (ioCall : IoCall) (is : w.io.io next = some ioCall) (timed : 0 < ioCall.timeout → ¬Untimed w.io next)
      (leaves : Leaves w.io w'.io (· = next)) (head : headOf w'.io.threads.threads next = some .blocked)
      (untimed : Untimed w'.io next) (io : w'.io.io next = some ioCall)
      (calls : w'.calls = Function.update w.calls next ((w.calls next).map Call.retry)) (returns : w'.returns = w.returns)
      (asserted : w'.io.threads.stop ≠ some .timerSet) (nobody : readies w.io act = none)

section
variable {st : State} {lists : Queue → List Nat} {self thread number : Nat} {item : PThread} {s : Io}

theorem Sane.ofInv (inv : PseudoThreads.Inv st lists) : Sane st := ⟨lists,inv.core,inv.current,inv.waiting,inv.cleared,nofun,nofun,nofun⟩

theorem Sane.inv (sane : Sane st) (runs : st.stop = none) : ∃ lists, PseudoThreads.Inv st lists := by
  obtain ⟨lists,inv⟩ := sane
  exact ⟨lists,inv.core,inv.current,inv.waiting,inv.cleared,by rw [runs]; exact ⟨nofun,nofun,nofun⟩⟩

theorem Sane.timed (sane : Sane st) :
    (number,thread) ∈ st.timers ↔ ((itemOf st.threads thread).bind fun item => item.schedEvt) = some number :=
  sane.choose_spec.core.timed number thread

theorem Sane.listed (sane : Sane st) (pending : (number,thread) ∈ st.timers) : ∃ q, headOf st.threads thread = some q := by
  obtain ⟨lists,inv⟩ := sane
  obtain ⟨item,is,timed⟩ := Option.bind_eq_some_iff.mp ((inv.core.timed number thread).mp pending)
  rcases inv.core.placed thread item is with ⟨q,member⟩ | gone
  · exact ⟨q,by rw [headItem is]; exact (inv.core.shelved.heads thread item is q).mpr member⟩
  · rw [inv.cleared thread item gone is] at timed
    cases timed

theorem Sane.hasTimer (sane : Sane st) : hasTimer st thread = true ↔ ∃ number, (number,thread) ∈ st.timers := by
  simp only [sane.timed,← Option.isSome_iff_exists,PseudoThreads.hasTimer,itemOf,Option.bind_map]
  rfl

theorem Sane.hasNoTimer (sane : Sane st) : PseudoThreads.hasTimer st thread = false ↔ ∀ number, (number,thread) ∉ st.timers := by
  rw [← Bool.not_eq_true, sane.hasTimer, not_exists]

@[simp] theorem withThreadsTimers (st : State) (threads : Option (Links Queue PThread)) : (st.withThreads threads).timers = st.timers := by
  cases threads <;> rfl

@[simp] theorem withThreadsPlace (st : State) (threads : Option (Links Queue PThread)) : (st.withThreads threads).place = st.place := by
  cases threads <;> rfl

theorem withThreadsGoner (st : State) (threads : Option (Links Queue PThread)) : (st.withThreads threads).goner = st.goner := by
  cases threads <;> rfl

theorem withThreadsNext (st : State) (threads : Option (Links Queue PThread)) :
    (st.withThreads threads).nextTimer = st.nextTimer := by
  cases threads <;> rfl

theorem withThreadsStop {st : State} (threads : Option (Links Queue PThread)) (fine : st.stop ≠ some .timerSet) :
    (st.withThreads threads).stop ≠ some .timerSet := by
  cases threads with
  | none => exact nofun
  | some threads => exact fine

theorem unasserted (runs : st.stop = none) : st.stop ≠ some .timerSet := by
  rw [runs]
  exact nofun

theorem removeTimerFewer {event : Nat × Nat} (member : event ∈ (removeTimer st self).timers) : event ∈ st.timers := by
  unfold removeTimer at member
  split at member
  · exact member
  split at member
  · rw [withThreadsTimers] at member
    exact List.mem_of_mem_filter member
  · exact member

theorem removeTimerStop (self : Nat) (fine : st.stop ≠ some .timerSet) : (removeTimer st self).stop ≠ some .timerSet := by
  unfold removeTimer
  split
  · exact fine
  split
  · exact withThreadsStop _ fine
  · exact nofun

theorem removeTimerGoner (st : State) (self : Nat) : (removeTimer st self).goner = st.goner := by
  unfold removeTimer
  split
  · rfl
  split
  · exact withThreadsGoner _ _
  · rfl

theorem addTimerTimers (st : State) (self : Nat) (memory : Bool) :
    (addTimer st self memory).timers = if memory then st.timers ++ [(st.nextTimer,self)] else st.timers := by
  unfold addTimer
  cases memory with
  | false => rfl
  | true => exact withThreadsTimers _ _

theorem addTimerNext (st : State) (self : Nat) (memory : Bool) :
    (addTimer st self memory).nextTimer = if memory then st.nextTimer + 1 else st.nextTimer := by
  unfold addTimer
  cases memory with
  | false => rfl
  | true => exact withThreadsNext _ _

theorem newTimerAdded {after : State} (memory : Bool) (next : after.nextTimer = if memory then st.nextTimer + 1 else st.nextTimer) :
    newTimer st after = if memory then some st.nextTimer else none := by
  unfold newTimer
  cases memory with
  | false => rw [next, if_neg (by simp), if_neg (by simp)]
  | true => rw [next, if_pos (by simp), if_pos rfl]

theorem newTimerSame {after : State} (next : after.nextTimer = st.nextTimer) : newTimer st after = none :=
  newTimerAdded false next

theorem leavesOf {s' : Io} {who : Nat → Prop} (sane : Sane s.threads) (sane' : Sane s'.threads)
    (spares : Spares s.threads s'.threads who)
    (fewer : ∀ thread, ¬who thread → ∀ number, (number,thread) ∈ s'.threads.timers → (number,thread) ∈ s.threads.timers)
    (io : ∀ thread, ¬who thread → s'.io thread = s.io thread) : Leaves s s' who := by
  refine ⟨fun thread other q head => ?_,io,fun thread other number => ⟨fewer thread other number,fun pending => ?_⟩⟩
  · obtain ⟨item,is,named⟩ := headCell head
    rw [headItem (spares thread other item is), named]
  · obtain ⟨item,is,timed⟩ := Option.bind_eq_some_iff.mp (sane.timed.mp pending)
    rw [sane'.timed, spares thread other item is]
    exact timed

theorem Base.stack (base : Base s) {after : State} {who : Nat → Prop} (spares : Spares s.threads after who) {thread : Nat}
    (other : ¬who thread) : stackOf after s.io thread = s.io thread := by
  cases is : s.io thread with
  | none => rw [stackOf, is, ite_self]
  | some ioCall =>
    have head : ∃ q, headOf s.threads.threads thread = some q := (base.waits thread ioCall is).elim (⟨_,·⟩) (⟨_,·⟩)
    obtain ⟨q,head⟩ := head
    obtain ⟨item,there,-⟩ := headCell head
    rw [stackLive (spares thread other item there), is]

theorem Base.leaves (base : Base s) {after : State} {who : Nat → Prop} (sane : Sane after) (spares : Spares s.threads after who)
    (fewer : ∀ thread, ¬who thread → ∀ number, (number,thread) ∈ after.timers → (number,thread) ∈ s.threads.timers) :
    Leaves s { s with threads := after, io := stackOf after s.io } who :=
  leavesOf base.sane sane spares fewer fun _ other => base.stack spares other

theorem Base.running (base : Base s) (current : headOf s.threads.threads self = some .curr) : s.io self = none := by
  cases is : s.io self with
  | none => rfl
  | some ioCall =>
    rcases base.waits self ioCall is with head | head <;> rw [current] at head <;> cases head

theorem currentHead (inv : PseudoThreads.Inv st lists) (place : st.place = .thread self) : headOf st.threads self = some .curr := by
  obtain ⟨item,is,current⟩ := inv.currentItem place
  rw [headItem is, current]

theorem suspended (inv : PseudoThreads.Inv st lists) (place : st.place = .thread self) {added : State}
    (shape : added = { st with threads := added.threads, timers := added.timers, nextTimer := added.nextTimer })
    (core : Core added.threads st.goner added.timers added.nextTimer lists) (touched : Touches st.threads added.threads self item) :
    ∃ after, (added.withThreads (requeueThread added.threads self .blocked)).switchBack = after ∧
      (∃ lists', PseudoThreads.Inv after lists') ∧ Spares st after (· = self) ∧ headOf after.threads self = some .blocked ∧
      after.timers = added.timers ∧ after.nextTimer = added.nextTimer ∧ after.place = .back ∧ after.stop = st.stop := by
  obtain ⟨threads,done,touched',inv'⟩ := suspends inv place core touched.own
  refine ⟨_,rfl,?_,?_,?_,?_⟩ <;> rw [done]
  · rw [shape]
    exact inv'
  · exact (touched.trans touched').spares
  · exact touched'.head
  · refine ⟨rfl,rfl,rfl,?_⟩
    rw [shape]
    rfl

structure Suspends (st after : State) (running : Nat) (timer : Option Nat) : Prop where
  place : st.place = .thread running
  good : ∃ lists, PseudoThreads.Inv after lists
  spares : Spares st after (· = running)
  head : headOf after.threads running = some .blocked
  timers : ∀ number thread, (number,thread) ∈ after.timers ↔ (number,thread) ∈ st.timers ∨ thread = running ∧ timer = some number
  new : newTimer st after = timer
  back : after.place = .back
  stop : after.stop = st.stop

theorem suspendsPlain (inv : PseudoThreads.Inv st lists) (place : st.place = .thread self) :
    Suspends st ((st.withThreads (requeueThread st.threads self .blocked)).switchBack) self none := by
  obtain ⟨item,is,-⟩ := inv.currentItem place
  obtain ⟨after,same,good,spares,head,timers,next,back,stop⟩ := suspended inv place rfl inv.core (touchesSelf is)
  rw [same]
  refine ⟨place,good,spares,head,fun number thread => ?_,newTimerSame next,back,stop⟩
  rw [timers]
  simp

theorem suspendsTimed (inv : PseudoThreads.Inv st lists) (place : st.place = .thread self) (unset : PseudoThreads.hasTimer st self = false)
    (memory : Bool) :
    Suspends st (((addTimer st self memory).withThreads (requeueThread (addTimer st self memory).threads self .blocked)).switchBack) self
      (if memory then some st.nextTimer else none) := by
  obtain ⟨item,is,-⟩ := inv.currentItem place
  rw [timerItem is] at unset
  obtain ⟨threads,timers,nextTimer,item',added,core,touched,-⟩ :=
    timerAdded inv.core is (Option.not_isSome_iff_eq_none.mp (Bool.eq_false_iff.mp unset)) memory
  have shape : addTimer st self memory = { st with
      threads := (addTimer st self memory).threads, timers := (addTimer st self memory).timers,
      nextTimer := (addTimer st self memory).nextTimer } := by rw [added]
  have core' : Core (addTimer st self memory).threads st.goner (addTimer st self memory).timers (addTimer st self memory).nextTimer
      lists := by rwa [added]
  have touched' : Touches st.threads (addTimer st self memory).threads self item' := by rwa [added]
  obtain ⟨after,same,good,spares,head,timers',next,back,stop⟩ := suspended inv place shape core' touched'
  rw [same]
  refine ⟨place,good,spares,head,fun number thread => ?_,newTimerAdded memory (next.trans (addTimerNext st self memory)),back,stop⟩
  rw [timers', addTimerTimers]
  cases memory with
  | false => simp
  | true => simp [and_comm,eq_comm]

theorem blockCases (inv : PseudoThreads.Inv st lists) (arg : Option Nat) :
    ptBlock st arg = st ∨ ptBlock st arg = st.fail .null ∨ ∃ self, Suspends st (ptBlock st arg) self none := by
  unfold ptBlock
  by_cases other : arg ≠ st.threads.heads .curr
  · exact .inl (if_pos other)
  rw [if_neg other]
  cases arg with
  | none => exact .inr (.inl rfl)
  | some self => exact .inr (.inr ⟨self,suspendsPlain inv (currentThread inv (not_not.mp other).symm)⟩)

theorem waitCases (inv : PseudoThreads.Inv st lists) (msecs : Nat) (memory : Bool) :
    ptWait st msecs memory = st ∨
    (∃ self, st.place = .thread self ∧ PseudoThreads.hasTimer st self = true ∧ ptWait st msecs memory = st.fail .timerSet) ∨
    ∃ self timer, PseudoThreads.hasTimer st self = false ∧ Suspends st (ptWait st msecs memory) self timer := by
  unfold ptWait
  cases head : st.threads.heads .curr with
  | none => exact .inl rfl
  | some self =>
    have place := currentThread inv head
    dsimp only
    by_cases idle : msecs = 0 ∨ st.evt = false
    · exact .inl (if_pos idle)
    rw [if_neg idle]
    cases set : PseudoThreads.hasTimer st self with
    | true => exact .inr (.inl ⟨self,place,set,rfl⟩)
    | false => exact .inr (.inr ⟨self,_,set,suspendsTimed inv place set memory⟩)

end

section
variable {w : Watched} {act : Act} {self : Nat} {timer : Option Nat}

theorem watchStays (act : Act) (runs : w.io.threads.stop = none) (stays : ∀ self, w.io.threads.place = .thread self →
    (step w.io act).threads.place ≠ .back) (quiet : w.io.threads.place = .main →
      (∀ number, act ≠ .thread (.timer number)) ∧ ∀ outcome memory, act ≠ .run outcome memory) :
    watch w act = { w with io := step w.io act } := by
  unfold watch
  dsimp only
  rw [runs, if_neg (by simp)]
  split
  · rename_i place
    exact if_neg (stays _ place)
  · rename_i place
    exact absurd rfl ((quiet place).1 _)
  · rename_i place
    exact absurd rfl ((quiet place).2 _ _)
  · rfl

theorem watchSuspends (runs : w.io.threads.stop = none) (place : w.io.threads.place = .thread self)
    (back : (step w.io act).threads.place = .back) :
    watch w act = { w with
      io := step w.io act
      calls := Function.update w.calls self (some ⟨newTimer w.io.threads (step w.io act).threads,false,false⟩) } := by
  unfold watch
  dsimp only
  rw [runs, if_neg (by simp), place]
  exact if_pos back

theorem Suspends.change (base : Base w.io) (runs : w.io.threads.stop = none)
    (suspends : Suspends w.io.threads (step w.io act).threads self timer)
    (timed : ∀ ioCall, (step w.io act).io self = some ioCall → 0 < ioCall.timeout → Untimed w.io self)
    (others : ∀ thread, thread ≠ self → (step w.io act).io thread = w.io.io thread) (nobody : readies w.io act = none) :
    Change w act (watch w act) := by
  obtain ⟨lists,good⟩ := base.sane.inv runs
  obtain ⟨lists',good'⟩ := suspends.good
  rw [watchSuspends runs suspends.place suspends.back, suspends.new]
  refine .began self timer (currentHead good suspends.place) ?_ suspends.head (fun number => ?_) timed rfl rfl ?_ nobody
  · refine leavesOf base.sane (.ofInv good') suspends.spares (fun thread other number pending => ?_) others
    exact ((suspends.timers number thread).mp pending).resolve_right fun own => other own.1
  · rw [suspends.timers]
    simp
  · rw [suspends.stop, runs]
    exact nofun

theorem stepThread (s : Io) (act : PseudoThreads.Act) (runs : s.threads.stop = none) (other : act ≠ .run) :
    step s (.thread act) =
      { s with threads := PseudoThreads.step s.threads act, io := stackOf (PseudoThreads.step s.threads act) s.io } := by
  unfold step
  rw [runs, if_neg (by simp)]
  cases act with
  | run => exact absurd rfl other
  | _ => rfl

theorem readiesThread (s : Io) (act : PseudoThreads.Act) (other : ∀ arg, act ≠ .unblock arg) : readies s (.thread act) = none := by
  unfold readies
  cases act with
  | unblock arg => exact absurd rfl (other arg)
  | _ => cases s.threads.place <;> exact ite_self _

theorem opStep {st : State} (runs : st.stop = none) (working : st.place ≠ .back) :
    (∀ memory, PseudoThreads.step st (.create memory) = ptCreate st memory) ∧
    (∀ arg, PseudoThreads.step st (.block arg) = ptBlock st arg) ∧
    (∀ arg, PseudoThreads.step st (.unblock arg) = ptUnblock st arg) ∧
    (∀ msecs memory, PseudoThreads.step st (.wait msecs memory) = ptWait st msecs memory) ∧
    (∀ arg, PseudoThreads.step st (.destroy arg) = ptDestroy st arg) := by
  unfold PseudoThreads.step
  rw [runs]
  cases place : st.place with
  | back => exact absurd place working
  | main => exact ⟨fun _ => rfl,fun _ => rfl,fun _ => rfl,fun _ _ => rfl,fun _ => rfl⟩
  | thread self => exact ⟨fun _ => rfl,fun _ => rfl,fun _ => rfl,fun _ _ => rfl,fun _ => rfl⟩

theorem timerStep {st : State} (runs : st.stop = none) (place : st.place = .main) (number : Nat) :
    PseudoThreads.step st (.timer number) =
      match st.timers.find? fun event => event.1 = number with
      | none => st
      | some event => timedEvtCb { st with timers := st.timers.filter fun event => event.1 ≠ number } event.2 := by
  obtain ⟨threads,goner,evt,timers,nextTimer,_,_⟩ := st
  cases place
  cases runs
  rfl

theorem retStep {st : State} {self : Nat} (runs : st.stop = none) (place : st.place = .thread self) :
    PseudoThreads.step st .ret = tmainWrapper st self := by
  obtain ⟨threads,goner,evt,timers,nextTimer,_,_⟩ := st
  cases place
  cases runs
  rfl

section
variable {op : PseudoThreads.Act} {after : State}

theorem Base.unmoved (base : Base w.io) (runs : w.io.threads.stop = none) (other : op ≠ .run)
    (untimed : w.io.threads.place = .main → ∀ number, op ≠ .timer number)
    (is : PseudoThreads.step w.io.threads op = after) (place : after.place = w.io.threads.place) (sane : Sane after)
    (spares : Spares w.io.threads after fun _ => False) (timers : after.timers = w.io.threads.timers)
    (asserted : after.stop ≠ some .timerSet) (nobody : ∀ thread, readies w.io (.thread op) = some thread → Untimed w.io thread) :
    Change w (.thread op) (watch w (.thread op)) := by
  have stepped := stepThread w.io op runs other
  rw [is] at stepped
  rw [watchStays (.thread op) runs (fun self running => by rw [stepped, place, running]; exact nofun)
    (fun main => ⟨fun number same => untimed main number (by cases same; rfl),fun _ _ => nofun⟩), stepped]
  exact .still (base.leaves sane spares fun thread _ number pending => timers ▸ pending) rfl rfl asserted nobody

theorem Base.idle (base : Base w.io) (runs : w.io.threads.stop = none) (other : op ≠ .run)
    (untimed : w.io.threads.place = .main → ∀ number, op ≠ .timer number)
    (is : PseudoThreads.step w.io.threads op = w.io.threads)
    (nobody : ∀ thread, readies w.io (.thread op) = some thread → Untimed w.io thread) :
    Change w (.thread op) (watch w (.thread op)) :=
  base.unmoved runs other untimed is rfl base.sane (.same _) rfl (by rw [runs]; exact nofun) nobody

theorem Suspends.ofThread (base : Base w.io) (runs : w.io.threads.stop = none) (other : op ≠ .run)
    (suspends : Suspends w.io.threads (PseudoThreads.step w.io.threads op) self timer)
    (nobody : readies w.io (.thread op) = none) : Change w (.thread op) (watch w (.thread op)) := by
  have stepped := stepThread w.io op runs other
  obtain ⟨lists,good⟩ := base.sane.inv runs
  have out : (step w.io (.thread op)).io self = none := by
    rw [stepped]
    dsimp only
    rw [stackOf, base.running (currentHead good suspends.place), ite_self]
  refine Suspends.change base runs (by rw [stepped]; exact suspends) (fun ioCall is => ?_) (fun thread apart => ?_) nobody
  · rw [out] at is
    cases is
  · rw [stepped]
    exact base.stack suspends.spares apart

theorem createChange (base : Base w.io) (runs : w.io.threads.stop = none) {memory : Bool}
    (is : PseudoThreads.step w.io.threads (.create memory) = ptCreate w.io.threads memory) :
    Change w (.thread (.create memory)) (watch w (.thread (.create memory))) := by
  obtain ⟨lists,good⟩ := base.sane.inv runs
  obtain ⟨⟨lists',good'⟩,spares⟩ := createInv good memory
  have nobody := readiesThread w.io (.create memory) nofun
  refine base.unmoved runs nofun (fun _ => nofun) is ?_ (.ofInv good') spares ?_ ?_ (by rw [nobody]; exact nofun)
  all_goals unfold ptCreate; split
  · rfl
  · exact withThreadsPlace _ _
  · rfl
  · exact withThreadsTimers _ _
  · exact nofun
  · exact withThreadsStop _ (unasserted runs)

theorem blockChange (base : Base w.io) (runs : w.io.threads.stop = none) {arg : Option Nat}
    (is : PseudoThreads.step w.io.threads (.block arg) = ptBlock w.io.threads arg) :
    Change w (.thread (.block arg)) (watch w (.thread (.block arg))) := by
  obtain ⟨lists,good⟩ := base.sane.inv runs
  have nobody := readiesThread w.io (.block arg) nofun
  have free : ∀ thread, readies w.io (.thread (.block arg)) = some thread → Untimed w.io thread := by rw [nobody]; exact nofun
  rcases blockCases good arg with same | failed | ⟨self,suspends⟩
  · exact base.idle runs nofun (fun _ => nofun) (is.trans same) free
  · exact base.unmoved runs nofun (fun _ => nofun) (is.trans failed) rfl base.sane (fun _ _ _ => id) rfl nofun free
  · exact Suspends.ofThread base runs nofun (is ▸ suspends) nobody

theorem waitChange (base : Base w.io) (runs : w.io.threads.stop = none) {msecs : Nat} {memory : Bool}
    (is : PseudoThreads.step w.io.threads (.wait msecs memory) = ptWait w.io.threads msecs memory) :
    Change w (.thread (.wait msecs memory)) (watch w (.thread (.wait msecs memory))) := by
  obtain ⟨lists,good⟩ := base.sane.inv runs
  have nobody := readiesThread w.io (.wait msecs memory) nofun
  have free : ∀ thread, readies w.io (.thread (.wait msecs memory)) = some thread → Untimed w.io thread := by rw [nobody]; exact nofun
  rcases waitCases good msecs memory with same | ⟨self,place,set,failed⟩ | ⟨self,timer,unset,suspends⟩
  · exact base.idle runs nofun (fun _ => nofun) (is.trans same) free
  · have stepped := stepThread w.io (.wait msecs memory) runs nofun
    rw [is, failed] at stepped
    rw [watchStays (.thread (.wait msecs memory)) runs
      (fun self running => by rw [stepped]; exact fun back => by rw [show w.io.threads.place = .back from back] at running; cases running)
      (fun _ => ⟨fun _ => nofun,fun _ _ => nofun⟩), stepped]
    obtain ⟨number,pending⟩ := base.sane.hasTimer.mp set
    exact .refused self (currentHead good place) (fun untimed => untimed number pending)
      (base.leaves base.sane (fun _ _ _ => id) fun _ _ _ => id) rfl rfl
  · exact Suspends.ofThread base runs nofun (is ▸ suspends) nobody

theorem unblockChange (base : Base w.io) (runs : w.io.threads.stop = none) (working : w.io.threads.place ≠ .back) {thread : Nat}
    (valid : PseudoThreads.Valid w.io.threads (.unblock (some thread)))
    (is : PseudoThreads.step w.io.threads (.unblock (some thread)) = ptUnblock w.io.threads (some thread)) :
    Change w (.thread (.unblock (some thread))) (watch w (.thread (.unblock (some thread)))) := by
  obtain ⟨lists,good⟩ := base.sane.inv runs
  obtain ⟨⟨lists',good'⟩,spares,ready⟩ := unblockInv good working valid.1 valid.2
  have stepped := stepThread w.io (.unblock (some thread)) runs nofun
  rw [is] at stepped
  have place : (ptUnblock w.io.threads (some thread)).place = w.io.threads.place := withThreadsPlace _ _
  have timers : (ptUnblock w.io.threads (some thread)).timers = w.io.threads.timers := withThreadsTimers _ _
  have named : readies w.io (.thread (.unblock (some thread))) = some thread := by
    unfold readies
    rw [runs]
    cases place : w.io.threads.place with
    | back => exact absurd place working
    | main => rfl
    | thread self => rfl
  rw [watchStays (.thread (.unblock (some thread))) runs (fun self running => by rw [stepped, place, running]; exact nofun)
    (fun _ => ⟨fun _ => nofun,fun _ _ => nofun⟩), stepped]
  obtain ⟨item,there,-⟩ := headCell ready
  exact .readied thread named (base.leaves (.ofInv good') spares fun _ _ _ pending => timers ▸ pending) ready
    (fun number => by rw [timers]) (stackLive there) rfl rfl (withThreadsStop _ (unasserted runs))

theorem Base.leftThread (base : Base w.io) {act : Act} {thread : Nat} (sane : Sane after) (spares : Spares w.io.threads after (· = thread))
    (fewer : ∀ event ∈ after.timers, event ∈ w.io.threads.timers) (asserted : after.stop ≠ some .timerSet)
    (io : (watch w act).io = { w.io with threads := after, io := stackOf after w.io.io })
    (calls : ∀ other ≠ thread, (watch w act).calls other = w.calls other) (returns : (watch w act).returns = w.returns)
    (off : ∀ q, headOf after.threads thread ≠ some q) (out : stackOf after w.io.io thread = none)
    (nobody : readies w.io act = none) : Change w act (watch w act) := by
  refine .left thread ?_ ?_ ?_ calls returns ?_ nobody <;> rw [io]
  · exact base.leaves sane spares fun thread _ number pending => fewer _ pending
  · intro number pending
    obtain ⟨q,head⟩ := sane.listed pending
    exact off q head
  · exact out
  · exact asserted

theorem gonerOff {st : State} {lists : Queue → List Nat} (inv : PseudoThreads.Inv st lists) {thread : Nat}
    (gone : st.goner = some thread) (q : Queue) : headOf st.threads thread ≠ some q := by
  intro head
  obtain ⟨item,is,named⟩ := headCell head
  exact (inv.core.gone thread gone).2 q ((inv.core.shelved.heads thread item is q).mp named)

theorem Base.leftRunning (base : Base w.io) (runs : w.io.threads.stop = none) (other : op ≠ .run) {self : Nat}
    (is : PseudoThreads.step w.io.threads op = after) (place : w.io.threads.place = .thread self) {lists : Queue → List Nat}
    (good : PseudoThreads.Inv after lists) (spares : Spares w.io.threads after (· = self))
    (fewer : ∀ event ∈ after.timers, event ∈ w.io.threads.timers) (asserted : after.stop ≠ some .timerSet)
    (back : after.place = .back) (gone : after.goner = some self) (nobody : readies w.io (.thread op) = none) :
    Change w (.thread op) (watch w (.thread op)) := by
  have stepped := stepThread w.io op runs other
  rw [is] at stepped
  have leaves : (step w.io (.thread op)).threads.place = .back := by rw [stepped]; exact back
  have watched := watchSuspends runs place leaves
  obtain ⟨lists',good'⟩ := base.sane.inv runs
  refine base.leftThread (.ofInv good) spares fewer asserted (by rw [watched, stepped]) (fun other apart => ?_) (by rw [watched])
    (gonerOff good gone) ?_ nobody
  · rw [watched]
    exact Function.update_of_ne apart _ _
  · rw [stackOf, base.running (currentHead good' place), ite_self]

theorem destroyFrame (st : State) (thread : Nat) :
    (∀ event ∈ (ptDestroy st (some thread)).timers, event ∈ st.timers) ∧
      (st.stop ≠ some .timerSet → (ptDestroy st (some thread)).stop ≠ some .timerSet) := by
  unfold ptDestroy
  dsimp only
  have left : ∀ event ∈ ((removeTimer st thread).withThreads (dequeueThread (removeTimer st thread).threads thread)).timers,
      event ∈ st.timers := by
    intro event member
    rw [withThreadsTimers] at member
    exact removeTimerFewer member
  split
  · exact ⟨left,fun fine => withThreadsStop _ (removeTimerStop thread fine)⟩
  · exact ⟨left,fun fine => withThreadsStop _ (removeTimerStop thread fine)⟩

theorem destroyPlaces {st : State} {lists : Queue → List Nat} (inv : PseudoThreads.Inv st lists) {thread : Nat}
    (live : Live st thread) :
    (st.place = .thread thread → (ptDestroy st (some thread)).place = .back ∧ (ptDestroy st (some thread)).goner = some thread) ∧
      (st.place ≠ .thread thread → (ptDestroy st (some thread)).place = st.place) := by
  obtain ⟨item,is⟩ := liveItem.mp live
  obtain ⟨threads,timers,removed,-,-,heads⟩ := timerRemoved inv.core is
  unfold ptDestroy
  dsimp only
  rw [removed]
  dsimp only
  rw [heads]
  refine ⟨fun place => ?_,fun other => ?_⟩
  · have current : st.threads.heads .curr = some thread := by rw [inv.currHead, place]; rfl
    rw [if_pos current]
    exact ⟨rfl,rfl⟩
  · rw [if_neg fun current => other (currentThread inv current)]
    exact withThreadsPlace _ _

theorem destroyChange (base : Base w.io) (runs : w.io.threads.stop = none) (working : w.io.threads.place ≠ .back) {thread : Nat}
    (live : Live w.io.threads thread)
    (is : PseudoThreads.step w.io.threads (.destroy (some thread)) = ptDestroy w.io.threads (some thread)) :
    Change w (.thread (.destroy (some thread))) (watch w (.thread (.destroy (some thread)))) := by
  obtain ⟨lists,good⟩ := base.sane.inv runs
  obtain ⟨⟨lists',good'⟩,spares,absent⟩ := destroyInv good working live
  obtain ⟨fewer,asserted⟩ := destroyFrame w.io.threads thread
  obtain ⟨leaves,stays⟩ := destroyPlaces good live
  have nobody := readiesThread w.io (.destroy (some thread)) nofun
  by_cases place : w.io.threads.place = .thread thread
  · obtain ⟨back,gone⟩ := leaves place
    exact base.leftRunning runs nofun is place good' spares fewer (asserted (unasserted runs)) back gone nobody
  · have gone := absent place
    have stepped := stepThread w.io (.destroy (some thread)) runs nofun
    rw [is] at stepped
    have watched := watchStays (.thread (.destroy (some thread))) runs
      (fun self running => by rw [stepped, stays place, running]; exact nofun) fun _ => ⟨fun _ => nofun,fun _ _ => nofun⟩
    refine base.leftThread (.ofInv good') spares fewer (asserted (unasserted runs)) (by rw [watched, stepped])
      (fun _ _ => by rw [watched]) (by rw [watched]) (fun q head => ?_) ?_ nobody
    · rw [headOf, gone] at head
      cases head
    · rw [stackOf, Option.map_eq_none_iff.mp gone]
      rfl

theorem retChange (base : Base w.io) (runs : w.io.threads.stop = none) {self : Nat} (place : w.io.threads.place = .thread self)
    (is : PseudoThreads.step w.io.threads .ret = tmainWrapper w.io.threads self) :
    Change w (.thread .ret) (watch w (.thread .ret)) := by
  obtain ⟨lists,good⟩ := base.sane.inv runs
  obtain ⟨⟨lists',good'⟩,spares⟩ := returnInv good place
  have fewer : ∀ event ∈ (tmainWrapper w.io.threads self).timers, event ∈ w.io.threads.timers := by
    intro event member
    have member : event ∈ { w.io.threads.withThreads (dequeueThread w.io.threads.threads self) with goner := some self }.timers :=
      removeTimerFewer member
    dsimp only at member
    rwa [withThreadsTimers] at member
  have asserted : (tmainWrapper w.io.threads self).stop ≠ some .timerSet :=
    removeTimerStop self (withThreadsStop _ (unasserted runs))
  have gone : (tmainWrapper w.io.threads self).goner = some self := removeTimerGoner _ _
  exact base.leftRunning runs nofun is place good' spares fewer asserted rfl gone (readiesThread w.io .ret nofun)

theorem timerChange (base : Base w.io) (runs : w.io.threads.stop = none) (place : w.io.threads.place = .main) (number : Nat) :
    Change w (.thread (.timer number)) (watch w (.thread (.timer number))) := by
  obtain ⟨lists,good⟩ := base.sane.inv runs
  have stepped := stepThread w.io (.timer number) runs nofun
  have nobody := readiesThread w.io (.timer number) nofun
  have watched : watch w (.thread (.timer number)) =
      { w with io := step w.io (.thread (.timer number)), calls := fireCalls w.io.threads.timers number w.calls } := by
    unfold watch
    dsimp only
    rw [runs, if_neg (by simp), place]
  have op : PseudoThreads.step w.io.threads (.timer number) =
      match w.io.threads.timers.find? fun event => event.1 = number with
      | none => w.io.threads
      | some event =>
        timedEvtCb { w.io.threads with timers := w.io.threads.timers.filter fun event => event.1 ≠ number } event.2 :=
    timerStep runs place number
  rw [watched, stepped, op]
  cases found : w.io.threads.timers.find? fun event => event.1 = number with
  | none =>
    have calls : fireCalls w.io.threads.timers number w.calls = w.calls := by
      funext thread
      refine if_neg fun pending => ?_
      exact List.find?_eq_none.mp found (number,thread) pending (decide_eq_true rfl)
    refine .still (base.leaves base.sane (.same _) fun _ _ _ => id) calls rfl (unasserted runs) ?_
    rw [nobody]
    exact nofun
  | some event =>
    obtain ⟨named,_,_,split,-⟩ := List.find?_eq_some_iff_append.mp found
    have named : event.1 = number := of_decide_eq_true named
    have member : event ∈ w.io.threads.timers := by simp [split]
    obtain ⟨⟨lists',good'⟩,spares,ready⟩ := timerInv good place member
    have timers : (timedEvtCb { w.io.threads with timers := w.io.threads.timers.filter fun other => other.1 ≠ event.1 } event.2).timers =
        w.io.threads.timers.filter fun other => other.1 ≠ event.1 := withThreadsTimers _ _
    dsimp only
    rw [← named]
    obtain ⟨item,there,-⟩ := headCell ready
    refine .fired event.1 event.2 member ?_ ready (fun other pending => ?_) (stackLive there) rfl rfl
      (withThreadsStop _ (unasserted runs)) (by rw [named]; exact nobody)
    · refine base.leaves (.ofInv good') spares fun thread _ other pending => ?_
      rw [timers] at pending
      exact List.mem_of_mem_filter pending
    · have pending : (other,event.2) ∈
          (timedEvtCb { w.io.threads with timers := w.io.threads.timers.filter fun other => other.1 ≠ event.1 } event.2).timers := pending
      rw [timers, List.mem_filter] at pending
      have first := (good.core.timed event.1 event.2).mp member
      rw [(good.core.timed other event.2).mp pending.1] at first
      exact of_decide_eq_true pending.2 (Option.some.inj first)

theorem backChange (base : Base w.io) (runs : w.io.threads.stop = none) (place : w.io.threads.place = .back) (outcome : Outcome)
    (memory : Bool) :
    Sane (step w.io (.run outcome memory)).threads ∧ Change w (.run outcome memory) (watch w (.run outcome memory)) := by
  obtain ⟨lists,good⟩ := base.sane.inv runs
  obtain ⟨⟨lists',good'⟩,spares⟩ := backInv good place
  have stepped : step w.io (.run outcome memory) =
      { w.io with threads := runBack w.io.threads, io := stackOf (runBack w.io.threads) w.io.io } := by
    unfold step
    rw [runs, if_neg (by simp), place]
  have watched : watch w (.run outcome memory) = { w with io := step w.io (.run outcome memory) } :=
    watchStays _ runs (fun self running => by rw [place] at running; cases running) fun main => by rw [place] at main; cases main
  have nobody : readies w.io (.run outcome memory) = none := by
    unfold readies
    rw [runs, place]
    rfl
  have timers : (runBack w.io.threads).timers = w.io.threads.timers := by
    unfold runBack
    dsimp only
    split
    · rfl
    split <;> rfl
  have asserted : (runBack w.io.threads).stop ≠ some .timerSet := by
    unfold runBack
    dsimp only
    split
    · exact nofun
    split <;> exact unasserted runs
  rw [watched, stepped]
  refine ⟨.ofInv good',?_⟩
  cases gone : w.io.threads.goner with
  | none =>
    refine .still (base.leaves (.ofInv good') (fun thread _ => spares thread ?_) fun thread _ number pending => timers ▸ pending) rfl rfl
      asserted (by rw [nobody]; exact nofun)
    rw [gone]
    exact nofun
  | some goner =>
    have off := gonerOff good gone
    have out : w.io.io goner = none := by
      cases is : w.io.io goner with
      | none => rfl
      | some ioCall => exact ((base.waits goner ioCall is).elim (off _) (off _)).elim
    refine .left goner (base.leaves (.ofInv good') (fun thread apart => spares thread fun same => apart ?_)
      fun thread _ number pending => timers ▸ pending) (fun number pending => ?_) ?_ (fun _ _ => rfl) rfl asserted nobody
    · rw [gone] at same
      exact (Option.some.inj same).symm
    · have pending : (number,goner) ∈ (runBack w.io.threads).timers := pending
      rw [timers] at pending
      obtain ⟨q,head⟩ := base.sane.listed pending
      exact off q head
    · exact (congrArg (ite _ · none) out).trans (ite_self _)

theorem threadChange (base : Base w.io) (runs : w.io.threads.stop = none) (other : op ≠ .run)
    (valid : PseudoThreads.Valid w.io.threads op) : Change w (.thread op) (watch w (.thread op)) := by
  have sayNobody : (∀ arg, op ≠ .unblock arg) → ∀ thread, readies w.io (.thread op) = some thread → Untimed w.io thread := by
    intro differs
    rw [readiesThread w.io op differs]
    exact nofun
  by_cases back : w.io.threads.place = .back
  · refine base.idle runs other (fun main => by rw [back] at main; cases main) ?_ fun thread named => ?_
    · unfold PseudoThreads.step
      rw [runs, back]
      cases op with
      | run => exact absurd rfl other
      | _ => rfl
    · unfold readies at named
      rw [runs, back] at named
      cases named
  obtain ⟨create,block,unblock,wait,destroy⟩ := opStep runs back
  cases op with
  | run => exact absurd rfl other
  | create memory => exact createChange base runs (create memory)
  | block arg => exact blockChange base runs (block arg)
  | wait msecs memory => exact waitChange base runs (wait msecs memory)
  | unblock arg =>
    cases arg with
    | some thread => exact unblockChange base runs back valid (unblock _)
    | none =>
      refine base.idle runs nofun (fun _ => nofun) (unblock none) fun thread named => ?_
      unfold readies at named
      rw [runs] at named
      cases place : w.io.threads.place <;> rw [place] at named <;> cases named
  | destroy arg =>
    cases arg with
    | some thread => exact destroyChange base runs back valid (destroy _)
    | none => exact base.idle runs nofun (fun _ => nofun) (destroy none) (sayNobody nofun)
  | timer number =>
    cases place : w.io.threads.place with
    | back => exact absurd place back
    | main => exact timerChange base runs place number
    | thread self =>
      refine base.idle runs nofun (fun main => by rw [place] at main; cases main) ?_ (sayNobody nofun)
      unfold PseudoThreads.step
      rw [runs, place]
      rfl
  | ret =>
    cases place : w.io.threads.place with
    | back => exact absurd place back
    | thread self => exact retChange base runs place (retStep runs place)
    | main =>
      refine base.idle runs nofun (fun _ => nofun) ?_ (sayNobody nofun)
      unfold PseudoThreads.step
      rw [runs, place]
      rfl

end

theorem rwChange (base : Base w.io) (runs : w.io.threads.stop = none) (place : w.io.threads.place = .thread self) {fd : Int}
    {write : Bool} {timeout : Nat} {timerMemory memory : Bool}
    (is : step w.io (.rw fd write timeout timerMemory memory) = ptRwInt w.io fd write timeout timerMemory memory) :
    Sane (step w.io (.rw fd write timeout timerMemory memory)).threads ∧
      Change w (.rw fd write timeout timerMemory memory) (watch w (.rw fd write timeout timerMemory memory)) := by
  obtain ⟨lists,good⟩ := base.sane.inv runs
  have nobody : readies w.io (.rw fd write timeout timerMemory memory) = none := by
    unfold readies
    rw [runs, place]
    rfl
  have head : w.io.threads.threads.heads .curr = some self := by rw [good.currHead, place]; rfl
  have stays : (step w.io (.rw fd write timeout timerMemory memory)).threads.place ≠ .back →
      watch w (.rw fd write timeout timerMemory memory) = { w with io := step w.io (.rw fd write timeout timerMemory memory) } :=
    fun working => watchStays _ runs (fun _ _ => working) fun main => by rw [place] at main; cases main
  unfold ptRwInt at is
  rw [head] at is
  dsimp only at is
  by_cases idle : fd < 0 ∨ w.io.threads.evt = false
  · rw [if_pos idle] at is
    rw [stays (by rw [is, place]; exact nofun), is]
    exact ⟨base.sane,.still (leavesOf base.sane base.sane (.same _) (fun _ _ _ => id) fun _ _ => rfl) rfl rfl (unasserted runs)
      (by rw [nobody]; exact nofun)⟩
  rw [if_neg idle] at is
  by_cases set : 0 < timeout ∧ hasTimer w.io.threads self = true
  · rw [if_pos set] at is
    have working : w.io.threads.place ≠ .back := by rw [place]; exact nofun
    rw [stays (by rw [is]; exact working), is]
    obtain ⟨number,pending⟩ := base.sane.hasTimer.mp set.2
    exact ⟨base.sane,.refused self (currentHead good place) (fun untimed => untimed number pending)
      (leavesOf base.sane base.sane (fun _ _ _ => id) (fun _ _ _ => id) fun _ _ => rfl) rfl rfl⟩
  rw [if_neg set] at is
  have unset : 0 < timeout → hasTimer w.io.threads self = false :=
    fun timed => Bool.eq_false_iff.mpr fun has => set ⟨timed,has⟩
  have call : (step w.io (.rw fd write timeout timerMemory memory)).io = Function.update w.io.io self (some ⟨fd.toNat,write,timeout⟩) := by
    rw [is]
    rfl
  have suspends : ∃ timer, Suspends w.io.threads (step w.io (.rw fd write timeout timerMemory memory)).threads self timer := by
    rw [is, blockOn]
    dsimp only
    by_cases timed : 0 < timeout
    · rw [if_pos timed]
      exact ⟨_,suspendsTimed good place (unset timed) timerMemory⟩
    · rw [if_neg timed]
      exact ⟨none,suspendsPlain good place⟩
  obtain ⟨timer,suspends⟩ := suspends
  obtain ⟨lists',good'⟩ := suspends.good
  refine ⟨.ofInv good',Suspends.change base runs suspends (fun ioCall named timed => ?_) (fun thread apart => ?_) nobody⟩
  · rw [call, Function.update_self] at named
    cases named
    exact base.sane.hasNoTimer.mp (unset timed)
  · rw [call, Function.update_of_ne apart]

theorem readyChange (base : Base w.io) (runs : w.io.threads.stop = none) (place : w.io.threads.place = .main) {fd : Nat}
    {event : FdEvent} {keep : Int} (is : step w.io (.ready fd event keep) = fdReady w.io fd event keep) :
    Sane (step w.io (.ready fd event keep)).threads ∧ Change w (.ready fd event keep) (watch w (.ready fd event keep)) := by
  obtain ⟨lists,good⟩ := base.sane.inv runs
  have watched : watch w (.ready fd event keep) = { w with io := step w.io (.ready fd event keep) } :=
    watchStays _ runs (fun self running => by rw [place] at running; cases running) fun _ => ⟨fun _ => nofun,fun _ _ => nofun⟩
  have named : readies w.io (.ready fd event keep) =
      match (dispatch w.io.registry fd event).running,callbackOf w.io.registry fd event with
      | some _,some callback => if callback = fdEvent callback.arg then some callback.arg else none
      | _,_ => none := by
    unfold readies
    rw [runs, place]
    rfl
  have still : (∀ thread, readies w.io (.ready fd event keep) = some thread → Untimed w.io thread) → ∀ registry,
      Sane w.io.threads ∧ Change w (.ready fd event keep) { w with io := { w.io with registry := registry } } :=
    fun nobody registry => ⟨base.sane,.still (leavesOf base.sane base.sane (.same _) (fun _ _ _ => id) fun _ _ => rfl) rfl rfl
      (unasserted runs) nobody⟩
  rw [watched, is]
  unfold fdReady
  dsimp only
  split
  · rename_i run callback running found
    rw [running, found] at named
    dsimp only at named
    by_cases ours : callback = fdEvent callback.arg
    · rw [if_pos ours] at named ⊢
      cases there : itemOf w.io.threads.threads callback.arg with
      | some item =>
        obtain ⟨threads,done,touched,lists',good'⟩ :=
          readied good (by rw [place]; exact nofun) (by rw [place]; exact nofun) good.core there
        rw [done]
        refine ⟨.ofInv good',.readied callback.arg named ?_ touched.head (fun _ => Iff.rfl) rfl rfl rfl (unasserted runs)⟩
        exact leavesOf base.sane (.ofInv good') touched.spares (fun _ _ _ => id) fun _ _ => rfl
      | none =>
        have gone : requeueThread w.io.threads.threads callback.arg .ready = none := by
          rw [requeueThread, dequeueThread, Option.map_eq_none_iff.mp there]
          rfl
        rw [gone]
        refine ⟨base.sane,.still (leavesOf base.sane base.sane (fun _ _ _ => id) (fun _ _ _ => id) fun _ _ => rfl) rfl rfl
          (fun asserted => by cases asserted) fun thread here number pending => ?_⟩
        rw [named] at here
        cases here
        obtain ⟨item,is,-⟩ := Option.bind_eq_some_iff.mp (base.sane.timed.mp pending)
        rw [there] at is
        cases is
    · rw [if_neg ours] at named ⊢
      refine still (fun thread here => ?_) _
      rw [named] at here
      cases here
  · rename_i absent
    refine still (fun thread here => ?_) _
    rw [named] at here
    split at here
    · rename_i run callback running found
      exact absurd found (absent run callback running)
    · cases here

theorem runChange (base : Base w.io) (runs : w.io.threads.stop = none) (place : w.io.threads.place = .main) (outcome : Outcome)
    (memory : Bool) :
    Sane (step w.io (.run outcome memory)).threads ∧ Change w (.run outcome memory) (watch w (.run outcome memory)) := by
  obtain ⟨lists,good⟩ := base.sane.inv runs
  have nobody : readies w.io (.run outcome memory) = none := by
    unfold readies
    rw [runs, place]
    rfl
  have stepped : step w.io (.run outcome memory) = runThread w.io outcome memory := by
    unfold step
    rw [runs, if_neg (by simp), place]
  have watched : watch w (.run outcome memory) = resumeCall w (runThread w.io outcome memory) outcome := by
    unfold watch
    dsimp only
    rw [stepped, runs, if_neg (by simp), place]
  rw [watched, stepped]
  unfold runThread resumeCall
  cases head : w.io.threads.threads.heads .ready with
  | none =>
    exact ⟨base.sane,.still (leavesOf base.sane base.sane (.same _) (fun _ _ _ => id) fun _ _ => rfl) rfl rfl (unasserted runs)
      (by rw [nobody]; exact nofun)⟩
  | some next =>
    obtain ⟨ready,⟨lists',good'⟩,spares,current,timed⟩ := runInv good place head
    have timers : (runNext w.io.threads).timers = w.io.threads.timers := by
      unfold runNext
      rw [head]
      exact withThreadsTimers _ _
    have calm : (runNext w.io.threads).stop = none := by
      have known := good'.fine
      unfold runNext at known ⊢
      rw [head] at known ⊢
      dsimp only at known ⊢
      cases moved : requeueThread w.io.threads.threads next .curr with
      | none =>
        rw [moved] at known
        exact absurd rfl known.2.1
      | some threads => exact runs
    have untimed : hasTimer (runNext w.io.threads) next = false ↔ Untimed w.io next := by
      rw [timed]
      exact base.sane.hasNoTimer
    dsimp only
    cases is : w.io.io next with
    | none =>
      refine ⟨.ofInv good',.resumed next ready is ?_ (fun number => by rw [timers]) is rfl rfl (unasserted calm) nobody⟩
      exact leavesOf base.sane (.ofInv good') spares (fun thread _ number pending => timers ▸ pending) fun _ _ => rfl
    | some ioCall =>
      dsimp only
      unfold resumeResult resumeIo
      by_cases late : 0 < ioCall.timeout ∧ hasTimer (runNext w.io.threads) next = false
      · rw [if_pos late, if_pos late]
        refine ⟨.ofInv good',.returned next ioCall .timedOut is (iff_of_true rfl ⟨late.1,untimed.mp late.2⟩) ?_ (fun number => ?_)
          (Function.update_self _ _ _) rfl rfl (unasserted calm) nobody⟩
        · exact leavesOf base.sane (.ofInv good') spares (fun thread _ number pending => timers ▸ pending)
            fun thread apart => Function.update_of_ne apart _ _
        · exact timers ▸ untimed.mp late.2 number
      rw [if_neg late, if_neg late]
      dsimp only
      obtain ⟨item,there,-⟩ := good'.currentItem current
      obtain ⟨threads,timers',removed,core,touched,-⟩ := timerRemoved good'.core there
      have none_ := good'.waiting (by rw [current]; exact nofun)
      have cleared : PseudoThreads.Inv { runNext w.io.threads with threads := threads, timers := timers' } lists' :=
        ⟨core,good'.current,good'.waiting,PseudoThreads.nobodyGone none_,good'.fine⟩
      have spares' : Spares w.io.threads { runNext w.io.threads with threads := threads, timers := timers' } (· = next) :=
        fun thread apart item is => (touched.others thread apart).trans (spares thread apart item is)
      have fewer : ∀ number thread, (number,thread) ∈ timers' → (number,thread) ∈ w.io.threads.timers := by
        intro number thread pending
        have kept : (number,thread) ∈ (removeTimer (runNext w.io.threads) next).timers := by
          rw [removed]
          exact pending
        exact timers ▸ removeTimerFewer kept
      have out : ∀ number, (number,next) ∉ timers' := by
        intro number pending
        rw [core.timed, touched.own] at pending
        cases pending
      rw [removed]
      cases outcome with
      | done =>
        refine ⟨.ofInv cleared,.returned next ioCall .finished is ?_ ?_ out (Function.update_self _ _ _) rfl rfl (unasserted calm) nobody⟩
        · exact iff_of_false nofun fun both => late ⟨both.1,untimed.mpr both.2⟩
        · exact leavesOf base.sane (.ofInv cleared) spares' (fun thread _ number => fewer number thread)
            fun thread apart => Function.update_of_ne apart _ _
      | wouldBlock =>
        obtain ⟨after,same,⟨lists'',good''⟩,spares'',blocked,timers'',-,-,stop⟩ := 
          suspended good' current (rfl : ({ runNext w.io.threads with threads := threads, timers := timers' } : State) = _) core touched
        unfold blockOn
        dsimp only
        rw [same]
        have both : Spares w.io.threads after (· = next) :=
          fun thread apart item is => spares'' thread apart item (spares thread apart item is)
        refine ⟨.ofInv good'',.retried next ioCall is (fun positive none_ => late ⟨positive,untimed.mpr none_⟩) ?_ blocked
          (fun number => by rw [timers'']; exact out number) (Function.update_self _ _ _) rfl rfl
          (by rw [stop]; exact unasserted calm) nobody⟩
        refine leavesOf base.sane (.ofInv good'') both (fun thread _ number pending => fewer number thread ?_)
          fun thread apart => Function.update_of_ne apart _ _
        rwa [timers''] at pending

theorem Base.elsewhere (base : Base w.io) (runs : w.io.threads.stop = none) (same : step w.io act = w.io)
    (quiet : w.io.threads.place = .main → (∀ number, act ≠ .thread (.timer number)) ∧ ∀ outcome memory, act ≠ .run outcome memory)
    (nobody : readies w.io act = none) : Sane (step w.io act).threads ∧ Change w act (watch w act) := by
  have stays : ∀ self, w.io.threads.place = .thread self → (step w.io act).threads.place ≠ .back := by
    intro self place
    rw [same, place]
    exact nofun
  rw [watchStays act runs stays quiet, same]
  exact ⟨base.sane,.still (leavesOf base.sane base.sane (.same _) (fun _ _ _ => id) fun _ _ => rfl) rfl rfl (unasserted runs)
    (by rw [nobody]; exact nofun)⟩

theorem watchChange (base : Base w.io) (runs : w.io.threads.stop = none) (valid : Valid w.io act) :
    Sane (step w.io act).threads ∧ Change w act (watch w act) := by
  cases act with
  | thread op =>
    by_cases run : op = .run
    · subst run
      refine base.elsewhere runs ?_ (fun _ => ⟨nofun,fun _ _ => nofun⟩) (readiesThread w.io .run nofun)
      unfold step
      split <;> rfl
    · obtain ⟨lists,good⟩ := base.sane.inv runs
      obtain ⟨lists',good'⟩ := PseudoThreads.stepInv w.io.threads op ⟨lists,good⟩ valid
      rw [stepThread w.io op runs run]
      exact ⟨.ofInv good',threadChange base runs run valid⟩
  | run outcome memory =>
    cases place : w.io.threads.place with
    | main => exact runChange base runs place outcome memory
    | back => exact backChange base runs place outcome memory
    | thread self =>
      refine base.elsewhere runs ?_ (fun main => by rw [place] at main; cases main) ?_
      · unfold step
        rw [runs, if_neg (by simp), place]
      · unfold readies
        rw [runs, if_neg (by simp), place]
  | rw fd write timeout timerMemory memory =>
    have nobody : readies w.io (.rw fd write timeout timerMemory memory) = none := by
      unfold readies
      rw [runs, if_neg (by simp)]
      cases w.io.threads.place <;> rfl
    cases place : w.io.threads.place with
    | thread self => exact rwChange base runs place (by unfold step; rw [runs, if_neg (by simp), place])
    | _ =>
      refine base.elsewhere runs ?_ (fun _ => ⟨fun _ => nofun,fun _ _ => nofun⟩) nobody
      unfold step
      rw [runs, if_neg (by simp), place]
  | ready fd event keep =>
    cases place : w.io.threads.place with
    | main => exact readyChange base runs place (by unfold step; rw [runs, if_neg (by simp), place])
    | _ =>
      refine base.elsewhere runs ?_ (fun main => by rw [place] at main; cases main) ?_
      · unfold step
        rw [runs, if_neg (by simp), place]
      · unfold readies
        rw [runs, if_neg (by simp), place]

theorem Base.watch (base : Base w.io) (valid : Valid w.io act) : Base (watch w act).io := by
  cases stopped : w.io.threads.stop with
  | some why =>
    rw [watchIo, stepStopped act (by rw [stopped]; rfl)]
    exact base
  | none =>
    obtain ⟨sane,change⟩ := watchChange base stopped valid
    refine ⟨by rw [watchIo]; exact sane,fun thread ioCall is => ?_⟩
    have kept : ∀ {who : Nat → Prop}, Leaves w.io (Calls.watch w act).io who → ¬who thread →
        headOf (Calls.watch w act).io.threads.threads thread = some .blocked ∨
        headOf (Calls.watch w act).io.threads.threads thread = some .ready := by
      intro who leaves other
      rw [leaves.io thread other] at is
      exact (base.waits thread ioCall is).imp (leaves.heads thread other _) (leaves.heads thread other _)
    have touched : ∀ {who : Nat}, Leaves w.io (Calls.watch w act).io (· = who) →
        ((Calls.watch w act).io.io who = none ∨ headOf (Calls.watch w act).io.threads.threads who = some .blocked ∨
          headOf (Calls.watch w act).io.threads.threads who = some .ready) →
        headOf (Calls.watch w act).io.threads.threads thread = some .blocked ∨
        headOf (Calls.watch w act).io.threads.threads thread = some .ready := by
      intro who leaves own
      by_cases same : thread = who
      · rw [same] at is ⊢
        refine own.resolve_left fun none_ => ?_
        rw [none_] at is
        cases is
      · exact kept leaves same
    cases change with
    | still leaves => exact kept leaves id
    | refused _ _ _ leaves => exact kept leaves id
    | readied _ _ leaves head => exact touched leaves (.inr (.inr head))
    | fired _ _ _ leaves head => exact touched leaves (.inr (.inr head))
    | began _ _ _ leaves head => exact touched leaves (.inr (.inl head))
    | left _ leaves _ io => exact touched leaves (.inl io)
    | resumed _ _ _ leaves _ io => exact touched leaves (.inl io)
    | returned _ _ _ _ _ leaves _ io => exact touched leaves (.inl io)
    | retried _ _ _ _ leaves head => exact touched leaves (.inr (.inl head))

end

theorem initBase (evt : Bool) (registry : Registry) : Base (Watched.init evt registry).io :=
  ⟨.ofInv (PseudoThreads.initInv evt),nofun⟩

end LibProc.ThreadIo.Calls
