import LibProc.Cmd

/-! Each request that waits or is being answered owns its timer, and every scheduled event is the
timer of such a request. That is kept by every step that removes no tied timer, whatever the
timeouts, the mallocs and the packets are; the properties of requests rest on it. -/
namespace LibProc.Requests
open PriorityQueue Scheduler SchedRemove XdrBytes Xdr Ipc

def Untied (p : Process) : Running → Prop
  | .response s _ => ∀ e ∈ (p.states s).toEvt, ¬ TiedWithParent p.ctx e
  | _ => True

instance (p : Process) : ∀ r, Decidable (Untied p r)
  | .nothing => inferInstanceAs (Decidable True)
  | .response .. => inferInstanceAs (Decidable (∀ e ∈ _, _))
  | .timeout .. => inferInstanceAs (Decidable True)

def TimerUntied (p : Process) (s : RequestId) : Prop := ∀ e ∈ (p.states s).toEvt, ¬ TiedWithParent p.ctx e

instance (p : Process) (s : RequestId) : Decidable (TimerUntied p s) := inferInstanceAs (Decidable (∀ e ∈ _, _))

/- The step removes no timer, or one that does not tie: after the callback of an answered
request, or at once where a packet for a cooked callback does not decode. -/
def RemovesUntied (p : Process) : Action → Prop
  | .command _ => True
  | .packet env data src => ∀ s ∈ answered p env data src,
      (p.states s).cbType = .cooked → decodes env data = false → TimerUntied p s
  | .fire _ => True
  | .ret _ => Untied p p.running

instance (p : Process) : ∀ a, Decidable (RemovesUntied p a)
  | .command .. => inferInstanceAs (Decidable True)
  | .packet .. => inferInstanceAs (Decidable (∀ s ∈ _, _))
  | .fire .. => inferInstanceAs (Decidable True)
  | .ret .. => inferInstanceAs (Decidable (Untied _ _))

/- What holds between any two steps. A request that waits or is being answered owns its
timer, and every scheduled event is the timer of such a request. -/
structure Matching (p : Process) : Prop where
  ready : Ready p.ctx
  allocated : Allocated p.ctx.queue
  nodup : p.resp.Nodup
  bound : ∀ s ∈ p.resp, s < p.fresh
  timed : ∀ s e, (s ∈ p.resp ∨ ∃ r, p.running = .response s r) → (p.states s).toEvt = some e →
    Queued p.ctx.queue e ∧ (p.ctx.events e).call = s
  owned : ∀ e, Queued p.ctx.queue e → (p.states (p.ctx.events e).call).toEvt = some e ∧
    ((p.ctx.events e).call ∈ p.resp ∨ ∃ r, p.running = .response (p.ctx.events e).call r)
  answering : ∀ s r, p.running = .response s r → s < p.fresh ∧ s ∉ p.resp
  expiring : ∀ s e t, p.running = .timeout s e t → s < p.fresh ∧ s ∉ p.resp

theorem startMatching {hashSize : Nat} (events : Memory RequestId) (d dbg : Nat → EventId) (states : RequestId → ResponseCb)
    (fits : 8 * (hashSize + 1) < 2 ^ 64) : Matching (start hashSize events d dbg states) where
  ready := initReady hashSize events d dbg
  allocated := initAllocated d fits
  nodup := List.nodup_nil
  bound := by simp [start]
  timed := by simp [start]
  owned e queued := by
    obtain ⟨i,first,last,_⟩ := queued
    simp only [start,evtInitWithSize,init] at last
    omega
  answering := by simp [start]
  expiring := by simp [start]

theorem Matching.congr {p q : Process} (matching : Matching p) (ctx : q.ctx = p.ctx) (states : q.states = p.states)
    (fresh : q.fresh = p.fresh) (resp : q.resp = p.resp) (running : q.running = p.running) : Matching q := by
  refine ⟨?_,?_,?_,?_,?_,?_,?_,?_⟩ <;> simp only [ctx,states,fresh,resp,running]
  · exact matching.ready
  · exact matching.allocated
  · exact matching.nodup
  · exact matching.bound
  · exact matching.timed
  · exact matching.owned
  · exact matching.answering
  · exact matching.expiring

theorem Matching.owner {p : Process} (matching : Matching p) {e : EventId} (queued : Queued p.ctx.queue e) :
    (p.ctx.events e).call < p.fresh := by
  rcases (matching.owned e queued).2 with mem | ⟨r,running⟩
  · exact matching.bound _ mem
  · exact (matching.answering _ r running).1

theorem Matching.waits {p : Process} (matching : Matching p) (idle : p.running.isNothing = true) {e : EventId}
    (queued : Queued p.ctx.queue e) : (p.ctx.events e).call ∈ p.resp := by
  rcases (matching.owned e queued).2 with mem | ⟨r,running⟩
  · exact mem
  · rw [running] at idle
    cases idle

@[simp] theorem setToEvtOther {p : Process} {s x : RequestId} {evt : Option EventId} (ne : x ≠ s) :
    (setToEvt p s evt).states x = p.states x := by
  simp [setToEvt,ne]

@[simp] theorem setToEvtSelf {p : Process} {s : RequestId} {evt : Option EventId} :
    ((setToEvt p s evt).states s).toEvt = evt := by
  simp [setToEvt]

structure Asked (p q : Process) (r : Option EventId) : Prop where
  resp : q.resp = p.fresh :: p.resp
  fresh : q.fresh = p.fresh + 1
  others : ∀ s, s ≠ p.fresh → q.states s = p.states s
  self : (q.states p.fresh).toEvt = r
  running : q.running = p.running
  called : q.called = p.called
  ready : Ready q.ctx
  allocated : Allocated q.ctx.queue
  members : ∀ e, Queued q.ctx.queue e ↔ r = some e ∨ Queued p.ctx.queue e
  apart : ∀ e, r = some e → ¬ Queued p.ctx.queue e
  call : ∀ e, Queued p.ctx.queue e → (q.ctx.events e).call = (p.ctx.events e).call
  new : ∀ e, r = some e → (q.ctx.events e).call = p.fresh

theorem addAsked {p : Process} {c : Call} (id : BitVec 32) (ready : Ready p.ctx) (allocated : Allocated p.ctx.queue)
    (malloc : c.malloc = true) : ∃ r, Asked p (cmdAddResponseCb p id c) r := by
  simp only [cmdAddResponseCb,malloc,if_true]
  by_cases never : c.timeout = 0
  · rw [if_pos never]
    refine ⟨none,rfl,rfl,?_,by simp,rfl,rfl,ready,allocated,by simp,by simp,fun _ _ => rfl,by simp⟩
    intro s ne
    simp [ne]
  · rw [if_neg never]
    let time := evtMs2tv c.timeout.toInt
    have added : Added p.ctx (evtSchedAdd p.ctx c.evtMalloc c.grow c.now time p.fresh).2
        (evtSchedAdd p.ctx c.evtMalloc c.grow c.now time p.fresh).1 (newSchedCB c.now time time p.fresh) :=
      addSpec ready c.evtMalloc c.grow c.now time time p.fresh
    refine ⟨_,rfl,rfl,?_,setToEvtSelf,rfl,rfl,added.ready,
      addAllocated allocated ⟨c.evtMalloc,c.grow,c.now,time,p.fresh⟩,added.members,?_,?_,?_⟩
    · intro s ne
      rw [setToEvtOther ne]
      simp [ne]
    · intro e same queued
      have early := ready.bound e queued
      rcases added.result with none | new
      · rw [same] at none
        cases none
      · rw [same] at new
        cases new
        exact lt_irrefl _ early
    · intro e queued
      exact sameField (added.old e (ready.bound e queued)) ScheduleCB.call fun _ => rfl
    · intro e same
      rcases added.result with none | new
      · rw [same] at none
        cases none
      · rw [same] at new
        cases new
        exact sameField (b := newSchedCB c.now time time p.fresh) (added.new same) ScheduleCB.call fun _ => rfl

theorem Asked.matching {p q : Process} {r : Option EventId} (asked : Asked p q r) (matching : Matching p) : Matching q := by
  refine ⟨asked.ready,asked.allocated,?_,?_,?_,?_,?_,?_⟩
  · rw [asked.resp]
    exact List.nodup_cons.mpr ⟨fun mem => lt_irrefl _ (matching.bound _ mem),matching.nodup⟩
  · rw [asked.resp, asked.fresh]
    intro s mem
    rcases List.mem_cons.mp mem with rfl | old
    · exact Nat.lt_succ_self _
    · exact (matching.bound s old).trans (Nat.lt_succ_self _)
  · rw [asked.resp, asked.running]
    intro s e holder timer
    by_cases new : s = p.fresh
    · subst new
      rw [asked.self] at timer
      exact ⟨(asked.members e).mpr (.inl timer),asked.new e timer⟩
    · have old : s ∈ p.resp ∨ ∃ r, p.running = .response s r := by
        rcases holder with mem | running
        · exact .inl ((List.mem_cons.mp mem).resolve_left new)
        · exact .inr running
      rw [asked.others s new] at timer
      obtain ⟨queued,call⟩ := matching.timed s e old timer
      exact ⟨(asked.members e).mpr (.inr queued),(asked.call e queued).trans call⟩
  · intro e queued
    rw [asked.resp, asked.running]
    rcases (asked.members e).mp queued with new | old
    · rw [asked.new e new, asked.self]
      exact ⟨new,.inl List.mem_cons_self⟩
    · rw [asked.call e old, asked.others _ (matching.owner old).ne]
      obtain ⟨timer,holder⟩ := matching.owned e old
      exact ⟨timer,holder.imp_left (List.mem_cons_of_mem _)⟩
  · rw [asked.running, asked.resp, asked.fresh]
    intro s r found
    obtain ⟨born,gone⟩ := matching.answering s r found
    exact ⟨born.trans (Nat.lt_succ_self _),by simp [gone,born.ne]⟩
  · rw [asked.running, asked.resp, asked.fresh]
    intro s e t found
    obtain ⟨born,gone⟩ := matching.expiring s e t found
    exact ⟨born.trans (Nat.lt_succ_self _),by simp [gone,born.ne]⟩

structure Same (p q : Process) : Prop where
  ctx : q.ctx = p.ctx
  states : q.states = p.states
  fresh : q.fresh = p.fresh
  resp : q.resp = p.resp
  running : q.running = p.running
  called : q.called = p.called

theorem Matching.same {p q : Process} (matching : Matching p) (same : Same p q) : Matching q :=
  matching.congr same.ctx same.states same.fresh same.resp same.running

theorem commandCases {p : Process} (matching : Matching p) (c : Call) :
    (Same p (ipcCommand p c) ∧
      ((ipcCommand p c).nextCmdRef = p.nextCmdRef ∨ (ipcCommand p c).nextCmdRef = p.nextCmdRef + 1)) ∨
    ∃ r, Asked p (ipcCommand p c) r ∧ (ipcCommand p c).nextCmdRef = p.nextCmdRef + 1 ∧
      ((ipcCommand p c).states p.fresh).id = p.nextCmdRef := by
  simp only [ipcCommand]
  cases out : ipcCommandInternal c.env c.fuel c.heap p.nextCmdRef true c.command c.paramType c.params c.dest with
  | error stop => exact .inl ⟨⟨rfl,rfl,rfl,rfl,rfl,rfl⟩,.inl rfl⟩
  | ok sent =>
    obtain ⟨handed,next⟩ := sent
    have counted : next = p.nextCmdRef + 1 := by
      simp only [ipcCommandInternal] at out
      cases retried : growAndRetry c.env c.fuel c.heap commandFields
          [.word c.command,.word p.nextCmdRef,.union c.paramType c.params] with
      | error stop =>
        rw [retried] at out
        cases out
      | ok sent =>
        rw [retried] at out
        cases out
        rfl
    subst counted
    cases handed with
    | none => exact .inl ⟨⟨rfl,rfl,rfl,rfl,rfl,rfl⟩,.inr rfl⟩
    | some packet =>
      simp only
      by_cases malloc : c.malloc = true
      · obtain ⟨r,asked⟩ := addAsked (p := {p with nextCmdRef := p.nextCmdRef + 1}) (c := c) p.nextCmdRef
          matching.ready matching.allocated malloc
        refine .inr ⟨r,⟨asked.resp,asked.fresh,asked.others,asked.self,asked.running,asked.called,asked.ready,
          asked.allocated,asked.members,asked.apart,asked.call,asked.new⟩,?_,?_⟩
        · simp only [cmdAddResponseCb,malloc,if_true]
          split <;> rfl
        · simp only [cmdAddResponseCb,malloc,if_true]
          split <;> simp [setToEvt]
      · simp only [cmdAddResponseCb]
        rw [if_neg malloc]
        exact .inl ⟨⟨rfl,rfl,rfl,rfl,rfl,rfl⟩,.inr rfl⟩

theorem answerMatching {p : Process} {s : RequestId} (matching : Matching p) (idle : p.running.isNothing = true)
    (mem : s ∈ p.resp) (log : List (RequestId × Bool)) (resp : Option (StructDefinition × Val)) :
    Matching {p with resp := p.resp.erase s, called := log, running := .response s resp} := by
  have memIff : ∀ {x}, x ∈ p.resp.erase s ↔ x ≠ s ∧ x ∈ p.resp := matching.nodup.mem_erase_iff
  refine ⟨matching.ready,matching.allocated,matching.nodup.erase s,?_,?_,?_,?_,?_⟩
  · intro x there
    exact matching.bound x (memIff.mp there).2
  · intro x e holder timer
    refine matching.timed x e (.inl ?_) timer
    rcases holder with there | ⟨r,running⟩
    · exact (memIff.mp there).2
    · cases running
      exact mem
  · intro e queued
    refine ⟨(matching.owned e queued).1,?_⟩
    have there := matching.waits idle queued
    by_cases same : (p.ctx.events e).call = s
    · exact .inr ⟨resp,by rw [same]⟩
    · exact .inl (memIff.mpr ⟨same,there⟩)
  · intro x r running
    cases running
    exact ⟨matching.bound s mem,fun there => (memIff.mp there).1 rfl⟩
  · intro x e t running
    cases running

theorem removeMatching {p : Process} {s : RequestId} {r : Option (StructDefinition × Val)} (matching : Matching p)
    (running : p.running = .response s r) (untied : TimerUntied p s) : Matching (removeTimer p s) := by
  obtain ⟨born,gone⟩ := matching.answering s r running
  have others : ∀ x, x ∈ p.resp → x ≠ s := fun x mem same => gone (same ▸ mem)
  simp only [removeTimer]
  cases timer : (p.states s).toEvt with
  | none =>
    refine ⟨matching.ready,matching.allocated,matching.nodup,matching.bound,?_,?_,?_,?_⟩
    · rintro x e (mem | ⟨r',impossible⟩)
      · exact matching.timed x e (.inl mem)
      · cases impossible
    · intro e queued
      obtain ⟨own,mem | ⟨r',again⟩⟩ := matching.owned e queued
      · exact ⟨own,.inl mem⟩
      · rw [running] at again
        cases again
        rw [timer] at own
        cases own
    · intro x r' impossible
      cases impossible
    · intro x e t impossible
      cases impossible
  | some e =>
    obtain ⟨queued,call⟩ := matching.timed s e (.inr ⟨r,running⟩) timer
    obtain ⟨alone,ready,bodies⟩ := removeUntied matching.ready matching.allocated queued (untied e timer)
    obtain ⟨queue,_⟩ :=
      schedRemoveQueued (matching.ready.idle e queued) (slotInMemory matching.ready matching.allocated queued)
    have allocated : Allocated (evtSchedRemove p.ctx e).2.queue := by
      rw [queue]
      exact removeAllocated (s := (p.ctx.events,p.ctx.queue)) matching.allocated
    have same : ∀ x, x ≠ e → ((evtSchedRemove p.ctx e).2.events x).call = (p.ctx.events x).call := fun x ne =>
      sameField (bodies x ne) ScheduleCB.call fun _ => rfl
    refine ⟨ready,allocated,matching.nodup,matching.bound,?_,?_,?_,?_⟩
    · rintro x e' (mem | ⟨r',impossible⟩) timer'
      · rw [setToEvtOther (others x mem)] at timer'
        obtain ⟨there,owner⟩ := matching.timed x e' (.inl mem) timer'
        have other : e' ≠ e := by
          rintro rfl
          exact others x mem (owner.symm.trans call)
        exact ⟨(alone.members e').mpr ⟨there,other⟩,(same e' other).trans owner⟩
      · cases impossible
    · intro e' there
      obtain ⟨old,other⟩ := (alone.members e').mp there
      obtain ⟨own,holder⟩ := matching.owned e' old
      have ne : (p.ctx.events e').call ≠ s := by
        intro here
        rw [here, timer] at own
        exact other (Option.some.inj own).symm
      change ((setToEvt _ s none).states ((evtSchedRemove p.ctx e).2.events e').call).toEvt = some e' ∧
        (((evtSchedRemove p.ctx e).2.events e').call ∈ p.resp ∨ _)
      rw [same e' other, setToEvtOther ne]
      refine ⟨own,.inl ?_⟩
      rcases holder with mem | ⟨r',again⟩
      · exact mem
      · rw [running] at again
        cases again
        exact (ne rfl).elim
    · intro x r' impossible
      cases impossible
    · intro x e' t impossible
      cases impossible

structure SameNumbers (p q : Process) : Prop where
  fresh : q.fresh = p.fresh
  next : q.nextCmdRef = p.nextCmdRef
  id : ∀ x, (q.states x).id = (p.states x).id

@[simp] theorem setToEvtId (p : Process) (s : RequestId) (evt : Option EventId) (x : RequestId) :
    ((setToEvt p s evt).states x).id = (p.states x).id := by
  by_cases same : x = s
  · subst same
    simp [setToEvt]
  · rw [setToEvtOther same]

theorem removeTimerRunning {p : Process} {resp : List RequestId} {log : List (RequestId × Bool)} (r : Running)
    (s : RequestId) : removeTimer {p with resp := resp, called := log, running := r} s =
      removeTimer {p with resp := resp, called := log} s := by
  simp only [removeTimer]

theorem removeTimerKeeps (p : Process) (s : RequestId) :
    (removeTimer p s).resp = p.resp ∧ (removeTimer p s).called = p.called ∧ SameNumbers p (removeTimer p s) := by
  simp only [removeTimer]
  cases (p.states s).toEvt with
  | none => exact ⟨rfl,rfl,rfl,rfl,fun _ => rfl⟩
  | some e => exact ⟨rfl,rfl,rfl,rfl,fun x => setToEvtId _ s none x⟩

structure Notified (p q : Process) (s : RequestId) : Prop where
  mem : s ∈ p.resp
  resp : q.resp = p.resp.erase s
  fresh : q.fresh = p.fresh
  states : q.states = p.states
  called : ∃ flag, q.called = (s,flag) :: p.called

theorem beginQueue {A : Type} (ctx : EventState A) (e : EventId) (stepping : Bool) :
    (beginTimedEvent ctx e stepping).2.queue = ctx.queue := by
  simp only [beginTimedEvent]
  split
  · split <;> rfl
  · split <;> rfl

theorem fireAllocated {A : Type} {ctx : EventState A} (allocated : Allocated ctx.queue) (now : Timeval) :
    Allocated (fireTimedEvent ctx now).2.queue := by
  simp only [fireTimedEvent]
  split
  · exact allocated
  · split
    · exact allocated
    · rw [beginQueue]
      exact popAllocated (s := (ctx.events,ctx.queue)) allocated

theorem fireNotifies {p : Process} (matching : Matching p) (idle : p.running.isNothing = true) (now : Timeval) :
    fire p now = p ∨ ∃ e, peek p.ctx.queue = some e ∧ (p.ctx.events e).nextAwake ≤ now ∧
      (p.states (p.ctx.events e).call).toEvt = some e ∧ Notified p (fire p now) (p.ctx.events e).call ∧
      (fire p now).nextCmdRef = p.nextCmdRef ∧ (∀ x r, (fire p now).running ≠ .response x r) ∧ Matching (fire p now) := by
  have allocated := fireAllocated matching.allocated now
  rcases fireSpec matching.ready now with ⟨same,_⟩ | ⟨head,ctx,same,found,due,taken⟩
  · left
    simp only [fire,same]
  · right
    refine ⟨head,found,due,?_⟩
    simp only [fire,same]
    rw [same] at allocated
    have call : ∀ e, (ctx.events e).call = (p.ctx.events e).call := by
      intro e
      by_cases here : e = head
      · subst here
        exact sameField (b := entered (p.ctx.events e)) taken.self ScheduleCB.call fun _ => rfl
      · exact sameField (taken.others e here) ScheduleCB.call fun _ => rfl
    have queued := (peekQueued matching.ready.sound found).2.2
    have timer := (matching.owned head queued).1
    have mem := matching.waits idle queued
    have memIff : ∀ {x}, x ∈ p.resp.erase (p.ctx.events head).call ↔ x ≠ (p.ctx.events head).call ∧ x ∈ p.resp :=
      matching.nodup.mem_erase_iff
    simp only [responseTimeoutCb,call]
    refine ⟨timer,⟨mem,rfl,rfl,rfl,true,rfl⟩,rfl,by simp [callBack],taken.ready,allocated,matching.nodup.erase _,
      ?_,?_,?_,?_,?_⟩
    · intro x there
      exact matching.bound x (memIff.mp there).2
    · rintro x e (there | ⟨r,impossible⟩) own
      · obtain ⟨old,owner⟩ := matching.timed x e (.inl (memIff.mp there).2) own
        refine ⟨(taken.members e).mpr ⟨old,?_⟩,(call e).trans owner⟩
        rintro rfl
        exact (memIff.mp there).1 owner.symm
      · cases impossible
    · intro e there
      obtain ⟨old,other⟩ := (taken.members e).mp there
      have own := (matching.owned e old).1
      change (p.states (ctx.events e).call).toEvt = some e ∧ ((ctx.events e).call ∈ _ ∨ _)
      rw [call]
      refine ⟨own,.inl (memIff.mpr ⟨fun both => other ?_,matching.waits idle old⟩)⟩
      rw [both, timer] at own
      exact (Option.some.inj own).symm
    · intro x r impossible
      cases impossible
    · intro x e t running
      cases running
      exact ⟨matching.bound _ mem,fun there => (memIff.mp there).1 rfl⟩

theorem expireMatching {p : Process} {s : RequestId} {e : EventId} {curTime : Timeval} (matching : Matching p)
    (running : p.running = .timeout s e curTime) :
    Matching (setToEvt {p with ctx := finishTimedEvent p.ctx e curTime false false, running := .nothing} s none) := by
  obtain ⟨born,gone⟩ := matching.expiring s e curTime running
  obtain ⟨events,queue,_,ready⟩ := dropSpec matching.ready curTime false
  have other : ∀ x ∈ p.resp, x ≠ s := fun x mem here => gone (here ▸ mem)
  refine ⟨ready,?_,matching.nodup,matching.bound,?_,?_,?_,?_⟩
  · change Allocated (finishTimedEvent p.ctx e curTime false false).queue
    rw [queue]
    exact matching.allocated
  · rintro x e' (mem | ⟨r,impossible⟩) timer
    · rw [setToEvtOther (other x mem)] at timer
      change Queued (finishTimedEvent p.ctx e curTime false false).queue e' ∧
        ((finishTimedEvent p.ctx e curTime false false).events e').call = _
      rw [queue, events]
      exact matching.timed x e' (.inl mem) timer
    · cases impossible
  · intro e' there
    change Queued (finishTimedEvent p.ctx e curTime false false).queue e' at there
    rw [queue] at there
    obtain ⟨own,mem | ⟨r,again⟩⟩ := matching.owned e' there
    · change ((setToEvt _ s none).states ((finishTimedEvent p.ctx e curTime false false).events e').call).toEvt = some e' ∧
        (((finishTimedEvent p.ctx e curTime false false).events e').call ∈ p.resp ∨ _)
      rw [events, setToEvtOther (other _ mem)]
      exact ⟨own,.inl mem⟩
    · rw [running] at again
      cases again
  · intro x r impossible
    cases impossible
  · intro x e' t impossible
    cases impossible

theorem resumeKeeps {p : Process} (matching : Matching p) (untied : Untied p p.running) (env : Env) :
    (resume p env).resp = p.resp ∧ (resume p env).called = p.called ∧ SameNumbers p (resume p env) ∧
      Matching (resume p env) := by
  simp only [resume]
  cases running : p.running with
  | nothing => exact ⟨rfl,rfl,⟨rfl,rfl,fun _ => rfl⟩,matching⟩
  | response s resp =>
    rw [running] at untied
    obtain ⟨list,called,numbers⟩ := removeTimerKeeps p s
    cases resp with
    | none => exact ⟨list,called,numbers,removeMatching matching running untied⟩
    | some pair =>
      obtain ⟨d,v⟩ := pair
      simp only
      cases structFreeDeallocator env d.fields v with
      | error stop => exact ⟨rfl,rfl,⟨rfl,rfl,fun _ => rfl⟩,matching.congr rfl rfl rfl rfl running.symm⟩
      | ok _ => exact ⟨list,called,numbers,removeMatching matching running untied⟩
  | timeout s e curTime =>
    exact ⟨rfl,rfl,⟨rfl,rfl,fun x => setToEvtId _ s none x⟩,expireMatching matching running⟩

end LibProc.Requests
