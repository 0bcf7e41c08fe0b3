import LibProc.RequestTimers

/-! No request is forgotten. A request that waits has its timer ahead, and one that does not
wait any more was called back, once, in every run in which timers get their memory, answers
decode and no removal leaves a freed event behind. -/
namespace LibProc.Requests
open PriorityQueue Scheduler SchedRemove XdrBytes Xdr Ipc Runs

def Legal (p : Process) : Action → Prop
  | .command c => p.alive = true ∧ c.timeout ≠ 0
  | .packet .. => p.alive = true ∧ p.running.isNothing = true
  | .fire _ => p.alive = true ∧ p.running.isNothing = true
  | .ret _ => p.alive = true ∧ p.running.isNothing = false

instance (p : Process) : ∀ a, Decidable (Legal p a)
  | .command .. => inferInstanceAs (Decidable (_ ∧ _))
  | .packet .. => inferInstanceAs (Decidable (_ ∧ _))
  | .fire .. => inferInstanceAs (Decidable (_ ∧ _))
  | .ret .. => inferInstanceAs (Decidable (_ ∧ _))

def Live (p : Process) (s : RequestId) : Prop :=
  ∃ e, (p.states s).toEvt = some e ∧ Queued p.ctx.queue e ∧ (p.ctx.events e).call = s

/- Every request is waiting with its timeout ahead, or its callback was called, once. -/
def NoneForgotten (p : Process) : Prop :=
  ∀ s, s < p.fresh → (s ∈ p.resp ∧ Live p s ∧ times p s = 0) ∨ (s ∉ p.resp ∧ times p s = 1)

def accepted (p : Process) (c : Call) : Bool :=
  c.malloc && match ipcCommandInternal c.env c.fuel c.heap p.nextCmdRef true c.command c.paramType c.params c.dest with
    | .ok (some _,_) => true
    | _ => false

/- The timeout event of a new request gets its memory, a packet that answers a request with
a cooked callback decodes, and no removal of a timeout event loses another one. -/
def Kept (p : Process) : Action → Prop
  | .command c => accepted p c = true → c.evtMalloc = true ∧ ¬ Full c.grow p.ctx.queue
  | .packet env data src => ∀ s ∈ answered p env data src, (p.states s).cbType = .cooked → decodes env data = true
  | .fire _ => True
  | .ret _ => Untied p p.running

instance (p : Process) : ∀ a, Decidable (Kept p a)
  | .command .. => inferInstanceAs (Decidable (_ → _))
  | .packet .. => inferInstanceAs (Decidable (∀ s ∈ _, _))
  | .fire .. => inferInstanceAs (Decidable True)
  | .ret .. => inferInstanceAs (Decidable (Untied _ _))

/- What holds between any two steps of a kept run. `owned` is the converse of `live`: no
event is left behind by a request that is gone. -/
structure Tracked (p : Process) : Prop where
  ready : Ready p.ctx
  allocated : Allocated p.ctx.queue
  nodup : p.resp.Nodup
  bound : ∀ s ∈ p.resp, s < p.fresh
  live : ∀ s ∈ p.resp, Live p s
  owned : ∀ e, Queued p.ctx.queue e → (p.states (p.ctx.events e).call).toEvt = some e ∧
    ((p.ctx.events e).call ∈ p.resp ∨ ∃ r, p.running = .response (p.ctx.events e).call r)
  waiting : ∀ s ∈ p.resp, times p s = 0
  done : ∀ s, s < p.fresh → s ∉ p.resp → times p s = 1
  unborn : ∀ s, p.fresh ≤ s → times p s = 0
  answering : ∀ s r, p.running = .response s r → s < p.fresh ∧ s ∉ p.resp ∧ Live p s
  expiring : ∀ s e t, p.running = .timeout s e t → s < p.fresh ∧ s ∉ p.resp

theorem Tracked.noneForgotten {p : Process} (tracked : Tracked p) : NoneForgotten p := by
  intro s born
  by_cases mem : s ∈ p.resp
  · exact .inl ⟨mem,tracked.live s mem,tracked.waiting s mem⟩
  · exact .inr ⟨mem,tracked.done s born mem⟩

theorem Tracked.matching {p : Process} (tracked : Tracked p) : Matching p := by
  refine ⟨tracked.ready,tracked.allocated,tracked.nodup,tracked.bound,?_,tracked.owned,?_,tracked.expiring⟩
  · intro s e holder timer
    have live : Live p s := by
      rcases holder with mem | ⟨r,running⟩
      · exact tracked.live s mem
      · exact (tracked.answering s r running).2.2
    obtain ⟨own,set,queued,call⟩ := live
    cases set.symm.trans timer
    exact ⟨queued,call⟩
  · intro s r running
    obtain ⟨born,gone,_⟩ := tracked.answering s r running
    exact ⟨born,gone⟩

theorem Matching.tracked {p : Process} (matching : Matching p)
    (timers : ∀ s, (s ∈ p.resp ∨ ∃ r, p.running = .response s r) → (p.states s).toEvt ≠ none)
    (waiting : ∀ s ∈ p.resp, times p s = 0) (done : ∀ s, s < p.fresh → s ∉ p.resp → times p s = 1)
    (unborn : ∀ s, p.fresh ≤ s → times p s = 0) : Tracked p := by
  have live : ∀ s, (s ∈ p.resp ∨ ∃ r, p.running = .response s r) → Live p s := by
    intro s holder
    obtain ⟨e,timer⟩ := Option.ne_none_iff_exists'.mp (timers s holder)
    exact ⟨e,timer,matching.timed s e holder timer⟩
  refine ⟨matching.ready,matching.allocated,matching.nodup,matching.bound,fun s mem => live s (.inl mem),matching.owned,
    waiting,done,unborn,?_,matching.expiring⟩
  intro s r running
  obtain ⟨born,gone⟩ := matching.answering s r running
  exact ⟨born,gone,live s (.inr ⟨r,running⟩)⟩

theorem Tracked.timers {p : Process} (tracked : Tracked p) {s : RequestId}
    (holder : s ∈ p.resp ∨ ∃ r, p.running = .response s r) : (p.states s).toEvt ≠ none := by
  rcases holder with mem | ⟨r,running⟩
  · obtain ⟨e,timer,_⟩ := tracked.live s mem
    simp [timer]
  · obtain ⟨_,_,e,timer,_⟩ := tracked.answering s r running
    simp [timer]

theorem Tracked.carried {p q : Process} (tracked : Tracked p) (matching : Matching q) (fresh : q.fresh = p.fresh)
    (resp : q.resp = p.resp) (called : q.called = p.called)
    (timers : ∀ s, (s ∈ q.resp ∨ ∃ r, q.running = .response s r) → (q.states s).toEvt ≠ none) : Tracked q := by
  have times_ : ∀ s, times q s = times p s := fun s => by rw [times, called, times]
  refine matching.tracked timers ?_ ?_ ?_
  · rw [resp]
    intro s mem
    rw [times_]
    exact tracked.waiting s mem
  · rw [resp, fresh]
    intro s born gone
    rw [times_]
    exact tracked.done s born gone
  · rw [fresh]
    intro s later
    rw [times_]
    exact tracked.unborn s later

theorem startTracked {hashSize : Nat} (events : Memory RequestId) (d dbg : Nat → EventId) (states : RequestId → ResponseCb)
    (fits : 8 * (hashSize + 1) < 2 ^ 64) : Tracked (start hashSize events d dbg states) :=
  (startMatching events d dbg states fits).tracked (by simp [start]) (by simp [start]) (by simp [start])
    (by simp [start,times])

theorem diedTracked {p : Process} (tracked : Tracked p) : Tracked {p with alive := false} :=
  tracked.carried (tracked.matching.congr rfl rfl rfl rfl rfl) rfl rfl rfl fun _ => tracked.timers

theorem addPlaced {A : Type} {ctx : EventState A} {grow : Bool} (room : ¬ Full grow ctx.queue) (now time : Timeval)
    (call : A) : (evtSchedAdd ctx true grow now time call).1 = some ctx.fresh := by
  simp [evtSchedAdd,evtSchedAddWithTimestep,EventState.heap,PriorityQueue.insert,room]

theorem commandTimer {p : Process} {c : Call} (waits : c.timeout ≠ 0) (kept : Kept p (.command c)) {r : Option EventId}
    (asked : Asked p (ipcCommand p c) r) : r ≠ none := by
  have self := asked.self
  have more := asked.fresh
  revert self more
  simp only [ipcCommand]
  simp only [Kept,accepted] at kept
  cases out : ipcCommandInternal c.env c.fuel c.heap p.nextCmdRef true c.command c.paramType c.params c.dest with
  | error stop => simp
  | ok sent =>
    obtain ⟨handed,next⟩ := sent
    cases handed with
    | none => simp
    | some packet =>
      simp only [out,Bool.and_true] at kept
      simp only [cmdAddResponseCb]
      split
      · rename_i malloc
        obtain ⟨evtMalloc,room⟩ := kept malloc
        rw [evtMalloc, addPlaced room, setToEvtSelf]
        rintro rfl _
        simp
      · simp

theorem commandTracked {p : Process} {c : Call} (tracked : Tracked p) (waits : c.timeout ≠ 0)
    (kept : Kept p (.command c)) : Tracked (ipcCommand p c) := by
  rcases commandCases tracked.matching c with ⟨same,_⟩ | ⟨r,asked,_⟩
  · refine tracked.carried (tracked.matching.same same) same.fresh same.resp same.called ?_
    rw [same.resp, same.running, same.states]
    exact fun _ => tracked.timers
  · have times_ : ∀ s, times (ipcCommand p c) s = times p s := fun s => by rw [times, asked.called, times]
    refine (asked.matching tracked.matching).tracked ?_ ?_ ?_ ?_
    · intro s holder
      by_cases new : s = p.fresh
      · rw [new, asked.self]
        exact commandTimer waits kept asked
      · rw [asked.others s new]
        rw [asked.resp, asked.running] at holder
        exact tracked.timers (holder.imp_left fun mem => (List.mem_cons.mp mem).resolve_left new)
    · rw [asked.resp]
      intro s mem
      rw [times_]
      rcases List.mem_cons.mp mem with rfl | old
      · exact tracked.unborn _ le_rfl
      · exact tracked.waiting s old
    · rw [asked.resp, asked.fresh]
      intro s born gone
      have ne : s ≠ p.fresh := fun same => gone (by simp [same])
      rw [times_]
      exact tracked.done s (lt_of_le_of_ne (Nat.le_of_lt_succ born) ne) fun mem => gone (by simp [mem])
    · rw [asked.fresh]
      intro s later
      rw [times_]
      exact tracked.unborn s (Nat.le_of_succ_le later)

section Notify
variable {p q : Process} {s : RequestId}

theorem Notified.timesSelf (notified : Notified p q s) : times q s = times p s + 1 := by
  obtain ⟨flag,called⟩ := notified.called
  simp [times,called]

theorem Notified.timesOther (notified : Notified p q s) {x : RequestId} (ne : x ≠ s) : times q x = times p x := by
  obtain ⟨flag,called⟩ := notified.called
  simp [times,called,ne.symm]

theorem Notified.memIff (notified : Notified p q s) (tracked : Tracked p) {x : RequestId} :
    x ∈ q.resp ↔ x ≠ s ∧ x ∈ p.resp := by
  rw [notified.resp, tracked.nodup.mem_erase_iff]

theorem Notified.tracked (notified : Notified p q s) (tracked : Tracked p) (matching : Matching q)
    (answering : ∀ x r, q.running = .response x r → x = s) : Tracked q := by
  have born := tracked.bound s notified.mem
  refine matching.tracked ?_ ?_ ?_ ?_
  · intro x holder
    rw [notified.states]
    rcases holder with mem | ⟨r,running⟩
    · exact tracked.timers (.inl ((notified.memIff tracked).mp mem).2)
    · rw [answering x r running]
      exact tracked.timers (.inl notified.mem)
  · intro x mem
    obtain ⟨ne,old⟩ := (notified.memIff tracked).mp mem
    rw [notified.timesOther ne]
    exact tracked.waiting x old
  · intro x early gone
    rw [notified.fresh] at early
    by_cases same : x = s
    · rw [same, notified.timesSelf, tracked.waiting s notified.mem]
    · rw [notified.timesOther same]
      exact tracked.done x early fun mem => gone ((notified.memIff tracked).mpr ⟨same,mem⟩)
  · intro x later
    rw [notified.fresh] at later
    rw [notified.timesOther (born.trans_le later).ne']
    exact tracked.unborn x later

end Notify

theorem answerTracked {p : Process} {s : RequestId} (tracked : Tracked p) (idle : p.running.isNothing = true)
    (mem : s ∈ p.resp) (resp : Option (StructDefinition × Val)) :
    Tracked (callBack {p with resp := p.resp.erase s} s false (.response s resp)) := by
  have notified : Notified p (callBack {p with resp := p.resp.erase s} s false (.response s resp)) s :=
    ⟨mem,rfl,rfl,rfl,false,rfl⟩
  refine notified.tracked tracked (answerMatching tracked.matching idle mem _ resp) ?_
  intro x r running
  cases running
  rfl

theorem packetTracked {p : Process} {env : Env} {data : List Byte} {src : Address} (tracked : Tracked p)
    (idle : p.running.isNothing = true) (kept : Kept p (.packet env data src)) :
    Tracked (cmdHandleXdrResponse p env data src) := by
  simp only [cmdHandleXdrResponse]
  cases found : answered p env data src with
  | none => exact tracked
  | some s =>
    have mem : s ∈ p.resp := by
      simp only [answered] at found
      split at found
      · contradiction
      · exact List.mem_of_find?_eq_some found
    simp only [cmdResolveCallback]
    cases kind : (p.states s).cbType with
    | raw => exact answerTracked tracked idle mem none
    | cooked =>
      have decoded := kept s found kind
      simp only [decodes] at decoded
      split at decoded
      · rename_i resp cooked
        simp only [cooked]
        exact answerTracked tracked idle mem (some resp)
      · contradiction

theorem fireTracked {p : Process} (tracked : Tracked p) (idle : p.running.isNothing = true) (now : Timeval) :
    Tracked (fire p now) := by
  rcases fireNotifies tracked.matching idle now with same | ⟨e,_,_,_,notified,_,silent,matching⟩
  · rw [same]
    exact tracked
  · exact notified.tracked tracked matching fun x r running => absurd running (silent x r)

theorem removeTracked {p : Process} {s : RequestId} {r : Option (StructDefinition × Val)} (tracked : Tracked p)
    (running : p.running = .response s r) (untied : ∀ e ∈ (p.states s).toEvt, ¬ TiedWithParent p.ctx e) :
    Tracked (removeTimer p s) := by
  obtain ⟨resp,called,numbers⟩ := removeTimerKeeps p s
  have gone := (tracked.answering s r running).2.1
  refine tracked.carried (removeMatching tracked.matching running untied) numbers.fresh resp called ?_
  rw [resp]
  intro x holder
  simp only [removeTimer] at holder ⊢
  split at holder
  · rename_i none
    rcases holder with mem | ⟨r',impossible⟩
    · exact tracked.timers (.inl mem)
    · cases impossible
  · rcases holder with mem | ⟨r',impossible⟩
    · have ne : x ≠ s := fun same => gone (same ▸ mem)
      rw [setToEvtOther ne]
      exact tracked.timers (.inl mem)
    · cases impossible

theorem expireTracked {p : Process} {s : RequestId} {e : EventId} {curTime : Timeval} (tracked : Tracked p)
    (running : p.running = .timeout s e curTime) :
    Tracked (setToEvt {p with ctx := finishTimedEvent p.ctx e curTime false false, running := .nothing} s none) := by
  have gone := (tracked.expiring s e curTime running).2
  refine tracked.carried (expireMatching tracked.matching running) rfl rfl rfl ?_
  rintro x (mem | ⟨r,impossible⟩)
  · have ne : x ≠ s := fun same => gone (same ▸ mem)
    rw [setToEvtOther ne]
    exact tracked.timers (.inl mem)
  · cases impossible

theorem resumeTracked {p : Process} {env : Env} (tracked : Tracked p) (kept : Kept p (.ret env)) :
    Tracked (resume p env) := by
  simp only [resume]
  cases running : p.running with
  | nothing => exact tracked
  | response s resp =>
    simp only [Kept,running,Untied] at kept
    cases resp with
    | none => exact removeTracked tracked running kept
    | some pair =>
      obtain ⟨d,v⟩ := pair
      simp only
      cases structFreeDeallocator env d.fields v with
      | error stop =>
        have died := diedTracked tracked
        rw [running] at died
        exact died
      | ok _ => exact removeTracked tracked running kept
  | timeout s e curTime => exact expireTracked tracked running

theorem stepTracked (p : Process) (a : Action) (tracked : Tracked p) (ok : Legal p a ∧ Kept p a) : Tracked (step p a) := by
  cases a with
  | command c => exact commandTracked tracked ok.1.2 ok.2
  | packet env data src => exact packetTracked tracked ok.1.2 ok.2
  | fire now => exact fireTracked tracked ok.1.2 now
  | ret env => exact resumeTracked tracked ok.2

theorem runForgetsNone {hashSize : Nat} {events : Memory RequestId} {d dbg : Nat → EventId}
    {states : RequestId → ResponseCb} {acts : List Action} (fits : 8 * (hashSize + 1) < 2 ^ 64)
    (run : Along step (fun p a => Legal p a ∧ Kept p a) (start hashSize events d dbg states) acts) :
    NoneForgotten (exec step (start hashSize events d dbg states) acts) :=
  (run.invariant stepTracked (startTracked events d dbg states fits)).noneForgotten

def blank : Process :=
  start 19 (fun _ => newSchedCB ⟨0,0⟩ ⟨0,0⟩ ⟨0,0⟩ 0) (fun _ => 0) (fun _ => 0) fun _ => ⟨0,⟨0,0⟩,.raw,none⟩

def typesHeartbeat : BitVec 32 := 0x01000107

def heartbeatFields : FieldList :=
  .cons (.scalar .uint64) 0 0 (.cons (.scalar .uint64) 0 0 (.cons (.scalar .uint64) 0 0 .nil))

def responseEnv : Env where
  definitionForType type :=
    if type = 0 then some ⟨0,.struct,.nil⟩
    else if type = typesHeartbeat then some ⟨24,.struct,heartbeatFields⟩
    else if type = typesResponse then some ⟨32,.struct,responseFields⟩
    else none
  alloc _ := true
  address _ := 0
  firstPointerNull _ := true

def request (cbType : CbType) (sec : Int) : Call :=
  ⟨responseEnv,1,plenty,0x101,0,.null,⟨99,1⟩,cbType,1000,⟨sec,0⟩,true,true,true⟩

def heartbeat (ipcref : BitVec 32) : List Byte :=
  responseBytes ipcref typesHeartbeat (beBytes64 1 ++ beBytes64 2 ++ beBytes64 3)

def answer (data : List Byte) : Action := .packet responseEnv data ⟨99,1⟩

def sampleRun : List Action :=
  [.command (request .raw 0),.command (request .cooked 1),.command (request .cooked 2),answer ((heartbeat 1).take 20),
    .ret responseEnv,answer (heartbeat 2),.ret responseEnv,answer (heartbeat 2),.fire ⟨3,0⟩,.command (request .raw 3),
    .ret responseEnv]

theorem sampleRunForgetsNone : Along step (fun p a => Legal p a ∧ Kept p a) blank sampleRun ∧
    NoneForgotten (exec step blank sampleRun) := by
  have run : Along step (fun p a => Legal p a ∧ Kept p a) blank sampleRun := by decide +kernel
  exact ⟨run,runForgetsNone (by decide) run⟩

def cutRun : List Action := [.command (request .cooked 0),answer ((heartbeat 1).take 20)]

def tiedRun : List Action :=
  [.command (request .raw 0),.command (request .raw 0),answer (heartbeat 1),.ret responseEnv]

/- The first request is gone without a callback; in the other run the second one waits
without a timeout. -/
theorem answeredRequestsForgotten :
    (Along step Legal blank cutRun ∧ ¬ NoneForgotten (exec step blank cutRun)) ∧
    Along step Legal blank tiedRun ∧ ¬ NoneForgotten (exec step blank tiedRun) := by
  refine ⟨⟨by decide +kernel,?_⟩,by decide +kernel,?_⟩
  · intro none
    rcases none 0 (by decide +kernel) with ⟨mem,_⟩ | ⟨_,once⟩
    · revert mem
      decide +kernel
    · revert once
      decide +kernel
  · intro none
    rcases none 1 (by decide +kernel) with ⟨_,⟨e,timer,queued,_⟩,_⟩ | ⟨gone,_⟩
    · have evt : ((exec step blank tiedRun).states 1).toEvt = some 2 := by decide +kernel
      rw [evt] at timer
      cases timer
      revert queued
      decide +kernel
    · revert gone
      decide +kernel

end LibProc.Requests
