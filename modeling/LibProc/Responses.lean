import LibProc.Requests

/-! Responses match requests. A request is completed when it leaves the list or its
callback is called. Whatever the timeouts, the mallocs and the packets are, a step
completes a request only through its own number and address or its own timer, provided
that no removal of a timer leaves the freed event in the queue. -/
namespace LibProc.Requests
open PriorityQueue Scheduler SchedRemove XdrBytes Xdr Ipc Runs

def Completes (p q : Process) (s : RequestId) : Prop := (s ∈ p.resp ∧ s ∉ q.resp) ∨ times p s < times q s

instance (p q : Process) (s : RequestId) : Decidable (Completes p q s) := inferInstanceAs (Decidable (_ ∨ _))

def completions : Process → List Action → RequestId → Nat
  | _,[],_ => 0
  | p,a :: rest,s => (if Completes p (step p a) s then 1 else 0) + completions (step p a) rest s

def isCommand : Action → Bool
  | .command _ => true
  | _ => false

def Permitted (p : Process) : Action → Prop
  | .command _ => p.alive = true
  | .packet .. => p.alive = true ∧ p.running.isNothing = true
  | .fire _ => p.alive = true ∧ p.running.isNothing = true
  | .ret _ => p.alive = true ∧ p.running.isNothing = false

instance (p : Process) : ∀ a, Decidable (Permitted p a)
  | .command .. => inferInstanceAs (Decidable (_ = _))
  | .packet .. => inferInstanceAs (Decidable (_ ∧ _))
  | .fire .. => inferInstanceAs (Decidable (_ ∧ _))
  | .ret .. => inferInstanceAs (Decidable (_ ∧ _))

/- A packet completes at most the one request with its number and address, a timer that is
due the request it was set for; nothing else completes one. -/
def StepMatches (p : Process) (a : Action) : Prop :=
  ∀ s, Completes p (step p a) s → match a with
    | .packet env data src => responseRef env data = some (p.states s).id ∧ (p.states s).host = src ∧
        (∀ t, t < p.fresh → (p.states t).id = (p.states s).id → t = s) ∧ ∀ t, Completes p (step p a) t → t = s
    | .fire now => ∃ e, peek p.ctx.queue = some e ∧ (p.ctx.events e).nextAwake ≤ now ∧ (p.ctx.events e).call = s ∧
        (p.states s).toEvt = some e
    | _ => False

structure Ends (p q : Process) (s : RequestId) : Prop where
  mem : s ∈ p.resp
  resp : q.resp = p.resp.erase s
  numbers : SameNumbers p q
  others : ∀ x, x ≠ s → times q x = times p x

theorem Ends.completes {p q : Process} {s x : RequestId} (ends : Ends p q s) (matching : Matching p)
    (done : Completes p q x) : x = s := by
  by_contra other
  rcases done with ⟨before,after⟩ | more
  · rw [ends.resp, matching.nodup.mem_erase_iff] at after
    exact after ⟨other,before⟩
  · rw [ends.others x other] at more
    exact lt_irrefl _ more

theorem loggedOthers {p q : Process} {s : RequestId} {flag : Bool} (called : q.called = (s,flag) :: p.called) :
    ∀ x, x ≠ s → times q x = times p x := by
  intro x ne
  simp [times,called,ne.symm]

theorem answeredMem {p : Process} {env : Env} {data : List Byte} {src : Address} {s : RequestId}
    (found : answered p env data src = some s) :
    s ∈ p.resp ∧ responseRef env data = some (p.states s).id ∧ (p.states s).host = src := by
  simp only [answered] at found
  cases ref : responseRef env data with
  | none =>
    rw [ref] at found
    cases found
  | some ipcref =>
    rw [ref] at found
    have both := List.find?_some found
    simp only [decide_eq_true_eq] at both
    exact ⟨List.mem_of_find?_eq_some found,by rw [both.1],both.2⟩

theorem packetEnds {p : Process} (matching : Matching p) (idle : p.running.isNothing = true) (env : Env)
    (data : List Byte) (src : Address) :
    (answered p env data src = none ∧ cmdHandleXdrResponse p env data src = p) ∨
    ∃ s, answered p env data src = some s ∧ Ends p (cmdHandleXdrResponse p env data src) s ∧
      (RemovesUntied p (.packet env data src) → (cmdHandleXdrResponse p env data src).alive = true →
        Matching (cmdHandleXdrResponse p env data src)) := by
  simp only [cmdHandleXdrResponse]
  cases found : answered p env data src with
  | none => exact .inl ⟨rfl,rfl⟩
  | some s =>
    obtain ⟨mem,-,-⟩ := answeredMem found
    refine .inr ⟨s,rfl,?_⟩
    simp only [cmdResolveCallback]
    cases kind : (p.states s).cbType with
    | raw => exact ⟨⟨mem,rfl,⟨rfl,rfl,fun _ => rfl⟩,loggedOthers rfl⟩,fun _ _ => answerMatching matching idle mem _ none⟩
    | cooked =>
      cases cooked : cookResponse env data with
      | error stop =>
        refine ⟨⟨mem,rfl,⟨rfl,rfl,fun _ => rfl⟩,fun _ _ => rfl⟩,fun _ lives => ?_⟩
        cases lives
      | ok resp =>
        cases resp with
        | some resp =>
          exact ⟨⟨mem,rfl,⟨rfl,rfl,fun _ => rfl⟩,loggedOthers rfl⟩,
            fun _ _ => answerMatching matching idle mem _ (some resp)⟩
        | none =>
          obtain ⟨resp,called,numbers⟩ := removeTimerKeeps {p with resp := p.resp.erase s} s
          refine ⟨⟨mem,resp,⟨numbers.fresh,numbers.next,numbers.id⟩,fun x _ => by rw [times, called, times]⟩,
            fun untied _ => ?_⟩
          have mute : decodes env data = false := by rw [decodes, cooked]
          have removed := removeMatching (answerMatching matching idle mem p.called none) rfl (untied s found kind mute)
          rwa [removeTimerRunning] at removed

theorem fireEnds {p : Process} (matching : Matching p) (idle : p.running.isNothing = true) (now : Timeval) :
    fire p now = p ∨ ∃ e, peek p.ctx.queue = some e ∧ (p.ctx.events e).nextAwake ≤ now ∧
      (p.states (p.ctx.events e).call).toEvt = some e ∧ Ends p (fire p now) (p.ctx.events e).call ∧
      Matching (fire p now) := by
  rcases fireNotifies matching idle now with same | ⟨e,found,due,timer,notified,next,_,kept⟩
  · exact .inl same
  · obtain ⟨flag,called⟩ := notified.called
    have numbers : SameNumbers p (fire p now) := ⟨notified.fresh,next,fun x => by rw [notified.states]⟩
    exact .inr ⟨e,found,due,timer,⟨notified.mem,notified.resp,numbers,loggedOthers called⟩,kept⟩

structure Numbered (p : Process) (count : Nat) (number : RequestId → Nat) (last : Nat) : Prop where
  few : last ≤ count
  next : p.nextCmdRef = BitVec.ofNat 32 (last + 1)
  id : ∀ s, s < p.fresh → (p.states s).id = BitVec.ofNat 32 (number s)
  range : ∀ s, s < p.fresh → 1 ≤ number s ∧ number s ≤ last
  increasing : ∀ s t, s < t → t < p.fresh → number s < number t

def HasNumbers (p : Process) (count : Nat) : Prop := ∃ number last, Numbered p count number last

theorem HasNumbers.distinct {p : Process} {count : Nat} (has : HasNumbers p count) (few : count < 2 ^ 32) {s t : RequestId}
    (born : s < p.fresh) (also : t < p.fresh) (same : (p.states t).id = (p.states s).id) : t = s := by
  obtain ⟨number,last,numbered⟩ := has
  have numbers : number t = number s := by
    have words := same
    rw [numbered.id s born, numbered.id t also] at words
    have values := congrArg BitVec.toNat words
    obtain ⟨-,high⟩ := numbered.range s born
    obtain ⟨-,high'⟩ := numbered.range t also
    have bound := numbered.few
    rwa [BitVec.toNat_ofNat, BitVec.toNat_ofNat, Nat.mod_eq_of_lt (by omega), Nat.mod_eq_of_lt (by omega)] at values
  rcases Nat.lt_trichotomy s t with less | equal | more
  · have := numbered.increasing s t less also
    omega
  · exact equal.symm
  · have := numbered.increasing t s more born
    omega

theorem HasNumbers.same {p q : Process} {count : Nat} (has : HasNumbers p count) (numbers : SameNumbers p q) :
    HasNumbers q count := by
  obtain ⟨number,last,few,next,id,range,increasing⟩ := has
  refine ⟨number,last,few,numbers.next.trans next,?_,?_,?_⟩
  · intro s born
    rw [numbers.id]
    exact id s (numbers.fresh ▸ born)
  · intro s born
    exact range s (numbers.fresh ▸ born)
  · intro s t less born
    exact increasing s t less (numbers.fresh ▸ born)

theorem commandNumbers {p : Process} {count : Nat} (matching : Matching p) (has : HasNumbers p count) (c : Call) :
    HasNumbers (ipcCommand p c) (count + 1) := by
  obtain ⟨number,last,few,next,id,range,increasing⟩ := has
  have follows : p.nextCmdRef + 1 = BitVec.ofNat 32 (last + 1 + 1) := by
    rw [next, BitVec.ofNat_add (last + 1) 1]
    rfl
  rcases commandCases matching c with ⟨same,kept | counted⟩ | ⟨r,asked,counted,new⟩
  · refine ⟨number,last,by omega,kept.trans next,?_,?_,?_⟩ <;> simp only [same.fresh,same.states]
    · exact id
    · exact range
    · exact increasing
  · refine ⟨number,last + 1,by omega,counted.trans follows,?_,?_,?_⟩ <;> simp only [same.fresh,same.states]
    · exact id
    · exact fun s born => ⟨(range s born).1,Nat.le_succ_of_le (range s born).2⟩
    · exact increasing
  · refine ⟨Function.update number p.fresh (last + 1),last + 1,by omega,counted.trans follows,?_,?_,?_⟩ <;>
      simp only [asked.fresh]
    · intro s born
      by_cases first : s = p.fresh
      · subst first
        rw [Function.update_self, new, next]
      · rw [Function.update_of_ne first, asked.others s first]
        exact id s (lt_of_le_of_ne (Nat.le_of_lt_succ born) first)
    · intro s born
      by_cases first : s = p.fresh
      · subst first
        rw [Function.update_self]
        omega
      · rw [Function.update_of_ne first]
        have old := range s (lt_of_le_of_ne (Nat.le_of_lt_succ born) first)
        omega
    · intro s t less born
      have early : s < p.fresh := less.trans_le (Nat.le_of_lt_succ born)
      rw [Function.update_of_ne early.ne]
      by_cases first : t = p.fresh
      · subst first
        rw [Function.update_self]
        have old := range s early
        omega
      · rw [Function.update_of_ne first]
        exact increasing s t less (lt_of_le_of_ne (Nat.le_of_lt_succ born) first)

structure Progress (p : Process) (a : Action) (count : Nat) : Prop where
  matched : StepMatches p a
  kept : (step p a).alive = true → Matching (step p a)
  numbers : HasNumbers (step p a) (count + if isCommand a then 1 else 0)
  leaves : ∀ s, Completes p (step p a) s → s ∈ p.resp ∧ s ∉ (step p a).resp
  stays : ∀ s, s < p.fresh → s < (step p a).fresh ∧ (s ∉ p.resp → s ∉ (step p a).resp)

theorem unchangedComplete {p q : Process} (resp : q.resp = p.resp) (called : q.called = p.called) (s : RequestId) :
    ¬ Completes p q s := by
  rintro (⟨before,after⟩ | more)
  · rw [resp] at after
    exact after before
  · rw [times, times, called] at more
    exact lt_irrefl _ more

theorem Ends.stays {p q : Process} {s x : RequestId} (ends : Ends p q s) (born : x < p.fresh) :
    x < q.fresh ∧ (x ∉ p.resp → x ∉ q.resp) := by
  refine ⟨ends.numbers.fresh ▸ born,fun out there => out ?_⟩
  rw [ends.resp] at there
  exact List.mem_of_mem_erase there

theorem Ends.leaves {p q : Process} {s x : RequestId} (ends : Ends p q s) (matching : Matching p)
    (done : Completes p q x) : x ∈ p.resp ∧ x ∉ q.resp := by
  have same := ends.completes matching done
  subst same
  refine ⟨ends.mem,fun there => ?_⟩
  rw [ends.resp, matching.nodup.mem_erase_iff] at there
  exact there.1 rfl

theorem stepProgress {p : Process} {a : Action} {count : Nat} (matching : Matching p) (has : HasNumbers p count)
    (few : count < 2 ^ 32) (permitted : Permitted p a) (untied : RemovesUntied p a) : Progress p a count := by
  cases a with
  | command c =>
    have numbers := commandNumbers matching has c
    rcases commandCases matching c with ⟨same,_⟩ | ⟨r,asked,_⟩
    · have nothing : ∀ s, ¬ Completes p (ipcCommand p c) s := unchangedComplete same.resp same.called
      refine ⟨fun s done => absurd done (nothing s),fun _ => matching.same same,numbers,
        fun s done => absurd done (nothing s),fun s born => ⟨same.fresh.symm ▸ born,fun out there => out ?_⟩⟩
      exact same.resp ▸ there
    · have nothing : ∀ s, ¬ Completes p (ipcCommand p c) s := by
        rintro s (⟨before,after⟩ | more)
        · rw [asked.resp] at after
          exact after (List.mem_cons_of_mem _ before)
        · rw [times, times, asked.called] at more
          exact lt_irrefl _ more
      refine ⟨fun s done => absurd done (nothing s),fun _ => asked.matching matching,numbers,
        fun s done => absurd done (nothing s),fun s born => ⟨?_,fun out there => out ?_⟩⟩
      · change s < (ipcCommand p c).fresh
        rw [asked.fresh]
        exact born.trans (Nat.lt_succ_self _)
      · change s ∈ (ipcCommand p c).resp at there
        rw [asked.resp] at there
        exact (List.mem_cons.mp there).resolve_left born.ne
  | packet env data src =>
    rcases packetEnds matching permitted.2 env data src with ⟨-,same⟩ | ⟨s,found,ends,kept⟩
    · have nothing : ∀ s, ¬ Completes p (step p (.packet env data src)) s := unchangedComplete (congrArg _ same) (congrArg _ same)
      have stay : step p (.packet env data src) = p := same
      refine ⟨fun s done => absurd done (nothing s),fun _ => stay.symm ▸ matching,?_,
        fun s done => absurd done (nothing s),fun s born => ?_⟩
      · rw [stay]
        exact has
      · rw [stay]
        exact ⟨born,id⟩
    · obtain ⟨mem,ref,host⟩ := answeredMem found
      refine ⟨fun x done => ?_,kept untied,has.same ends.numbers,fun x done => ends.leaves matching done,
        fun x born => ends.stays born⟩
      have same := ends.completes matching done
      subst same
      exact ⟨ref,host,fun t born equal => has.distinct few (matching.bound _ mem) born equal,
        fun t also => ends.completes matching also⟩
  | fire now =>
    rcases fireEnds matching permitted.2 now with same | ⟨e,found,due,timer,ends,kept⟩
    · have nothing : ∀ s, ¬ Completes p (step p (.fire now)) s := unchangedComplete (congrArg _ same) (congrArg _ same)
      have stay : step p (.fire now) = p := same
      refine ⟨fun s done => absurd done (nothing s),fun _ => stay.symm ▸ matching,?_,
        fun s done => absurd done (nothing s),fun s born => ?_⟩
      · rw [stay]
        exact has
      · rw [stay]
        exact ⟨born,id⟩
    · refine ⟨fun x done => ?_,fun _ => kept,has.same ends.numbers,fun x done => ends.leaves matching done,
        fun x born => ends.stays born⟩
      have same := ends.completes matching done
      subst same
      exact ⟨e,found,due,rfl,timer⟩
  | ret env =>
    obtain ⟨resp,called,numbers,kept⟩ := resumeKeeps matching untied env
    have nothing : ∀ s, ¬ Completes p (resume p env) s := unchangedComplete resp called
    refine ⟨fun s done => absurd done (nothing s),fun _ => kept,has.same numbers,
      fun s done => absurd done (nothing s),fun s born => ⟨numbers.fresh.symm ▸ born,fun out there => out ?_⟩⟩
    exact resp ▸ there

theorem runProgress {acts : List Action} {p : Process} {count : Nat} (inv : p.alive = true → Matching p)
    (has : HasNumbers p count) (few : count + acts.countP isCommand < 2 ^ 32)
    (run : Along step (fun p a => Permitted p a ∧ RemovesUntied p a) p acts) :
    Along step StepMatches p acts ∧ ∀ s, completions p acts s ≤ 1 ∧ (s < p.fresh → s ∉ p.resp → completions p acts s = 0) := by
  induction acts generalizing p count with
  | nil => exact ⟨trivial,fun s => ⟨Nat.zero_le _,fun _ _ => rfl⟩⟩
  | cons a rest ih =>
    obtain ⟨⟨permitted,untied⟩,later⟩ := run
    have lives : p.alive = true := by
      cases a with
      | command c => exact permitted
      | packet | fire | ret => exact permitted.1
    have matching := inv lives
    rw [List.countP_cons] at few
    have progress := stepProgress matching has (by omega) permitted untied
    obtain ⟨along,counts⟩ := ih progress.kept progress.numbers (by omega) later
    refine ⟨⟨progress.matched,along⟩,fun s => ?_⟩
    rw [completions]
    obtain ⟨once,never⟩ := counts s
    by_cases done : Completes p (step p a) s
    · obtain ⟨before,after⟩ := progress.leaves s done
      rw [if_pos done, never (progress.stays s (matching.bound s before)).1 after]
      exact ⟨le_rfl,fun _ out => absurd before out⟩
    · rw [if_neg done, Nat.zero_add]
      refine ⟨once,fun born out => ?_⟩
      obtain ⟨still,gone⟩ := progress.stays s born
      exact never still (gone out)

/- Responses match requests. -/
theorem responsesMatch {hashSize : Nat} {events : Memory RequestId} {d dbg : Nat → EventId}
    {states : RequestId → ResponseCb} {acts : List Action} (fits : 8 * (hashSize + 1) < 2 ^ 64)
    (few : acts.countP isCommand < 2 ^ 32)
    (run : Along step (fun p a => Permitted p a ∧ RemovesUntied p a) (start hashSize events d dbg states) acts) :
    Along step StepMatches (start hashSize events d dbg states) acts ∧
      ∀ s, completions (start hashSize events d dbg states) acts s ≤ 1 := by
  have has : HasNumbers (start hashSize events d dbg states) 0 :=
    ⟨fun _ => 0,0,le_rfl,rfl,by simp [start],by simp [start],by simp [start]⟩
  obtain ⟨along,counts⟩ := runProgress (fun _ => startMatching events d dbg states fits) has (by omega) run
  exact ⟨along,fun s => (counts s).1⟩

def matchedRun : List Action :=
  [.command (request .raw 0),.command {request .cooked 1 with timeout := 0},.command (request .cooked 2),
    answer (heartbeat 1),.ret responseEnv,answer (heartbeat 1),answer ((heartbeat 2).take 20),.fire ⟨3,0⟩,
    .command (request .raw 3),.ret responseEnv,answer (heartbeat 3)]

theorem matchedRunMatches : Along step (fun p a => Permitted p a ∧ RemovesUntied p a) blank matchedRun ∧
    Along step StepMatches blank matchedRun ∧ completions blank matchedRun 2 ≤ 1 := by
  have run : Along step (fun p a => Permitted p a ∧ RemovesUntied p a) blank matchedRun := by decide +kernel
  have matched := responsesMatch (by decide) (by decide) run
  exact ⟨run,matched.1,matched.2 2⟩

def twiceRun : List Action := tiedRun ++ [.fire ⟨1,0⟩]

theorem answeredTwice : Along step Permitted blank twiceRun ∧ twiceRun.countP isCommand < 2 ^ 32 ∧
    completions blank twiceRun 0 = 2 := by
  decide +kernel

end LibProc.Requests
