import LibProc.WriteQueue

/-! What the callback of a queued write is given. The node of a call keeps the data only where the
call asks for a copy. -/
namespace LibProc.WriteQueue
open XdrBytes (Byte)
open LinkedSlots FdRegistry FdCallbacks
open Runs (exec)

def freeDataAfterWrite : Int := 1

def ProcWriteNode.Gives (node : ProcWriteNode) (bytes : List Byte) : Prop :=
  node.len = bytes.length ∧ (node.data.getD []).take node.len = bytes

instance (node : ProcWriteNode) (bytes : List Byte) : Decidable (node.Gives bytes) := inferInstanceAs (Decidable (_ ∧ _))

def WriteCall.Keeps (call : WriteCall) : Prop := call.memoryOptions = copyDataToWrite ∨ call.data = []

def made (proc : Proc) (call : WriteCall) : List (Nat × WriteCall) :=
  match procNonblockingWriteCallback proc call with
  | some (0,_) => [(proc.writes.fresh,call)]
  | _ => []

def madeIn : Proc → List WriteCall → List (Nat × WriteCall)
  | _,[] => []
  | proc,call :: rest => made proc call ++ madeIn (queue proc call) rest

def madeByEvent (proc : Proc) (fd : Nat) (calls : List WriteCall) : List (Nat × WriteCall) :=
  match proc.writes.find (fun _ node => decide (node.fd = fd)) (.head ()),writeEventCallback proc fd calls with
  | some (_,some _),some _ => madeIn proc calls
  | _,_ => []

def madeBy (proc : Proc) : Act → List (Nat × WriteCall)
  | .write call => made proc call
  | .ready fd calls =>
    let started := { proc with registry := dispatch proc.registry fd .write }
    match started.registry.running with
    | none => []
    | some run => madeByEvent started run.fd calls

def madeAlong : Proc → List Act → List (Nat × WriteCall)
  | _,[] => []
  | proc,act :: rest => madeBy proc act ++ madeAlong (step proc act) rest

def entryOf (call : Nat × WriteCall) : Nat × ProcWriteNode := (call.1,call.2.node)

section
variable {proc : Proc}

theorem nodeGivesIff (call : WriteCall) : call.node.Gives call.data ↔ call.Keeps := by
  unfold WriteCall.node ProcWriteNode.Gives WriteCall.Keeps
  by_cases copies : call.memoryOptions = copyDataToWrite
  · simp [copies]
  · simp only [copies,if_false,false_or]
    exact ⟨fun gives => List.length_eq_zero_iff.mp gives.1.symm,fun none_ => by simp [none_]⟩

theorem callMade {call : WriteCall} {proc' : Proc} {res : Int} (returns : procNonblockingWriteCallback proc call = some (res,proc')) :
    proc'.queued = proc.queued ++ if res = 0 then [(proc.writes.fresh,call.node)] else [] := by
  unfold procNonblockingWriteCallback at returns
  split at returns
  · cases returns
    exact (List.append_nil _).symm
  split at returns
  · cases returns
    exact (List.append_nil _).symm
  simp only [Option.bind_eq_bind,Option.bind_eq_some_iff] at returns
  obtain ⟨⟨curr,writePending⟩,-,linked,-,returns⟩ := returns
  split at returns
  · cases returns
    rfl
  split at returns
  · obtain ⟨unlinked,-,is⟩ := Option.bind_eq_some_iff.mp returns
    cases is
    exact (List.append_nil _).symm
  · cases returns
    rfl

theorem queueMade (proc : Proc) (call : WriteCall) : (queue proc call).queued = proc.queued ++ (made proc call).map entryOf := by
  unfold queue made
  cases returns : procNonblockingWriteCallback proc call with
  | none => exact (List.append_nil _).symm
  | some result =>
    obtain ⟨res,proc'⟩ := result
    dsimp only
    rw [callMade returns]
    by_cases success : res = 0
    · subst success
      rfl
    · rw [if_neg success]
      split
      · rename_i is
        cases is
        exact absurd rfl success
      · rfl

theorem callsMade (proc : Proc) (calls : List WriteCall) :
    (exec queue proc calls).queued = proc.queued ++ (madeIn proc calls).map entryOf := by
  induction calls generalizing proc with
  | nil => exact (List.append_nil _).symm
  | cons call rest ih => rw [exec, ih, queueMade, madeIn, List.map_append, List.append_assoc]

theorem eventMade {proc' : Proc} {fd : Nat} {calls : List WriteCall} {keep : Int}
    (returns : writeEventCallback proc fd calls = some (keep,proc')) :
    proc'.queued = proc.queued ++ (madeByEvent proc fd calls).map entryOf := by
  unfold madeByEvent
  rw [returns]
  unfold writeEventCallback at returns
  cases found : proc.writes.find (fun _ node => decide (node.fd = fd)) (.head ()) with
  | none =>
    rw [found] at returns
    cases returns
  | some place =>
    obtain ⟨curr,first⟩ := place
    cases first with
    | none =>
      rw [found] at returns
      cases returns
      exact (List.append_nil _).symm
    | some tx =>
      rw [found] at returns
      simp only [Option.bind_eq_bind,Option.bind_some,Option.bind_eq_some_iff] at returns
      obtain ⟨node,-,after,-,writes,-,⟨slot,more⟩,-,is⟩ := returns
      cases is
      exact callsMade proc calls

theorem stepMade (proc : Proc) (act : Act) : (step proc act).queued = proc.queued ++ (madeBy proc act).map entryOf := by
  cases act with
  | write call => exact queueMade proc call
  | ready fd calls =>
    simp only [step,writeReady,madeBy]
    cases (dispatch proc.registry fd .write).running with
    | none => exact (List.append_nil _).symm
    | some run =>
      dsimp only
      cases returns : writeEventCallback { proc with registry := dispatch proc.registry fd .write } run.fd calls with
      | none => simp [madeByEvent,returns]
      | some result => exact eventMade returns

theorem runMade (proc : Proc) (acts : List Act) :
    (exec step proc acts).queued = proc.queued ++ (madeAlong proc acts).map entryOf := by
  induction acts generalizing proc with
  | nil => exact (List.append_nil _).symm
  | cons act rest ih => rw [exec, ih, stepMade, madeAlong, List.map_append, List.append_assoc]

end

/- Every callback that has run is that of a call that was made, and is given the bytes of the call just
when the call keeps them: for any order of calls and notifications, the calls of callbacks included. -/
theorem writesCarryIff {registry : Registry} (idle : Idle registry) (acts : List Act) :
    (∀ ran ∈ (exec step (.init registry) acts).ran, ∃ call ∈ madeAlong (.init registry) acts, entryOf call = ran) ∧
      ∀ ran ∈ (exec step (.init registry) acts).ran, ∀ call ∈ madeAlong (.init registry) acts, call.1 = ran.1 →
        (ran.2.Gives call.2.data ↔ call.2.Keeps) := by
  obtain ⟨pending,ordered⟩ := (writesOrdered idle acts).1
  have queued : (exec step (.init registry) acts).queued = (madeAlong (.init registry) acts).map entryOf :=
    (runMade _ acts).trans (List.nil_append _)
  have ofQueue : ∀ ran ∈ (exec step (.init registry) acts).ran, ran ∈ (madeAlong (.init registry) acts).map entryOf := by
    intro ran member
    have own : ran ∈ (exec step (.init registry) acts).ran.filter (isFor ran.2.fd) :=
      List.mem_filter.mpr ⟨member,decide_eq_true rfl⟩
    have there := List.mem_append_left (pending.filter (isFor ran.2.fd)) own
    rw [← ordered.order, queued] at there
    exact (List.mem_filter.mp there).1
  refine ⟨fun ran member => List.mem_map.mp (ofQueue ran member),fun ran member call called same => ?_⟩
  have once := ordered.once
  rw [queued] at once
  have is : entryOf call = ran := List.inj_on_of_nodup_map once (List.mem_map_of_mem called) (ofQueue ran member) same
  rw [← is]
  exact nodeGivesIff call.2

def threeWays : List Act :=
  [.write ⟨5,[1,2],7,0,copyDataToWrite,true,true,true⟩,.write ⟨5,[1,2],7,0,freeDataAfterWrite,true,true,true⟩,
    .write ⟨24,[1,2],7,0,ignoreDataAfterWrite,true,true,true⟩,.ready 5 [],.ready 5 [],.ready 24 []]

theorem threeWaysCarry :
    ((exec step (.init (evtCreateHandler 19)) threeWays).ran.map fun ran => (ran.1,ran.2.data,ran.2.len)) =
      [(0,some [1,2],2),(1,none,0),(2,none,0)] ∧
    (∀ ran ∈ (exec step (.init (evtCreateHandler 19)) threeWays).ran,
      ∃ call ∈ madeAlong (.init (evtCreateHandler 19)) threeWays, entryOf call = ran) ∧
    ∀ ran ∈ (exec step (.init (evtCreateHandler 19)) threeWays).ran,
      ∀ call ∈ madeAlong (.init (evtCreateHandler 19)) threeWays, call.1 = ran.1 →
        (ran.2.Gives call.2.data ↔ call.2.Keeps) :=
  ⟨by decide +kernel,writesCarryIff (createIdle 19) threeWays⟩

/- A call that leaves the data to the queue succeeds, and its callback writes nothing. -/
theorem freedDataLost :
    ∃ call ran, call ∈ madeAlong (.init (evtCreateHandler 19)) [.write ⟨5,[1,2],7,0,freeDataAfterWrite,true,true,true⟩,.ready 5 []] ∧
      ran ∈ (exec step (.init (evtCreateHandler 19)) [.write ⟨5,[1,2],7,0,freeDataAfterWrite,true,true,true⟩,.ready 5 []]).ran ∧
      call.1 = ran.1 ∧ call.2.data = [1,2] ∧ ran.2.data = none ∧ ran.2.len = 0 ∧ ¬ran.2.Gives call.2.data :=
  ⟨(0,⟨5,[1,2],7,0,freeDataAfterWrite,true,true,true⟩),(0,⟨5,7,0,none,0,true⟩),by decide +kernel,by decide +kernel,rfl,rfl,rfl,rfl,
    by decide⟩

end LibProc.WriteQueue
