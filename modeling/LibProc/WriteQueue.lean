import LibProc.FdCallbacks
import LibProc.LinkedSlots
import LibProc.XdrBytes

/-! Queued writes of `proclib.c`. All descriptors share the list `writeListHead`; a call of
`PROC_nonblocking_write_callback` appends a node, and asks for EVENT_FD_WRITE when it saw no other
node for its descriptor; the event runs the first node of its descriptor and keeps itself while it
sees another one. `queued` and `ran` record the nodes queued with success and the callbacks run. -/
namespace LibProc.WriteQueue
open XdrBytes (Byte)
open LinkedSlots FdRegistry FdCallbacks
open Runs (exec Along)

def copyDataToWrite : Int := 2
def ignoreDataAfterWrite : Int := 3

structure ProcWriteNode where
  fd : Nat
  cb : Nat
  arg : Nat
  data : Option (List Byte)
  len : Nat
  freeMem : Bool
  deriving DecidableEq, Repr

structure WriteCall where
  fd : Nat
  data : List Byte
  cb : Nat
  arg : Nat
  memoryOptions : Int
  nodeMemory : Bool
  dataMemory : Bool
  eventMemory : Bool
  deriving DecidableEq, Repr

structure Proc where
  registry : Registry
  writes : Links Unit ProcWriteNode
  queued : List (Nat × ProcWriteNode)
  ran : List (Nat × ProcWriteNode)
  dangling : Bool

def writeEvent : Callback := ⟨0,none,0⟩

def WriteCall.node (call : WriteCall) : ProcWriteNode :=
  let copies := call.memoryOptions = copyDataToWrite
  ⟨call.fd,call.cb,call.arg,if copies then some call.data else none,if copies then call.data.length else 0,
    decide (call.memoryOptions ≠ ignoreDataAfterWrite)⟩

def procNonblockingWriteCallback (proc : Proc) (call : WriteCall) : Option (Int × Proc) :=
  if call.nodeMemory = false then some (-1,proc)
  else if call.memoryOptions = copyDataToWrite ∧ call.dataMemory = false then some (-1,proc)
  else do
    let newNode := proc.writes.fresh
    let writes := proc.writes.alloc ⟨call.node,none⟩
    let (curr,writePending) ← writes.gather (fun pending node => pending || node.fd = call.fd)
      (writes.fresh + 1) (.head ()) false
    let linked ← writes.store curr (some newNode)
    let success := { proc with writes := linked, queued := proc.queued ++ [(newNode,call.node)] }
    if writePending then some (0,success)
    else
      let (registry,res) := evtFdAdd proc.registry call.fd .write (some writeEvent.cb) writeEvent.arg call.eventMemory
      if res < 0 then
        let unlinked ← linked.store curr none
        some (-1,{ proc with registry := registry, writes := unlinked.free newNode })
      else some (0,{ success with registry := registry })

def queue (proc : Proc) (call : WriteCall) : Proc :=
  match procNonblockingWriteCallback proc call with
  | none => { proc with dangling := true }
  | some (_,after) => after

def writeEventCallback (proc : Proc) (fd : Nat) (calls : List WriteCall) : Option (Int × Proc) := do
  let (curr,first) ← proc.writes.find (fun _ node => decide (node.fd = fd)) (.head ())
  match first with
  | none => some (eventRemove,proc)
  | some tx =>
    let node ← proc.writes.cells tx
    let called := exec queue proc calls
    let after ← called.writes.cells tx
    let writes ← called.writes.store curr after.next
    let freed := writes.free tx
    let (_,more) ← freed.find (fun _ node => decide (node.fd = fd)) curr
    some (if more.isSome then eventKeep else eventRemove,
      { called with writes := freed, ran := called.ran ++ [(tx,node.item)] })

def writeReady (proc : Proc) (fd : Nat) (calls : List WriteCall) : Proc :=
  let started := { proc with registry := dispatch proc.registry fd .write }
  match started.registry.running with
  | none => started
  | some run =>
    match writeEventCallback started run.fd calls with
    | none => { proc with dangling := true }
    | some (keep,returned) => { returned with registry := finish returned.registry run keep }

inductive Act where
  | write (call : WriteCall)
  | ready (fd : Nat) (calls : List WriteCall)
  deriving DecidableEq, Repr

def step (proc : Proc) : Act → Proc
  | .write call => queue proc call
  | .ready fd calls => writeReady proc fd calls

def Proc.init (registry : Registry) : Proc := ⟨registry,.empty,[],[],false⟩

def isFor (fd : Nat) (entry : Nat × ProcWriteNode) : Bool := entry.2.fd = fd

/- Every queued node of a descriptor has run or is pending, in its order, and the event is there
while one is pending. -/
structure Ordered (proc : Proc) (pending : List (Nat × ProcWriteNode)) : Prop where
  holds : proc.writes.Entries () pending
  sound : proc.dangling = false
  order : ∀ fd, proc.queued.filter (isFor fd) = proc.ran.filter (isFor fd) ++ pending.filter (isFor fd)
  once : (proc.queued.map Prod.fst).Nodup
  registered : ∀ fd, callbackOf proc.registry fd .write = if pending.any (isFor fd) then some writeEvent else none
  watched : ∀ fd, fd ∈ proc.registry.tables.eventSet .write ↔ pending.any (isFor fd) = true

def RunsFirst (proc : Proc) : Act → Prop
  | .write call => (queue proc call).ran = proc.ran
  | .ready fd calls => ∀ pending, proc.writes.Entries () pending → ¬Held proc.registry fd .write →
      (writeReady proc fd calls).ran = proc.ran ++ (pending.find? (isFor fd)).toList

structure Inv (proc : Proc) (pending : List (Nat × ProcWriteNode)) : Prop where
  holds : proc.writes.Entries () pending
  bounded : proc.writes.Bounded
  sound : proc.dangling = false
  order : ∀ fd, proc.queued.filter (isFor fd) = proc.ran.filter (isFor fd) ++ pending.filter (isFor fd)
  once : (proc.queued.map Prod.fst).Nodup
  fresh : ∀ entry ∈ proc.queued, entry.1 < proc.writes.fresh
  registry : FdRuns.Inv proc.registry
  registered : ∀ fd, callbackOf proc.registry fd .write = if pending.any (isFor fd) then some writeEvent else none

section
variable {proc : Proc} {call : WriteCall} {calls : List WriteCall} {pending before after : List (Nat × ProcWriteNode)}

theorem Inv.ordered (inv : Inv proc pending) : Ordered proc pending := by
  refine ⟨inv.holds,inv.sound,inv.order,inv.once,inv.registered,fun fd => ?_⟩
  have entry : FdCoherence.registered (proc.registry.view fd) .write = (callbackOf proc.registry fd .write).isSome := by
    rw [FdCoherence.registered, callbackOf]
    cases proc.registry.view fd with
    | none => rfl
    | some node => rfl
  rw [inv.registry.sound.exact.watched, entry, inv.registered]
  split
  · rename_i any
    exact iff_of_true rfl any
  · rename_i none_
    exact iff_of_false Bool.false_ne_true none_

structure Queues (proc proc' : Proc) (pending more : List (Nat × ProcWriteNode)) : Prop where
  inv : Inv proc' (pending ++ more)
  ran : proc'.ran = proc.ran
  running : proc'.registry.running = proc.registry.running
  flags : ∀ fd, pending.any (isFor fd) = true → flagOf proc'.registry fd .write = flagOf proc.registry fd .write

theorem Queues.same (inv : Inv proc pending) : Queues proc proc pending [] :=
  ⟨by rwa [List.append_nil],rfl,rfl,fun _ _ => rfl⟩

theorem pendingSeen (fd : Nat) (pending : List (Nat × ProcWriteNode)) (seen : Bool) :
    (pending.map Prod.snd).foldl (fun pending node => pending || decide (node.fd = fd)) seen = (seen || pending.any (isFor fd)) := by
  induction pending generalizing seen with
  | nil => simp
  | cons entry rest ih =>
    rw [List.map_cons, List.foldl_cons, ih, List.any_cons, ← Bool.or_assoc]
    rfl

theorem queueQueues (inv : Inv proc pending) (call : WriteCall) : ∃ more, Queues proc (queue proc call) pending more := by
  unfold queue procNonblockingWriteCallback
  by_cases noNode : call.nodeMemory = false
  · rw [if_pos noNode]
    exact ⟨[],.same inv⟩
  by_cases noCopy : call.memoryOptions = copyDataToWrite ∧ call.dataMemory = false
  · rw [if_neg noNode, if_pos noCopy]
    exact ⟨[],.same inv⟩
  rw [if_neg noNode, if_neg noCopy]
  obtain ⟨linked,stored,holds,bounded,fresh,back,undone,holds',bounded',fresh'⟩ :=
    entriesAppend inv.bounded inv.holds call.node
  have reached := entriesGather (allocBounded inv.bounded _) (inv.holds.alloc inv.bounded ⟨call.node,none⟩)
    (fun pending node => pending || decide (node.fd = call.fd)) false
  rw [pendingSeen, Bool.false_or] at reached
  simp only [reached,stored,undone,Option.bind_eq_bind,Option.bind_some]
  have queues : ∀ registry, FdRuns.Inv registry → (∀ fd, callbackOf registry fd .write =
      if (pending ++ [(proc.writes.fresh,call.node)]).any (isFor fd) then some writeEvent else none) →
      Inv { proc with
        writes := linked, queued := proc.queued ++ [(proc.writes.fresh,call.node)], registry := registry }
        (pending ++ [(proc.writes.fresh,call.node)]) := by
    intro registry good registered
    refine ⟨holds,bounded,inv.sound,fun fd => ?_,?_,fun entry member => ?_,good,registered⟩
    · rw [List.filter_append, List.filter_append, inv.order, List.append_assoc]
    · rw [List.map_append]
      refine List.nodup_append.mpr ⟨inv.once,List.nodup_singleton _,?_⟩
      intro address old address' new same
      obtain ⟨entry,member,rfl⟩ := List.mem_map.mp old
      have last : address' = proc.writes.fresh := by simpa using new
      have below := inv.fresh entry member
      omega
    · change entry.1 < linked.fresh
      rw [fresh]
      rcases List.mem_append.mp member with old | new
      · have below := inv.fresh entry old
        omega
      · rw [List.mem_singleton.mp new]
        exact Nat.lt_succ_self _
  have counted : ∀ fd, (pending ++ [(proc.writes.fresh,call.node)]).any (isFor fd) =
      (pending.any (isFor fd) || decide (call.fd = fd)) := by
    intro fd
    rw [List.any_append, List.any_cons, List.any_nil, Bool.or_false]
    rfl
  cases waiting : pending.any (isFor call.fd) with
  | true =>
    refine ⟨_,queues proc.registry inv.registry fun fd => ?_,rfl,rfl,fun _ _ => rfl⟩
    rw [inv.registered, counted]
    by_cases own : call.fd = fd
    · rw [← own, waiting, Bool.true_or]
    · rw [decide_eq_false own, Bool.or_false]
  | false =>
    have placed := inv.registry.sound.placed
    have good := addInv inv.registry call.fd .write writeEvent.cb writeEvent.arg call.eventMemory
    have running := addRunning proc.registry call.fd .write writeEvent.cb writeEvent.arg call.eventMemory
    have flags : ∀ fd, pending.any (isFor fd) = true → flagOf (evtFdAdd proc.registry call.fd .write (some writeEvent.cb)
        writeEvent.arg call.eventMemory).1 fd .write = flagOf proc.registry fd .write := by
      intro fd any
      refine addFlag placed _ _ _ (.inl fun own => ?_)
      rw [own, waiting] at any
      cases any
    by_cases failed : (evtFdAdd proc.registry call.fd .write (some writeEvent.cb) writeEvent.arg call.eventMemory).2 < 0
    · simp only [Bool.false_eq_true,if_false,if_pos failed]
      refine ⟨[],?_,rfl,running,flags⟩
      rw [List.append_nil]
      refine ⟨holds',bounded',inv.sound,inv.order,inv.once,fun entry member => ?_,good,fun fd => ?_⟩
      · have below := inv.fresh entry member
        change entry.1 < back.fresh
        omega
      · rcases addCases placed call.fd .write writeEvent.cb writeEvent.arg call.eventMemory with same | ⟨one,-⟩
        · simp only [same]
          exact inv.registered fd
        · rw [one] at failed
          cases failed
    · simp only [Bool.false_eq_true,if_false,if_neg failed]
      refine ⟨_,queues _ good fun fd => ?_,rfl,running,flags⟩
      have added : (evtFdAdd proc.registry call.fd .write (some writeEvent.cb) writeEvent.arg call.eventMemory).2 ≠ -1 := by
        omega
      rw [addCallback placed added, counted]
      by_cases own : call.fd = fd
      · rw [own, if_pos ⟨rfl,rfl⟩, decide_eq_true rfl, Bool.or_true]
        rfl
      · rw [if_neg fun both => own both.1.symm, decide_eq_false own, Bool.or_false, inv.registered]

theorem callsQueue (inv : Inv proc pending) (calls : List WriteCall) : ∃ more, Queues proc (exec queue proc calls) pending more := by
  induction calls generalizing proc pending with
  | nil => exact ⟨[],.same inv⟩
  | cons call rest ih =>
    obtain ⟨more,first⟩ := queueQueues inv call
    obtain ⟨last,later⟩ := ih first.inv
    refine ⟨more ++ last,?_,later.ran.trans first.ran,later.running.trans first.running,fun fd any => ?_⟩
    · rw [← List.append_assoc]
      exact later.inv
    · rw [exec, later.flags fd (by rw [List.any_append, any, Bool.true_or]), first.flags fd any]

theorem takeFirst {entry : Nat × ProcWriteNode} (misses : ∀ other ∈ before, isFor entry.2.fd other = false)
    (after : List (Nat × ProcWriteNode)) (fd : Nat) :
    (before ++ entry :: after).filter (isFor fd) = [entry].filter (isFor fd) ++ (before ++ after).filter (isFor fd) := by
  rw [List.filter_append, List.filter_append, ← List.singleton_append (l := after), List.filter_append]
  by_cases own : entry.2.fd = fd
  · have none_ : before.filter (isFor fd) = [] := by
      rw [List.filter_eq_nil_iff]
      intro other member
      rw [← own, misses other member]
      exact Bool.false_ne_true
    rw [none_, List.nil_append, List.nil_append]
  · have away : [entry].filter (isFor fd) = [] := by simp [isFor,own]
    rw [away, List.nil_append, List.nil_append]

theorem callbackRuns {entry : Nat × ProcWriteNode} (inv : Inv proc (before ++ entry :: after))
    (misses : ∀ other ∈ before, isFor entry.2.fd other = false) (calls : List WriteCall) :
    ∃ more called writes, Queues proc called (before ++ entry :: after) more ∧
      writeEventCallback proc entry.2.fd calls =
        some (if (before ++ (after ++ more)).any (isFor entry.2.fd) then eventKeep else eventRemove,
          { called with writes := writes, ran := proc.ran ++ [entry] }) ∧
      writes.Entries () (before ++ (after ++ more)) ∧ writes.Bounded ∧ writes.fresh = called.writes.fresh := by
  obtain ⟨more,queues⟩ := callsQueue inv calls
  have split : before ++ entry :: after ++ more = before ++ entry :: (after ++ more) := by simp
  have holds := queues.inv.holds
  rw [split] at holds
  have first := entriesFound (p := fun node : ProcWriteNode => decide (node.fd = entry.2.fd)) inv.bounded inv.holds misses (decide_eq_true rfl)
  obtain ⟨next,there⟩ := inv.holds.cell (List.mem_append_right before List.mem_cons_self)
  obtain ⟨next',there'⟩ := holds.cell (List.mem_append_right before List.mem_cons_self)
  obtain ⟨writes,stored,left,bounded,fresh⟩ := entriesRemove queues.inv.bounded holds there'
  obtain ⟨slot,found,rest,any⟩ := entriesRest (p := fun node : ProcWriteNode => decide (node.fd = entry.2.fd)) bounded left
  refine ⟨more,_,writes.free entry.1,queues,?_,left,bounded,fresh⟩
  have none_ : before.any (isFor entry.2.fd) = false := by
    rw [List.any_eq_false]
    exact fun other member => by rw [misses other member]; exact Bool.false_ne_true
  have keep : found.isSome = (before ++ (after ++ more)).any (isFor entry.2.fd) := by
    rw [List.any_append, none_, Bool.false_or, any]
    rfl
  unfold writeEventCallback
  simp only [first,there,there',stored,rest,keep,queues.ran,Option.bind_eq_bind,Option.bind_some]

theorem findSplit {fd : Nat} (any : pending.any (isFor fd) = true) : ∃ before entry after, pending = before ++ entry :: after ∧
    (∀ other ∈ before, isFor entry.2.fd other = false) ∧ entry.2.fd = fd ∧ pending.find? (isFor fd) = some entry := by
  have found : (pending.find? (isFor fd)).isSome = true := by simpa [List.find?_isSome] using any
  obtain ⟨entry,is⟩ := Option.isSome_iff_exists.mp found
  obtain ⟨own,before,after,split,misses⟩ := List.find?_eq_some_iff_append.mp is
  have own : entry.2.fd = fd := of_decide_eq_true own
  refine ⟨before,entry,after,split,fun other member => ?_,own,is⟩
  rw [own]
  simpa using misses other member

theorem findNone {fd : Nat} (none_ : pending.any (isFor fd) = false) : pending.find? (isFor fd) = none := by
  rw [List.find?_eq_none]
  exact fun entry member => List.any_eq_false.mp none_ entry member

theorem Inv.nonePending (inv : Inv proc pending) {fd : Nat} (absent : callbackOf proc.registry fd .write = none) :
    pending.any (isFor fd) = false := by
  rw [inv.registered] at absent
  split at absent
  · cases absent
  · exact Bool.eq_false_iff.mpr (by assumption)

theorem Inv.registryChanged (inv : Inv proc pending) {registry : Registry} (good : FdRuns.Inv registry)
    (same : ∀ fd, callbackOf registry fd .write = callbackOf proc.registry fd .write) :
    Inv { proc with registry := registry } pending :=
  ⟨inv.holds,inv.bounded,inv.sound,inv.order,inv.once,inv.fresh,good,fun fd => (same fd).trans (inv.registered fd)⟩

theorem returned {entry : Nat × ProcWriteNode} {called : Proc} {writes : Links Unit ProcWriteNode} {run : Running}
    {more : List (Nat × ProcWriteNode)} (queues : Queues proc called (before ++ entry :: after) more)
    (misses : ∀ other ∈ before, isFor entry.2.fd other = false)
    (holds : writes.Entries () (before ++ (after ++ more))) (bounded : writes.Bounded) (fresh : writes.fresh = called.writes.fresh)
    (running : proc.registry.running = some run) (link : run.slot = .link) (fd : run.fd = entry.2.fd) (event : run.event = .write)
    (flag : flagOf proc.registry run.fd .write = .running) :
    Inv { called with
      writes := writes, ran := proc.ran ++ [entry],
      registry := finish called.registry run
        (if (before ++ (after ++ more)).any (isFor entry.2.fd) then eventKeep else eventRemove) }
      (before ++ (after ++ more)) := by
  have inv := queues.inv
  have split : before ++ entry :: after ++ more = before ++ entry :: (after ++ more) := by simp
  rw [split] at inv
  have running' := queues.running.trans running
  refine ⟨holds,bounded,inv.sound,fun fd' => ?_,inv.once,fun other member => ?_,
    inv.registry.finish running' (.inl link),fun fd' => ?_⟩
  · have order := inv.order fd'
    rw [takeFirst misses, queues.ran, ← List.append_assoc, ← List.filter_append] at order
    exact order
  · change other.1 < writes.fresh
    rw [fresh]
    exact inv.fresh other member
  · have flag' : flagOf called.registry run.fd run.event = .running := by
      rw [event, queues.flags run.fd (by simp [isFor,fd]), flag]
    have counted : (before ++ entry :: (after ++ more)).any (isFor fd') =
        (decide (entry.2.fd = fd') || (before ++ (after ++ more)).any (isFor fd')) := by
      rw [List.any_append, List.any_cons, Bool.or_left_comm, ← List.any_append]
      rfl
    refine (finishCallback inv.registry running' link _ fd' .write).trans ?_
    rw [flag', inv.registered, counted, event, fd]
    by_cases own : entry.2.fd = fd'
    · subst own
      cases any : (before ++ (after ++ more)).any (isFor entry.2.fd) with
      | true => simp [removalAsked,eventKeep,eventRemove]
      | false => simp [removalAsked]
    · rw [decide_eq_false own, Bool.false_or, if_neg fun both => own both.1.1.symm]

theorem readyQuiet {fd : Nat} (quiet : (dispatch proc.registry fd .write).running = none) (calls : List WriteCall) :
    writeReady proc fd calls = { proc with registry := dispatch proc.registry fd .write } := by
  unfold writeReady
  dsimp only
  rw [quiet]

theorem readyReturned {fd : Nat} {run : Running} {keep : Int} {called : Proc}
    (running : (dispatch proc.registry fd .write).running = some run)
    (returns : writeEventCallback { proc with registry := dispatch proc.registry fd .write } run.fd calls = some (keep,called)) :
    writeReady proc fd calls = { called with registry := finish called.registry run keep } := by
  unfold writeReady
  dsimp only
  rw [running]
  dsimp only
  rw [returns]

theorem readyRuns (inv : Inv proc pending) (still : proc.registry.running = none) (fd : Nat) (calls : List WriteCall) :
    (∃ left, Inv (writeReady proc fd calls) left) ∧ (writeReady proc fd calls).registry.running = none ∧
      (¬Held proc.registry fd .write →
        (writeReady proc fd calls).ran = proc.ran ++ (pending.find? (isFor fd)).toList) := by
  have good := inv.registry.dispatch still fd .write
  rcases dispatchCases proc.registry fd .write with ⟨view,running,why⟩ | ⟨node,steps,found,starts⟩
  · have same : ∀ fd', callbackOf (dispatch proc.registry fd .write) fd' .write = callbackOf proc.registry fd' .write := by
      intro fd'
      rw [callbackOf, view, callbackOf]
    rw [readyQuiet (running.trans still)]
    refine ⟨⟨pending,inv.registryChanged good same⟩,running.trans still,fun free => ?_⟩
    have absent := why.resolve_right free
    rw [findNone (inv.nonePending (by rw [callbackOf, absent]; rfl))]
    exact (List.append_nil _).symm
  · have stepped : FdRuns.Inv { proc.registry with stepsToBreak := steps } := inv.registry.frame rfl rfl rfl rfl
    have here : ({ proc.registry with stepsToBreak := steps } : Registry).view node.fd = some node := by
      rw [FdCoherence.viewFd found]
      exact found
    have own : node.fd = fd := FdCoherence.viewFd found
    have same : ∀ fd', callbackOf (dispatch proc.registry fd .write) fd' .write = callbackOf proc.registry fd' .write := by
      intro fd'
      rw [starts]
      exact startCallback stepped still here .write .write fd'
    have begun := startRunning stepped still here .write
    have inv' := inv.registryChanged good same
    rw [← starts] at begun
    by_cases present : (node.cb .write).isSome = true
    · rw [if_pos present] at begun
      obtain ⟨⟨previous,running⟩,flag⟩ := begun
      have any : pending.any (isFor fd) = true := by
        by_contra none_
        have absent := inv.registered fd
        rw [if_neg none_, callbackFound found] at absent
        rw [absent] at present
        cases present
      obtain ⟨before,entry,after,split,misses,named,first⟩ := findSplit any
      subst split named
      obtain ⟨more,called,writes,queues,runs,holds,bounded,fresh⟩ := callbackRuns inv' misses calls
      rw [own] at running flag
      rw [readyReturned running runs, first]
      have left := returned queues misses holds bounded fresh running rfl rfl rfl flag
      exact ⟨⟨_,left⟩,rfl,fun _ => rfl⟩
    · rw [if_neg present] at begun
      rw [readyQuiet begun]
      refine ⟨⟨pending,inv'⟩,begun,fun _ => ?_⟩
      have absent : callbackOf proc.registry fd .write = none := by
        rw [callbackFound found]
        exact Option.not_isSome_iff_eq_none.mp present
      rw [findNone (inv.nonePending absent)]
      exact (List.append_nil _).symm

def Between (proc : Proc) : Prop := (∃ pending, Inv proc pending) ∧ proc.registry.running = none

theorem stepBetween (proc : Proc) (act : Act) (between : Between proc) : Between (step proc act) := by
  obtain ⟨⟨pending,inv⟩,still⟩ := between
  cases act with
  | write call =>
    obtain ⟨more,queues⟩ := queueQueues inv call
    exact ⟨⟨_,queues.inv⟩,queues.running.trans still⟩
  | ready fd calls =>
    obtain ⟨left,quiet,-⟩ := readyRuns inv still fd calls
    exact ⟨left,quiet⟩

theorem stepRuns (proc : Proc) (act : Act) (between : Between proc) : RunsFirst proc act := by
  obtain ⟨⟨pending,inv⟩,still⟩ := between
  cases act with
  | write call =>
    obtain ⟨more,queues⟩ := queueQueues inv call
    exact queues.ran
  | ready fd calls =>
    intro other holds free
    rw [← inv.holds.unique holds]
    exact (readyRuns inv still fd calls).2.2 free

end

structure Idle (registry : Registry) : Prop where
  inv : FdRuns.Inv registry
  still : registry.running = none
  none_ : ∀ fd, callbackOf registry fd .write = none

theorem initBetween {registry : Registry} (idle : Idle registry) : Between (.init registry) :=
  ⟨⟨[],⟨rfl,nofun⟩,fun _ _ => rfl,rfl,fun _ => rfl,List.nodup_nil,nofun,idle.inv,idle.none_⟩,idle.still⟩

/- Any order of calls and notifications, the calls of callbacks included: the nodes of each
descriptor run in the order they were queued, and the event is there while one is pending. -/
theorem writesOrdered {registry : Registry} (idle : Idle registry) (acts : List Act) :
    (∃ pending, Ordered (exec step (.init registry) acts) pending) ∧ Along step RunsFirst (.init registry) acts := by
  have start := initBetween idle
  refine ⟨?_,Runs.alongInvariant stepBetween stepRuns start acts⟩
  obtain ⟨⟨pending,inv⟩,-⟩ := Runs.execInvariant stepBetween start acts
  exact ⟨pending,inv.ordered⟩

theorem createIdle (hashSize : Nat) : Idle (evtCreateHandler hashSize) :=
  ⟨FdRuns.createInv hashSize,rfl,fun _ => rfl⟩

def copied (fd : Nat) (eventMemory : Bool) : WriteCall := ⟨fd,[1,2],7,0,copyDataToWrite,true,true,eventMemory⟩

def twoDescriptors : List Act := [.write (copied 5 true),.write (copied 24 true),.ready 5 [copied 5 true,copied 6 false],
  .ready 24 [],.ready 5 []]

theorem twoDescriptorsOrdered :
    (exec step (.init (evtCreateHandler 19)) twoDescriptors).ran.map Prod.fst = [0,1,2] ∧
    (∃ pending, Ordered (exec step (.init (evtCreateHandler 19)) twoDescriptors) pending) ∧
      Along step RunsFirst (.init (evtCreateHandler 19)) twoDescriptors :=
  ⟨by decide +kernel,writesOrdered (createIdle 19) twoDescriptors⟩

end LibProc.WriteQueue
