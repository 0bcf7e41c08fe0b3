import LibProc.FdRegistry
import LibProc.LinkedSlots
import LibProc.Runs

/-! Signal handlers of `proclib.c`. `PROC_signal` links its node at the head of `signalCBHead` before
it calls `sigaction`, and `signal_fd_cb` walks the list with the slot it came through while the
callbacks it runs may call `PROC_signal`. A signal number read from the pipe is one delivery. The
node of a registration is its address, and `registered` is the ghost list of those in force. -/
namespace LibProc.Signals
open LinkedSlots
open FdRegistry (eventKeep eventRemove)
open Runs (exec Along)

structure SignalCB where
  sigNum : Int
  cb : Nat
  arg : Nat
  recvdCnt : Int
  deriving DecidableEq, Repr

structure SignalCall where
  sigNum : Int
  cb : Nat
  arg : Nat
  memory : Bool
  sigaction : Bool
  deriving DecidableEq, Repr

structure Answer where
  calls : List SignalCall
  keep : Int
  deriving DecidableEq, Repr

structure Proc where
  signalWriteFD : Int
  sigPipe : Int
  signals : Links Unit SignalCB
  registered : List Nat
  dangling : Bool

def Proc.init (signalWriteFD sigPipe : Int) : Proc := ⟨signalWriteFD,sigPipe,.empty,[],false⟩

def Proc.Linking (proc : Proc) (call : SignalCall) : Prop :=
  proc.signalWriteFD ≠ -1 ∧ proc.sigPipe = proc.signalWriteFD ∧ call.memory = true

instance (proc : Proc) (call : SignalCall) : Decidable (proc.Linking call) := inferInstanceAs (Decidable (_ ∧ _))

def procSignal (proc : Proc) (call : SignalCall) : Int × Proc :=
  if proc.signalWriteFD = -1 then (-1,proc)
  else if proc.sigPipe ≠ proc.signalWriteFD then (-1,proc)
  else if call.memory = false then (-1,proc)
  else
    let curr := proc.signals.fresh
    let linked := { proc with signals := proc.signals.push () ⟨call.sigNum,call.cb,call.arg,0⟩ }
    -- the node is freed and stays linked
    if call.sigaction = false then (-1,{ linked with signals := linked.signals.free curr })
    else (0,{ linked with registered := curr :: proc.registered })

def signalled (proc : Proc) (call : SignalCall) : Proc := (procSignal proc call).2

def received (proc : Proc) (sigTmp : Nat) (cell : Cell SignalCB) : Proc :=
  { proc with signals := proc.signals.put sigTmp { cell with item.recvdCnt := cell.item.recvdCnt + 1 } }

def deliverFrom (signum : Int) (answer : Nat → Answer) : Nat → Proc → Slot Unit → List Nat → Option (List Nat × Proc)
  | 0,_,_,_ => none
  | turns + 1,proc,curr,ran => do
    match ← proc.signals.load curr with
    | none => some (ran,proc)
    | some sigTmp =>
      let node ← proc.signals.cells sigTmp
      if node.item.sigNum = signum then
        let keep := answer ran.length
        let called := exec signalled (received proc sigTmp node) keep.calls
        let after ← called.signals.cells sigTmp
        if keep.keep = eventRemove then
          let signals ← called.signals.store curr after.next
          let removed := { called with signals := signals.free sigTmp, registered := called.registered.erase sigTmp }
          deliverFrom signum answer turns removed curr (ran ++ [sigTmp])
        else deliverFrom signum answer turns called (.next sigTmp) (ran ++ [sigTmp])
      else deliverFrom signum answer turns proc (.next sigTmp) ran

def signalFdCb (signum : Int) (answer : Nat → Answer) (proc : Proc) : Option (List Nat × Proc) :=
  deliverFrom signum answer (proc.signals.fresh + 1) proc (.head ()) []

inductive Act where
  | signal (call : SignalCall)
  | deliver (signum : Int) (answer : Nat → Answer)

def step (proc : Proc) : Act → Proc
  | .signal call => signalled proc call
  | .deliver signum answer =>
    match signalFdCb signum answer proc with
    | none => { proc with dangling := true }
    | some (_,after) => after

def Proc.handles (proc : Proc) (signum : Int) (address : Nat) : Bool :=
  (proc.signals.cells address).any fun node => node.item.sigNum = signum

/- The handler list is the registrations in force, and no link to a freed node was followed. -/
structure Kept (proc : Proc) : Prop where
  lists : proc.signals.Lists () proc.registered
  sound : proc.dangling = false

def Invokes (proc : Proc) : Act → Prop
  | .signal _ => True
  | .deliver signum answer => ∃ after, signalFdCb signum answer proc =
      some (proc.registered.filter (proc.handles signum),after) ∧ (proc.registered.filter (proc.handles signum)).Nodup

/- While the handlers so far have all been removed, the walk still holds the head. -/
def HeadSafe (proc : Proc) (signum : Int) (answer : Nat → Answer) : List Nat → Nat → Prop
  | [],_ => True
  | sigTmp :: rest,turn => proc.handles signum sigTmp = true → (answer turn).keep = eventRemove →
      (∀ call ∈ (answer turn).calls, ¬proc.Linking call) ∧ HeadSafe proc signum answer rest (turn + 1)

def Proc.Accepts (proc : Proc) (call : SignalCall) : Prop := proc.Linking call → call.sigaction = true

def Safe (proc : Proc) : Act → Prop
  | .signal call => proc.Accepts call
  | .deliver signum answer =>
    (∀ turn < (proc.registered.filter (proc.handles signum)).length, ∀ call ∈ (answer turn).calls, proc.Accepts call) ∧
      HeadSafe proc signum answer proc.registered 0

section
variable {proc start : Proc} {call : SignalCall} {calls : List SignalCall} {signum : Int} {answer : Nat → Answer}
  {before rest : List Nat}

structure Inv (proc : Proc) : Prop extends Kept proc where
  bounded : proc.signals.Bounded

theorem initInv (signalWriteFD sigPipe : Int) : Inv (.init signalWriteFD sigPipe) :=
  ⟨⟨rfl,rfl⟩,fun _ _ => rfl⟩

theorem signalRefused (refused : ¬proc.Linking call) : signalled proc call = proc := by
  unfold signalled procSignal
  split
  · rfl
  split
  · rfl
  split
  · rfl
  · rename_i open_ same memory
    exact absurd ⟨open_,not_not.mp same,by simpa using memory⟩ refused

theorem signalLinked (linking : proc.Linking call) (accepts : call.sigaction = true) :
    signalled proc call = { proc with
      signals := proc.signals.push () ⟨call.sigNum,call.cb,call.arg,0⟩, registered := proc.signals.fresh :: proc.registered } := by
  obtain ⟨open_,same,memory⟩ := linking
  simp only [signalled,procSignal,if_neg open_,same,memory,accepts,ne_eq,not_true,reduceCtorEq,if_false]

structure Grown (proc proc' : Proc) (added : List Nat) : Prop where
  registered : proc'.registered = added ++ proc.registered
  fresh : proc.signals.fresh ≤ proc'.signals.fresh
  cells : ∀ address < proc.signals.fresh, proc'.signals.cells address = proc.signals.cells address
  signalWriteFD : proc'.signalWriteFD = proc.signalWriteFD
  sigPipe : proc'.sigPipe = proc.sigPipe

theorem signalGrows (inv : Inv proc) (accepts : proc.Accepts call) :
    Inv (signalled proc call) ∧ ∃ added, Grown proc (signalled proc call) added := by
  by_cases linking : proc.Linking call
  · rw [signalLinked linking (accepts linking)]
    refine ⟨⟨⟨pushLists inv.bounded _ inv.lists,inv.sound⟩,allocBounded inv.bounded _⟩,[proc.signals.fresh],?_⟩
    exact ⟨rfl,Nat.le_succ _,fun address below => allocOther _ _ (Nat.ne_of_lt below),rfl,rfl⟩
  · rw [signalRefused linking]
    exact ⟨inv,[],rfl,le_refl _,fun _ _ => rfl,rfl,rfl⟩

theorem Grown.accepts {proc' : Proc} {added : List Nat} (grown : Grown proc proc' added) (call : SignalCall) :
    proc'.Accepts call ↔ proc.Accepts call := by
  rw [Proc.Accepts, Proc.Accepts, Proc.Linking, Proc.Linking, grown.signalWriteFD, grown.sigPipe]

theorem callsGrow (inv : Inv proc) (accepts : ∀ call ∈ calls, proc.Accepts call) :
    Inv (exec signalled proc calls) ∧ ∃ added, Grown proc (exec signalled proc calls) added := by
  induction calls generalizing proc with
  | nil => exact ⟨inv,[],rfl,le_refl _,fun _ _ => rfl,rfl,rfl⟩
  | cons call more ih =>
    obtain ⟨inv',first,grown⟩ := signalGrows inv (accepts call List.mem_cons_self)
    obtain ⟨last,second,later⟩ := ih inv' fun other member =>
      (grown.accepts other).mpr (accepts other (List.mem_cons_of_mem _ member))
    refine ⟨last,second ++ first,?_,le_trans grown.fresh later.fresh,fun address below => ?_,?_,?_⟩
    · rw [exec, later.registered, grown.registered, List.append_assoc]
    · rw [exec, later.cells address (lt_of_lt_of_le below grown.fresh), grown.cells address below]
    · rw [exec, later.signalWriteFD, grown.signalWriteFD]
    · rw [exec, later.sigPipe, grown.sigPipe]

theorem callsRefused (refused : ∀ call ∈ calls, ¬proc.Linking call) : exec signalled proc calls = proc := by
  induction calls with
  | nil => rfl
  | cons call more ih =>
    rw [exec, signalRefused (refused call List.mem_cons_self)]
    exact ih fun other member => refused other (List.mem_cons_of_mem _ member)

theorem answered (inv : Inv proc) {sigTmp : Nat} {node : Cell SignalCB} (there : proc.signals.cells sigTmp = some node)
    (accepts : ∀ call ∈ calls, proc.Accepts call) :
    Inv (exec signalled (received proc sigTmp node) calls) ∧
      ∃ added, Grown (received proc sigTmp node) (exec signalled (received proc sigTmp node) calls) added := by
  refine callsGrow ⟨⟨?_,inv.sound⟩,putBounded there inv.bounded _⟩ accepts
  exact putFrame there rfl inv.lists

structure Sees (start proc : Proc) (signum : Int) (rest : List Nat) : Prop where
  handles : ∀ address ∈ rest, proc.handles signum address = start.handles signum address
  signalWriteFD : proc.signalWriteFD = start.signalWriteFD
  sigPipe : proc.sigPipe = start.sigPipe

theorem Sees.linking (sees : Sees start proc signum rest) (call : SignalCall) : proc.Linking call ↔ start.Linking call := by
  rw [Proc.Linking, Proc.Linking, sees.signalWriteFD, sees.sigPipe]

theorem Sees.accepts (sees : Sees start proc signum rest) (call : SignalCall) : proc.Accepts call ↔ start.Accepts call := by
  rw [Proc.Accepts, Proc.Accepts, sees.linking]

theorem Sees.later {sigTmp : Nat} {node : Cell SignalCB} {called : Proc} {added : List Nat}
    (sees : Sees start proc signum (sigTmp :: rest)) (lists : proc.signals.Lists () (before ++ sigTmp :: rest))
    (bounded : proc.signals.Bounded) (grown : Grown (received proc sigTmp node) called added) :
    Sees start called signum rest := by
  refine ⟨fun address member => ?_,grown.signalWriteFD.trans sees.signalWriteFD,grown.sigPipe.trans sees.sigPipe⟩
  have member' : address ∈ before ++ sigTmp :: rest := List.mem_append_right _ (List.mem_cons_of_mem _ member)
  obtain ⟨cell,there⟩ := lists.cell member'
  have different : address ≠ sigTmp := by
    rintro rfl
    exact (List.nodup_cons.mp (List.nodup_append.mp lists.nodup).2.1).1 member
  have same : called.signals.cells address = proc.signals.cells address := by
    rw [grown.cells address (bounded.below there)]
    exact putOther _ _ different
  rw [← sees.handles address (List.mem_cons_of_mem _ member), Proc.handles, same, Proc.handles]

theorem removed {sigTmp : Nat} {cell : Cell SignalCB} (inv : Inv proc) (registered : proc.registered = before ++ sigTmp :: rest)
    (there : proc.signals.cells sigTmp = some cell) (signum : Int) :
    ∃ signals, proc.signals.store ((Slot.head ()).after before) cell.next = some signals ∧
      Inv { proc with signals := signals.free sigTmp, registered := proc.registered.erase sigTmp } ∧
      proc.registered.erase sigTmp = before ++ rest ∧
      ∀ address ∈ rest, proc.handles signum address = ({ proc with
        signals := signals.free sigTmp, registered := proc.registered.erase sigTmp } : Proc).handles signum address := by
  have lists := inv.lists
  rw [registered] at lists
  have distinct := List.nodup_append.mp lists.nodup
  have outside : sigTmp ∉ before := fun member => distinct.2.2 sigTmp member sigTmp List.mem_cons_self rfl
  have once := (List.nodup_cons.mp distinct.2.1).1
  have erased : proc.registered.erase sigTmp = before ++ rest := by
    rw [registered, List.erase_append_right _ outside, List.erase_cons_head]
  obtain ⟨signals,stored,relisted,relinked,-⟩ := unlink lists there
  refine ⟨signals,stored,⟨⟨?_,inv.sound⟩,freeBounded (relinked.bounded inv.bounded) _⟩,erased,fun address member => ?_⟩
  · rw [erased]
    exact freeLists relisted (by simp [outside,once])
  · have different : address ≠ sigTmp := fun same => once (same ▸ member)
    have away : address ∉ before := fun inside =>
      distinct.2.2 address inside address (List.mem_cons_of_mem _ member) rfl
    rw [Proc.handles, Proc.handles, freeOther _ different, relinked.others address away]

theorem delivers (turns : Nat) (enough : rest.length < turns) (inv : Inv proc) (registered : proc.registered = before ++ rest)
    (sees : Sees start proc signum rest) (ran : List Nat)
    (accepts : ∀ turn < ran.length + (rest.filter (start.handles signum)).length,
      ∀ call ∈ (answer turn).calls, start.Accepts call)
    (head : before = [] → HeadSafe start signum answer rest ran.length) :
    ∃ after, deliverFrom signum answer turns proc ((Slot.head ()).after before) ran =
      some (ran ++ rest.filter (start.handles signum),after) ∧ Inv after := by
  induction rest generalizing proc before ran turns with
  | nil =>
    obtain ⟨more,rfl⟩ := Nat.exists_eq_add_of_lt enough
    have lists := inv.lists
    rw [registered, List.append_nil] at lists
    have here : proc.signals.load ((Slot.head ()).after before) = some none := loadAfter rfl lists
    refine ⟨proc,?_,inv⟩
    rw [deliverFrom, here]
    simp
  | cons sigTmp rest ih =>
    obtain ⟨more,rfl⟩ : ∃ more, turns = more + 1 := ⟨turns - 1,by omega⟩
    have enough : rest.length < more := by
      rw [List.length_cons] at enough
      omega
    have lists := inv.lists
    rw [registered] at lists
    obtain ⟨mid,reached,at_,node,there,-⟩ := segAppend.mp lists
    have here : proc.signals.load ((Slot.head ()).after before) = some (some sigTmp) := at_ ▸ loadAfter rfl reached
    have handled : decide (node.item.sigNum = signum) = start.handles signum sigTmp := by
      rw [← sees.handles sigTmp List.mem_cons_self, Proc.handles, there, Option.any_some]
    rw [deliverFrom, here]
    simp only [Option.bind_eq_bind,Option.bind_some,there]
    cases is : start.handles signum sigTmp with
    | false =>
      rw [is, decide_eq_false_iff_not] at handled
      rw [if_neg handled, List.filter_cons_of_neg (by simp [is]), ← afterConcat (.head ()) before sigTmp]
      refine ih more enough inv (by rw [registered, List.append_assoc]; rfl) ?_ ran ?_ (by simp)
      · exact ⟨fun address member => sees.handles address (List.mem_cons_of_mem _ member),sees.signalWriteFD,sees.sigPipe⟩
      · rw [List.filter_cons_of_neg (by simp [is])] at accepts
        exact accepts
    | true =>
      rw [is, decide_eq_true_iff] at handled
      rw [List.filter_cons_of_pos is] at accepts
      rw [if_pos handled, List.filter_cons_of_pos is]
      obtain ⟨inv',added,grown⟩ := answered inv there fun call member =>
        (sees.accepts call).mpr (accepts ran.length (by simp) call member)
      have later := sees.later lists inv.bounded grown
      have after : (exec signalled (received proc sigTmp node) (answer ran.length).calls).signals.cells sigTmp =
          some { node with item.recvdCnt := node.item.recvdCnt + 1 } := by
        rw [grown.cells sigTmp (inv.bounded.below there)]
        exact putSelf _ _ _
      have listed : (exec signalled (received proc sigTmp node) (answer ran.length).calls).registered =
          (added ++ before) ++ sigTmp :: rest := by
        rw [grown.registered, List.append_assoc]
        exact congrArg _ registered
      have accepts' : ∀ turn < (ran ++ [sigTmp]).length + (rest.filter (start.handles signum)).length,
          ∀ call ∈ (answer turn).calls, start.Accepts call := by
        intro turn below
        refine accepts turn ?_
        simp only [List.length_append,List.length_cons,List.length_nil] at below ⊢
        omega
      have kept : (answer ran.length).keep = eventRemove → before = [] → added = [] := by
        intro remove first
        have refused := (head first is remove).1
        have same := grown.registered
        have still : exec signalled (received proc sigTmp node) (answer ran.length).calls = received proc sigTmp node :=
          callsRefused fun call member linking => refused call member ((sees.linking call).mp linking)
        rw [still] at same
        exact List.self_eq_append_left.mp same
      rw [List.append_cons ran sigTmp (rest.filter _)]
      generalize (exec signalled (received proc sigTmp node) (answer ran.length).calls) = called at *
      simp only [after,Option.bind_some]
      split
      · rename_i remove
        have slot : (Slot.head ()).after before = (Slot.head ()).after (added ++ before) := by
          by_cases first : before = []
          · rw [kept remove first, List.nil_append]
          · rw [afterAppend _ _ first]
        obtain ⟨signals,stored,last,erased,same⟩ := removed inv' listed after signum
        rw [slot, stored, Option.bind_some]
        refine ih more enough last erased ⟨fun address member => ?_,later.signalWriteFD,later.sigPipe⟩ _ accepts' ?_
        · rw [← same address member, later.handles address member]
        · intro none_
          rw [List.length_append]
          exact (head (List.append_eq_nil_iff.mp none_).2 is remove).2
      · rw [← afterConcat (.head ()) (added ++ before) sigTmp]
        exact ih more enough inv' (by rw [listed, List.append_cons]) later _ accepts' (by simp)

theorem signalInvokes (inv : Inv proc) (safe : Safe proc (.deliver signum answer)) : ∃ after, signalFdCb signum answer proc =
    some (proc.registered.filter (proc.handles signum),after) ∧ Inv after := by
  have enough : proc.registered.length < proc.signals.fresh + 1 := Nat.lt_succ_of_le (inv.bounded.length inv.lists)
  exact delivers _ enough inv (List.nil_append _).symm ⟨fun _ _ => rfl,rfl,rfl⟩ [] (by simpa using safe.1) fun _ => safe.2

theorem stepInv (proc : Proc) (act : Act) (inv : Inv proc) (safe : Safe proc act) : Inv (step proc act) := by
  cases act with
  | signal call => exact (signalGrows inv safe).1
  | deliver signum answer =>
    obtain ⟨after,ran,inv'⟩ := signalInvokes inv safe
    rw [step, ran]
    exact inv'

theorem stepInvokes (proc : Proc) (act : Act) (inv : Inv proc) (safe : Safe proc act) : Invokes proc act := by
  cases act with
  | signal call => trivial
  | deliver signum answer =>
    obtain ⟨after,ran,-⟩ := signalInvokes inv safe
    exact ⟨after,ran,inv.lists.nodup.filter _⟩

/- No registration is lost or left dangling in a run of accepted calls, and every signal reaches
the handlers it was registered for. -/
theorem registrationsKept (signalWriteFD sigPipe : Int) (acts : List Act)
    (safe : Along step Safe (.init signalWriteFD sigPipe) acts) :
    Kept (exec step (.init signalWriteFD sigPipe) acts) ∧ Along step Invokes (.init signalWriteFD sigPipe) acts :=
  ⟨(safe.invariant stepInv (initInv _ _)).toKept,safe.given stepInv stepInvokes (initInv _ _)⟩

end

def hangUp (sigaction : Bool) : SignalCall := ⟨1,7,0,true,sigaction⟩

def rearmed : List Act := [.signal (hangUp true),.signal ⟨15,8,0,true,true⟩,.deliver 1 fun _ => ⟨[hangUp true],eventRemove⟩]

theorem rearmedKept : (exec step (.init 4 4) rearmed).registered = [2,1] ∧
    Kept (exec step (.init 4 4) rearmed) ∧ Along step Invokes (.init 4 4) rearmed := by
  refine ⟨rfl,registrationsKept 4 4 rearmed ⟨fun _ => rfl,fun _ => rfl,⟨fun _ _ call member _ => ?_,?_⟩,trivial⟩⟩
  · rw [List.mem_singleton.mp member]
    rfl
  · intro handles
    exact absurd handles (by decide)

/- A bad signal number leaves a freed node at the head; a handler at the head that re-registers
and is removed takes the new node with it. -/
theorem registrationsLost : ¬Kept (exec step (.init 4 4) [.signal (hangUp false)]) ∧
    ¬Kept (exec step (.init 4 4) [.signal (hangUp true),.deliver 1 fun _ => ⟨[hangUp true],eventRemove⟩]) := by
  refine ⟨fun kept => ?_,fun kept => ?_⟩
  · have empty : some 0 = none := kept.lists
    cases empty
  · have first : none = some 1 := kept.lists.1
    cases first

end LibProc.Signals
