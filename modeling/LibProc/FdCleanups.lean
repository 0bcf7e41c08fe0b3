import LibProc.FdCallbacks
import LibProc.FdCounter
import LibProc.Ledgers

/-! Who is cleaned up, and how often. Every addition that succeeds is an entry of a ledger, open
until its registration is gone or replaced; each step of the registry calls the cleanups
that are due to the entries it closes, and the teardown of the handler closes the rest. -/
namespace LibProc.FdCleanups
open HashBuckets Runs FdRegistry FdCoherence FdDispatch FdCallbacks Ledgers

def freeHead (i : Nat) (registry : Registry) (event : FdEvent) : Registry :=
  match registry.events i with
  | [] => registry
  | node :: rest =>
    let (tables,left) := unlink .link (evtRemoveInternal registry.tables node event)
    { registry with tables := tables, events := Function.update registry.events i (left.toList ++ rest) }

/- The loop over a bucket. More turns than nodes would be a loop without an end. -/
def freeBucket (i : Nat) : Nat → Registry → Option Registry
  | 0,_ => none
  | turns + 1,registry =>
    if (registry.events i).isEmpty then some registry
    else freeBucket i turns (FdEvent.all.foldl (freeHead i) registry)

def evtFreeHandler (registry : Registry) : Option Registry :=
  (List.range registry.hashSize).foldlM (fun registry i => freeBucket i ((registry.events i).length + 1) registry) registry

inductive Ending where
  | removed
  | overwritten
  | takenOver
  deriving DecidableEq, Repr

def cleanupDue (key : Nat × FdEvent) (callback : Callback) : Ending → List (Nat × FdEvent × Nat)
  | .removed => cleaned callback key.2
  | .overwritten => cleaned callback key.2
  | .takenOver => []

abbrev Registration := Entry (Nat × FdEvent) Callback Ending

def tableOf (registry : Registry) (key : Nat × FdEvent) : Option Callback := callbackOf registry key.1 key.2

/- A new registration ends the one it replaces, and takes it over if the argument is the same. -/
def replacement (old : Option Callback) (arg : Nat) : Ending :=
  if old.any fun callback => callback.arg = arg then .takenOver else .overwritten

/- The ledger of a step: an addition that succeeds replaces what is there; any other registration
that is gone after the step was removed. -/
def record (registry : Registry) (act : Act) (ledger : List Registration) : List Registration :=
  match act with
  | .call (.add fd event (some cb) cleanup arg memory) =>
    if (evtFdAddWithCleanup registry fd event (some cb) cleanup arg memory).2 = 1 then
      close (fun key => decide (key = (fd,event))) (replacement (callbackOf registry fd event) arg) ledger ++
        [⟨(fd,event),⟨cb,cleanup,arg⟩,none⟩]
    else ledger
  | act => sweep (tableOf (step registry act)) .removed ledger

def ledgerOf : Registry → List Act → List Registration → List Registration
  | _,[],ledger => ledger
  | registry,act :: rest,ledger => ledgerOf (step registry act) rest (record registry act ledger)

inductive Effect (registry after : Registry) : Prop where
  | quiet (table : tableOf after = tableOf registry) (log : after.tables.cleanups = registry.tables.cleanups)
  | removed (key : Nat × FdEvent) (old : Callback) (was : tableOf registry key = some old)
      (table : tableOf after = Function.update (tableOf registry) key none)
      (log : after.tables.cleanups = registry.tables.cleanups ++ cleaned old key.2)

def Clears (event : FdEvent) (tables tables' : Tables) (node : EventCB) (left : Option EventCB) : Prop :=
  (∀ other, (left.bind fun node => node.cb other) = Function.update node.cb event none other) ∧
    tables'.cleanups = tables.cleanups ++ ((node.cb event).map fun callback => cleaned callback event).getD []

def Leaves (tables tables' : Tables) (node : EventCB) (left : Option EventCB) : Prop :=
  (∀ other, (left.bind fun node => node.cb other) = node.cb other) ∧ tables'.cleanups = tables.cleanups

section Nodes
variable {tables : Tables} {node : EventCB} {event : FdEvent} {keep : Int}

theorem lowerMaxFdsLog (tables : Tables) (event : FdEvent) (fd : Nat) :
    (lowerMaxFds fd event tables).cleanups = tables.cleanups := by
  unfold lowerMaxFds
  split
  · split <;> rfl
  · rfl

theorem removedLog (tables : Tables) (node : EventCB) (event : FdEvent) : (evtRemoveInternal tables node event).1.cleanups =
    tables.cleanups ++ ((node.cb event).map fun callback => cleaned callback event).getD [] := by
  rw [evtRemoveInternal]
  cases present : node.cb event with
  | none => exact (List.append_nil _).symm
  | some callback =>
    dsimp only
    split <;> exact lowerMaxFdsLog _ event node.fd

theorem unlinkClears (tables : Tables) (node : EventCB) (event : FdEvent) :
    Clears event tables (unlink .link (evtRemoveInternal tables node event)).1 node
      (unlink .link (evtRemoveInternal tables node event)).2 := by
  have log := removedLog tables node event
  by_cases delete : (evtRemoveInternal tables node event).2.2 = true
  · rw [unlinkDrop delete]
    refine ⟨fun other => ?_,log⟩
    rw [removedDelete, Bool.and_eq_true, emptyIff] at delete
    exact (delete.2 other).symm
  · rw [unlinkKeep delete]
    refine ⟨fun other => ?_,log⟩
    rw [Option.bind_some, removedNode]

theorem leaveEffect (tables : Tables) (node : EventCB) (event : FdEvent) (keep : Int) :
    Clears event tables (leave .link event keep tables node).1 node (leave .link event keep tables node).2 ∨
      Leaves tables (leave .link event keep tables node).1 node (leave .link event keep tables node).2 := by
  rw [leave]
  split
  · exact .inl (unlinkClears tables (quieted node event) event)
  · exact .inr ⟨fun other => rfl,rfl⟩

theorem actEffect {c : Call} (none_ : ∀ fd event cb cleanup arg memory, c ≠ .add fd event (some cb) cleanup arg memory)
    (tables : Tables) (node : EventCB) :
    (∃ event, Clears event tables (act c tables node).1 node (act c tables node).2) ∨
      Leaves tables (act c tables node).1 node (act c tables node).2 := by
  have removal : ∀ event, (∃ event', Clears event' tables (removeUnlessRunning event tables node).1 node
      (removeUnlessRunning event tables node).2) ∨
      Leaves tables (removeUnlessRunning event tables node).1 node (removeUnlessRunning event tables node).2 := by
    intro event
    rw [removeUnlessRunning]
    split
    · exact .inl ⟨event,unlinkClears tables node event⟩
    · exact .inr ⟨fun other => rfl,rfl⟩
  have refresh : ∀ node' : EventCB, node'.cb = node.cb → Leaves tables (refreshAll tables node').1 node (refreshAll tables node').2 := by
    intro node' same
    exact ⟨fun other => by rw [refreshAll, Option.bind_some, same],by rw [refreshAllEq]⟩
  cases c with
  | add fd event cb cleanup arg memory =>
    cases cb with
    | none => exact removal event
    | some cb => exact absurd rfl (none_ fd event cb cleanup arg memory)
  | remove fd event => exact removal event
  | forceRemove fd event =>
    rw [act, forceRemove]
    split
    · exact .inl ⟨event,unlinkClears tables node event⟩
    · exact .inr ⟨fun other => rfl,rfl⟩
  | setPausable fd pausable => exact .inr (refresh { node with pausable := pausable } rfl)
  | setPaused fd paused => exact .inr (refresh { node with breakpoint := fun _ => paused } rfl)

theorem installEffect (tables : Tables) (node : EventCB) (event : FdEvent) (callback : Callback) :
    (∀ other, ((install event callback tables node).2.bind fun node => node.cb other) =
        Function.update node.cb event (some callback) other) ∧
      (install event callback tables node).1.cleanups = tables.cleanups ++
        ((node.cb event).map fun old => overwritten old callback event).getD [] := by
  have counted : (countCallback event callback tables node).cleanups = tables.cleanups ++
      ((node.cb event).map fun old => overwritten old callback event).getD [] := by
    rw [countCallback]
    cases node.cb event with
    | none => exact (List.append_nil _).symm
    | some old => rfl
  rw [install]
  dsimp only
  split
  · exact ⟨fun other => rfl,counted⟩
  · exact ⟨fun other => rfl,counted⟩

end Nodes

section Effects
variable {registry : Registry} {node : EventCB} {fd : Nat} {event : FdEvent} {f : Tables → EventCB → Tables × Option EventCB}

theorem tableUpdate {after : Registry} {entry : Option EventCB} (view : after.view = Function.update registry.view fd entry)
    (key : Nat × FdEvent) :
    tableOf after key = if key.1 = fd then entry.bind fun node => node.cb key.2 else tableOf registry key :=
  callbackUpdate view key.1 key.2

theorem tableFound (found : registry.view fd = some node) {key : Nat × FdEvent} (own : key.1 = fd) :
    tableOf registry key = node.cb key.2 := by
  rw [tableOf, own]
  exact callbackFound found key.2

theorem tableCleared {after : Registry} {entry : Option EventCB} {new : Option Callback}
    (found : registry.view fd = some node) (view : after.view = Function.update registry.view fd entry)
    (cb : ∀ other, (entry.bind fun node => node.cb other) = Function.update node.cb event new other) :
    tableOf after = Function.update (tableOf registry) (fd,event) new := by
  funext key
  rw [tableUpdate view]
  by_cases own : key.1 = fd
  · rw [if_pos own, cb]
    by_cases same : key.2 = event
    · rw [same, Function.update_self, show key = (fd,event) from Prod.ext own same, Function.update_self]
    · rw [Function.update_of_ne same, Function.update_of_ne fun is => same (congrArg Prod.snd is), tableFound found own]
  · rw [if_neg own, Function.update_of_ne fun is => own (congrArg Prod.fst is)]

theorem tableLeft {after : Registry} {entry : Option EventCB} (found : registry.view fd = some node)
    (view : after.view = Function.update registry.view fd entry)
    (cb : ∀ other, (entry.bind fun node => node.cb other) = node.cb other) : tableOf after = tableOf registry := by
  funext key
  rw [tableUpdate view]
  by_cases own : key.1 = fd
  · rw [if_pos own, cb, tableFound found own]
  · rw [if_neg own]

theorem nodeEffect {after : Registry} {entry : Option EventCB} (found : registry.view fd = some node)
    (view : after.view = Function.update registry.view fd entry)
    (does : (∃ event, Clears event registry.tables after.tables node entry) ∨ Leaves registry.tables after.tables node entry) :
    Effect registry after := by
  rcases does with ⟨event,cb,log⟩ | ⟨cb,log⟩
  · have table := tableCleared found view cb
    have here : tableOf registry (fd,event) = node.cb event := tableFound found rfl
    cases present : node.cb event with
    | none =>
      rw [present] at here log
      refine .quiet ?_ (by simpa using log)
      rw [table, ← here, Function.update_eq_self]
    | some old =>
      rw [present] at here log
      exact .removed (fd,event) old here table log
  · exact .quiet (tableLeft found view cb) log

theorem walkEffect (placed : Placed EventCB.fd registry.hashSize registry.events) (found : registry.view fd = some node)
    (keeps : ∀ left, (f registry.tables node).2 = some left → left.fd = node.fd)
    (does : (∃ event, Clears event registry.tables (f registry.tables node).1 node (f registry.tables node).2) ∨
      Leaves registry.tables (f registry.tables node).1 node (f registry.tables node).2) :
    Effect registry (registry.walk fd f) := by
  obtain ⟨tables,-,view⟩ := walkFound placed found keeps
  refine nodeEffect found view ?_
  rwa [tables]

theorem Effect.frame {after other : Registry} (effect : Effect registry after) (events : other.events = after.events)
    (size : other.hashSize = after.hashSize) (log : other.tables.cleanups = after.tables.cleanups) : Effect registry other := by
  have table : tableOf other = tableOf after := by
    funext key
    rw [tableOf, tableOf, callbackOf, callbackOf, Registry.view, Registry.view, events, size]
  cases effect with
  | quiet same log' => exact .quiet (table.trans same) (log.trans log')
  | removed key old was cleared log' => exact .removed key old was (table.trans cleared) (log.trans log')

theorem Effect.since {before after : Registry} (effect : Effect registry after) (table : tableOf before = tableOf registry)
    (log : before.tables.cleanups = registry.tables.cleanups) : Effect before after := by
  cases effect with
  | quiet same log' => exact .quiet (same.trans table.symm) (log'.trans log.symm)
  | removed key old was cleared log' =>
    exact .removed key old (table ▸ was) (by rw [table]; exact cleared) (by rw [log]; exact log')

def installs : Call → Bool
  | .add _ _ cb _ _ _ => cb.isSome
  | _ => false

theorem callEffect (placed : Placed EventCB.fd registry.hashSize registry.events) {c : Call} (other : ¬installs c = true) :
    Effect registry (call registry c) := by
  have none_ : ∀ fd event cb cleanup arg memory, c ≠ .add fd event (some cb) cleanup arg memory := by
    rintro fd event cb cleanup arg memory rfl
    exact other rfl
  have walks : call registry c = registry.walk c.fd (act c) := by
    cases c with
    | add fd event cb cleanup arg memory =>
      cases cb with
      | none => rfl
      | some cb => exact absurd rfl (none_ fd event cb cleanup arg memory)
    | remove => rfl
    | forceRemove => rfl
    | setPausable => rfl
    | setPaused => rfl
  rw [walks]
  cases found : registry.view c.fd with
  | none =>
    rw [walkAbsent found]
    exact .quiet rfl rfl
  | some node => exact walkEffect placed found (fun left is => actFd is) (actEffect none_ registry.tables node)

theorem startEffect (placed : Placed EventCB.fd registry.hashSize registry.events) {node : EventCB}
    (found : registry.view node.fd = some node) (event : FdEvent) : Effect registry (start .link registry node event) := by
  unfold start
  split
  next =>
    rw [walkFirstAll placed]
    have entered_ : Effect registry (registry.walk node.fd (enter event)) :=
      walkEffect placed found (fun left is => by cases is; rfl) (.inr ⟨fun _ => rfl,rfl⟩)
    exact entered_.frame rfl rfl rfl
  next =>
    rw [walkFirstAll placed]
    exact walkEffect placed found (fun left is => FdCounter.leaveFd is)
      ((leaveEffect registry.tables node event eventKeep).imp (fun clears => ⟨event,clears⟩) id)

theorem dispatchEffect (placed : Placed EventCB.fd registry.hashSize registry.events) (fd : Nat) (event : FdEvent) :
    Effect registry (dispatch registry fd event) := by
  unfold dispatch
  cases found : registry.view fd with
  | none => exact .quiet rfl rfl
  | some node =>
    have own := viewFd found
    subst own
    dsimp only
    split
    · split
      · exact .quiet rfl rfl
      · let paused : Registry := {registry with stepsToBreak := registry.stepsToBreak - 1}
        have started := startEffect (show Placed EventCB.fd paused.hashSize paused.events from placed) found event
        exact started.since rfl rfl
    · exact startEffect placed found event

theorem finishEffect (placed : Placed EventCB.fd registry.hashSize registry.events) {run : Running} (link : run.slot = .link)
    (keep : Int) : Effect registry (finish registry run keep) := by
  unfold finish resume
  rw [link]
  split
  next =>
    have counted : Placed EventCB.fd registry.countEvent.hashSize registry.countEvent.events := placed
    rw [walkFirstAll counted]
    cases found : registry.countEvent.view run.fd with
    | none =>
      rw [walkAbsent found]
      exact .quiet rfl rfl
    | some node =>
      have left : Effect registry.countEvent (registry.countEvent.walk run.fd (leave .link run.event keep)) :=
        walkEffect counted found (fun left is => FdCounter.leaveFd is)
          ((leaveEffect registry.countEvent.tables node run.event keep).imp (fun clears => ⟨run.event,clears⟩) id)
      exact Effect.since (left.frame rfl rfl rfl) rfl rfl
  next => exact .quiet rfl rfl

theorem addEffect (placed : Placed EventCB.fd registry.hashSize registry.events) (fd : Nat) (event : FdEvent) (cb : Nat)
    (cleanup : Option Nat) (arg : Nat) (memory : Bool) :
    (evtFdAddWithCleanup registry fd event (some cb) cleanup arg memory = (registry,-1)) ∨
      ((evtFdAddWithCleanup registry fd event (some cb) cleanup arg memory).2 = 1 ∧
        tableOf (evtFdAddWithCleanup registry fd event (some cb) cleanup arg memory).1 =
          Function.update (tableOf registry) (fd,event) (some ⟨cb,cleanup,arg⟩) ∧
        (evtFdAddWithCleanup registry fd event (some cb) cleanup arg memory).1.tables.cleanups = registry.tables.cleanups ++
          ((tableOf registry (fd,event)).map fun old => overwritten old ⟨cb,cleanup,arg⟩ event).getD []) := by
  unfold evtFdAddWithCleanup
  have keeps : ∀ tables (node left : EventCB), (install event ⟨cb,cleanup,arg⟩ tables node).2 = some left → left.fd = node.fd := by
    intro tables node left is
    rw [installLeft is]
    split <;> rfl
  cases found : registry.view fd with
  | some node =>
    obtain ⟨tables,-,view⟩ := walkFound placed found (keeps registry.tables node)
    obtain ⟨cb_,log⟩ := installEffect registry.tables node event ⟨cb,cleanup,arg⟩
    dsimp only
    rw [walkFirstAll placed]
    refine .inr ⟨rfl,tableCleared found view cb_,?_⟩
    rw [tables, log, tableFound found rfl]
  | none =>
    cases memory with
    | false => exact .inl rfl
    | true =>
      obtain ⟨fresh,added⟩ := addNodePlaced placed found
      have here : (registry.addNode fd).view fd = some (newNode registry.fresh fd) := by
        rw [added, Function.update_self]
      obtain ⟨tables,-,view⟩ := walkFound fresh here (keeps (registry.addNode fd).tables _)
      obtain ⟨cb_,log⟩ := installEffect (registry.addNode fd).tables (newNode registry.fresh fd) event ⟨cb,cleanup,arg⟩
      have nothing : tableOf registry (fd,event) = none := by
        rw [tableOf, callbackOf, found]
        rfl
      have before : tableOf (registry.addNode fd) = tableOf registry := by
        funext key
        rw [tableUpdate added]
        by_cases own : key.1 = fd
        · rw [if_pos own, tableOf, callbackOf, own, found]
          rfl
        · rw [if_neg own]
      dsimp only
      rw [if_pos rfl, walkFirstAll fresh]
      refine .inr ⟨rfl,by rw [tableCleared here view cb_, before],?_⟩
      rw [tables, log, nothing]
      rfl

end Effects

/- No single step, no dispatch inside a callback, and a callback keeps to its own descriptor and to
other buckets. -/
def usual (registry : Registry) (act : Act) : Prop := FdRuns.allowed registry act = true ∧ act ≠ .singleStep

instance (registry : Registry) (act : Act) : Decidable (usual registry act) := inferInstanceAs (Decidable (_ ∧ _))

structure Recorded (registry : Registry) (ledger : List Registration) : Prop where
  inv : FdRuns.Inv registry
  linked : ∀ run, registry.running = some run → run.slot = .link
  current : Current ledger (tableOf registry)
  log : registry.tables.cleanups.Perm (owed cleanupDue ledger)

section Runs
variable {registry after : Registry} {ledger : List Registration} {act : Act}

theorem sweepEffect (current : Current ledger (tableOf registry))
    (log : registry.tables.cleanups.Perm (owed cleanupDue ledger)) (effect : Effect registry after) :
    Current (sweep (tableOf after) .removed ledger) (tableOf after) ∧
      after.tables.cleanups.Perm (owed cleanupDue (sweep (tableOf after) .removed ledger)) := by
  cases effect with
  | quiet table log' =>
    rw [table, log', sweepSame current]
    exact ⟨current,log⟩
  | removed key old was table log' =>
    obtain ⟨due,closed⟩ := sweepOne current was Ending.removed cleanupDue
    rw [table, log']
    exact ⟨closed,(log.append_right _).trans due.symm⟩

theorem stepLinked (good : usual registry act) (linked : ∀ run, registry.running = some run → run.slot = .link) :
    ∀ run, (step registry act).running = some run → run.slot = .link := by
  have starts : ∀ registry : Registry, (∀ run, registry.running = some run → run.slot = .link) → ∀ node event,
      ∀ run, (start .link registry node event).running = some run → run.slot = .link := by
    intro registry linked node event run is
    unfold start at is
    split at is
    · cases is
      rfl
    · exact linked run is
  intro run is
  cases act with
  | call c =>
    rw [step, (callKeeps registry c).2] at is
    exact linked run is
  | dispatch fd event =>
    rw [step, dispatch] at is
    cases found : registry.view fd with
    | none =>
      rw [found] at is
      exact linked run is
    | some node =>
      rw [found] at is
      dsimp only at is
      split at is
      · split at is
        · exact linked run is
        · exact starts { registry with stepsToBreak := registry.stepsToBreak - 1 } linked node event run is
      · exact starts registry linked node event run is
  | singleStep => exact absurd rfl good.2
  | ret keep =>
    rw [step] at is
    cases running : registry.running with
    | none =>
      rw [running] at is
      dsimp only at is
      rw [running] at is
      cases is
    | some run' =>
      rw [running] at is
      cases is
  | debugger breakOnNext stepsToBreak => exact linked run is

theorem usualSpares (good : usual registry act) (linked : ∀ run, registry.running = some run → run.slot = .link) :
    FdRuns.spares registry act = true := by
  cases act with
  | call c => rfl
  | dispatch fd event => rfl
  | singleStep => exact absurd rfl good.2
  | ret keep =>
    rw [FdRuns.spares, Option.all_eq_true_iff_get]
    intro some_
    rw [linked _ (Option.some_get some_).symm]
    rfl
  | debugger breakOnNext stepsToBreak => rfl

theorem replacementDue (old new : Callback) (event : FdEvent) (fd : Nat) :
    cleanupDue (fd,event) old (replacement (some old) new.arg) = overwritten old new event := by
  rw [replacement, Option.any_some, overwritten]
  by_cases same : old.arg = new.arg
  · rw [if_pos (decide_eq_true same), if_neg fun both => both.2 same]
    rfl
  · rw [if_neg (by simpa using same), if_pos ⟨.inr same,same⟩]
    rfl

theorem Recorded.add (recorded : Recorded registry ledger) (fd : Nat) (event : FdEvent) (cb : Nat) (cleanup : Option Nat)
    (arg : Nat) (memory : Bool) :
    Current (record registry (.call (.add fd event (some cb) cleanup arg memory)) ledger)
        (tableOf (call registry (.add fd event (some cb) cleanup arg memory))) ∧
      (call registry (.add fd event (some cb) cleanup arg memory)).tables.cleanups.Perm
        (owed cleanupDue (record registry (.call (.add fd event (some cb) cleanup arg memory)) ledger)) := by
  rw [record, call]
  rcases addEffect recorded.inv.sound.placed fd event cb cleanup arg memory with failed | ⟨one,table,log⟩
  · rw [failed, if_neg fun one : (-1 : Int) = 1 => absurd one (by decide)]
    exact ⟨recorded.current,recorded.log⟩
  · rw [if_pos one, table, log, owedAppend]
    cases there : tableOf registry (fd,event) with
    | none =>
      rw [show callbackOf registry fd event = none from there, closeNone recorded.current ?_]
      · exact ⟨currentAppend recorded.current there _,by simpa using recorded.log⟩
      · intro key own
        rw [decide_eq_true_eq.mp own]
        exact there
    | some old =>
      rw [show callbackOf registry fd event = some old from there]
      obtain ⟨due,closed⟩ := closeOne (p := fun key => decide (key = (fd,event))) recorded.current there
        (fun other own => .inl (decide_eq_true_eq.mp own)) (decide_eq_true rfl) (replacement (some old) arg) cleanupDue
      have added := currentAppend closed (Function.update_self _ _ _) (⟨cb,cleanup,arg⟩ : Callback)
      rw [Function.update_idem] at added
      refine ⟨added,?_⟩
      rw [replacementDue old ⟨cb,cleanup,arg⟩ event fd] at due
      exact (recorded.log.append_right _).trans due.symm

theorem Recorded.step (recorded : Recorded registry ledger) (good : usual registry act) :
    Recorded (step registry act) (record registry act ledger) := by
  have placed := recorded.inv.sound.placed
  have inv : FdRuns.Inv (FdRegistry.step registry act) := recorded.inv.step good.1 (usualSpares good recorded.linked)
  have sweeps : Effect registry (FdRegistry.step registry act) → record registry act ledger =
      sweep (tableOf (FdRegistry.step registry act)) .removed ledger →
      Recorded (FdRegistry.step registry act) (record registry act ledger) := by
    intro effect is
    obtain ⟨current,log⟩ := sweepEffect recorded.current recorded.log effect
    exact ⟨inv,stepLinked good recorded.linked,by rw [is]; exact current,by rw [is]; exact log⟩
  cases act with
  | call c =>
    by_cases install : installs c = true
    · cases c with
      | add fd event cb cleanup arg memory =>
        cases cb with
        | none => cases install
        | some cb =>
          obtain ⟨current,log⟩ := recorded.add fd event cb cleanup arg memory
          exact ⟨inv,stepLinked good recorded.linked,current,log⟩
      | remove => cases install
      | forceRemove => cases install
      | setPausable => cases install
      | setPaused => cases install
    · refine sweeps (callEffect placed install) ?_
      cases c with
      | add fd event cb cleanup arg memory =>
        cases cb with
        | none => rfl
        | some cb => exact absurd rfl install
      | remove => rfl
      | forceRemove => rfl
      | setPausable => rfl
      | setPaused => rfl
  | dispatch fd event => exact sweeps (dispatchEffect placed fd event) rfl
  | singleStep => exact absurd rfl good.2
  | ret keep =>
    refine sweeps ?_ rfl
    rw [FdRegistry.step]
    cases running : registry.running with
    | none => exact .quiet rfl rfl
    | some run => exact finishEffect placed (recorded.linked run running) keep
  | debugger breakOnNext stepsToBreak => exact sweeps (.quiet rfl rfl) rfl

theorem stepSize (placed : Placed EventCB.fd registry.hashSize registry.events) (act : Act) :
    (step registry act).hashSize = registry.hashSize := by
  have release : ∀ (registry : Registry) slot, (registry.release slot).hashSize = registry.hashSize := by
    intro registry slot
    cases slot <;> rfl
  have starts : ∀ slot (registry : Registry) node event, (start slot registry node event).hashSize = registry.hashSize := by
    intro slot registry node event
    unfold start
    split
    · rfl
    · exact release _ slot
  cases act with
  | call c => exact (callPlaced placed c).1
  | dispatch fd event =>
    rw [step, dispatch]
    split
    · rfl
    · split
      · dsimp only
        split
        · rfl
        · exact starts .link { registry with stepsToBreak := registry.stepsToBreak - 1 } _ event
      · exact starts .link registry _ event
  | singleStep =>
    rw [step, singleStep]
    split
    · rfl
    · split
      · rfl
      · exact starts .nextFdEvent registry _ _
  | ret keep =>
    rw [step]
    split
    · rfl
    · rename_i run _
      have resumed : (resume registry run keep).hashSize = registry.hashSize := by
        rw [resume]
        split <;> rfl
      exact (release (resume registry run keep) run.slot).trans resumed
  | debugger => rfl

theorem Recorded.along {acts : List Act} (recorded : Recorded registry ledger)
    (along : Along FdRegistry.step usual registry acts) :
    Recorded (exec FdRegistry.step registry acts) (ledgerOf registry acts ledger) ∧
      (exec FdRegistry.step registry acts).hashSize = registry.hashSize := by
  induction acts generalizing registry ledger with
  | nil => exact ⟨recorded,rfl⟩
  | cons act rest ih =>
    obtain ⟨later,size⟩ := ih (recorded.step along.1) along.2
    exact ⟨later,size.trans (stepSize recorded.inv.sound.placed act)⟩

end Runs

structure Closing (ledger : List Registration) (registry : Registry) : Prop where
  placed : Placed EventCB.fd registry.hashSize registry.events
  used : ∀ i, ∀ node ∈ registry.events i, ∃ event, (node.cb event).isSome = true
  current : Current (sweep (tableOf registry) .removed ledger) (tableOf registry)
  log : registry.tables.cleanups.Perm (owed cleanupDue (sweep (tableOf registry) .removed ledger))

section Teardown
variable {registry : Registry} {ledger : List Registration} {i : Nat} {event : FdEvent} {node : EventCB} {rest : List EventCB}

theorem Recorded.closing (recorded : Recorded registry ledger) : Closing ledger registry := by
  refine ⟨recorded.inv.sound.placed,fun i node member => ?_,?_,?_⟩
  · exact (recorded.inv.sound.used node.fd node (FdRuns.viewMem recorded.inv.sound member)).1
  · rw [sweepSame recorded.current]
    exact recorded.current
  · rw [sweepSame recorded.current]
    exact recorded.log

theorem freeHeadWalk (placed : Placed EventCB.fd registry.hashSize registry.events) (head : registry.events i = node :: rest)
    (event : FdEvent) : freeHead i registry event =
      registry.walk node.fd fun tables node => unlink .link (evtRemoveInternal tables node event) := by
  have here : node.fd % registry.hashSize = i := placed.place i node (by rw [head]; exact List.mem_cons_self)
  rw [← walkFirstAll placed, Registry.walkFirst, changeFirst, here, head, visitFirst, if_pos rfl, freeHead, head]

theorem freeHeadCases (head : registry.events i = node :: rest) (event : FdEvent) :
    ((freeHead i registry event).events = Function.update registry.events i rest) ∨
      (freeHead i registry event).events =
          Function.update registry.events i ({ node with cb := Function.update node.cb event none } :: rest) ∧
        (node.cb event = none ∨ ∃ event', (Function.update node.cb event none event').isSome = true) := by
  rw [freeHead, head]
  dsimp only
  by_cases delete : (evtRemoveInternal registry.tables node event).2.2 = true
  · rw [unlinkDrop delete]
    exact .inl rfl
  · rw [unlinkKeep delete, removedNode]
    refine .inr ⟨rfl,?_⟩
    rw [removedDelete, Bool.and_eq_true, not_and_or, emptyIff] at delete
    refine delete.imp (fun absent => by simpa using absent) fun left => ?_
    by_contra none_
    exact left fun event' => by
      by_contra some_
      exact none_ ⟨event',Option.isSome_iff_ne_none.mpr some_⟩

theorem Closing.effect {after : Registry} (closing : Closing ledger registry) (effect : Effect registry after)
    (placed : Placed EventCB.fd after.hashSize after.events)
    (used : ∀ i, ∀ node ∈ after.events i, ∃ event, (node.cb event).isSome = true) : Closing ledger after := by
  have shrinks : ∀ key, (tableOf registry key).isNone = true → (tableOf after key).isNone = true := by
    intro key gone
    cases effect with
    | quiet table log => rwa [table]
    | removed other old was table log =>
      rw [table]
      by_cases own : key = other
      · rw [own, Function.update_self]
        rfl
      · rwa [Function.update_of_ne own]
  obtain ⟨current,log⟩ := sweepEffect closing.current closing.log effect
  have whole : sweep (tableOf after) Ending.removed (sweep (tableOf registry) .removed ledger) =
      sweep (tableOf after) .removed ledger := closeClose shrinks
  rw [whole] at current log
  exact ⟨placed,used,current,log⟩

theorem Closing.freeHead (closing : Closing ledger registry) (i : Nat) (event : FdEvent) :
    Closing ledger (freeHead i registry event) := by
  cases head : registry.events i with
  | nil =>
    rw [FdCleanups.freeHead, head]
    exact closing
  | cons node rest =>
    have found : registry.view node.fd = some node := lookupMem closing.placed (by rw [head]; exact List.mem_cons_self)
    have walks := freeHeadWalk closing.placed head event
    let f := fun tables node => unlink .link (evtRemoveInternal tables node event)
    have keeps : ∀ left, (f registry.tables node).2 = some left → left.fd = node.fd := fun left is => by rw [unlinkLeft is]
    obtain ⟨-,placed,-⟩ := walkFound closing.placed found keeps
    have effect := walkEffect (f := f) closing.placed found keeps
      (.inl ⟨event,unlinkClears registry.tables node event⟩)
    refine closing.effect (by rw [walks]; exact effect) (by rw [walks]; exact placed) fun j other member => ?_
    have old : ∀ other ∈ node :: rest, ∃ event, (other.cb event).isSome = true := by
      rw [← head]
      exact closing.used i
    rcases freeHeadCases head event with gone | ⟨kept,some_⟩
    · rw [gone] at member
      by_cases own : j = i
      · rw [own, Function.update_self] at member
        exact old other (List.mem_cons_of_mem _ member)
      · rw [Function.update_of_ne own] at member
        exact closing.used j other member
    · rw [kept] at member
      by_cases own : j = i
      · rw [own, Function.update_self] at member
        rcases List.mem_cons.mp member with rfl | later
        · rcases some_ with absent | present
          · obtain ⟨event',present⟩ := old node List.mem_cons_self
            refine ⟨event',?_⟩
            rw [← absent, Function.update_eq_self]
            exact present
          · exact present
        · exact old other (List.mem_cons_of_mem _ later)
      · rw [Function.update_of_ne own] at member
        exact closing.used j other member

theorem freeHeadOther (registry : Registry) (i : Nat) (event : FdEvent) :
    (∀ j, j ≠ i → (freeHead i registry event).events j = registry.events j) ∧
      (freeHead i registry event).hashSize = registry.hashSize := by
  rw [freeHead]
  cases registry.events i with
  | nil => exact ⟨fun _ _ => rfl,rfl⟩
  | cons node rest => exact ⟨fun j apart => Function.update_of_ne apart _ _,rfl⟩

def Worked (done : FdEvent → Prop) (rest : Nat) (bucket : List EventCB) : Prop :=
  bucket.length ≤ rest ∨ ∃ node after, bucket = node :: after ∧ after.length ≤ rest ∧ ∀ event, done event → node.cb event = none

theorem Worked.freeHead {done : FdEvent → Prop} {rest : Nat} (worked : Worked done rest (registry.events i)) (event : FdEvent) :
    Worked (fun other => done other ∨ other = event) rest ((freeHead i registry event).events i) := by
  cases head : registry.events i with
  | nil =>
    rw [FdCleanups.freeHead, head]
    dsimp only
    rw [head]
    exact .inl (Nat.zero_le _)
  | cons node after =>
    rw [head] at worked
    rcases worked with short | ⟨node',after',is,short,none_⟩
    · rw [List.length_cons] at short
      rcases freeHeadCases head event with gone | ⟨kept,-⟩
      · rw [gone, Function.update_self]
        exact .inl (by omega)
      · rw [kept, Function.update_self]
        exact .inl (by rw [List.length_cons]; exact short)
    · cases is
      rcases freeHeadCases head event with gone | ⟨kept,-⟩
      · rw [gone, Function.update_self]
        exact .inl short
      · rw [kept, Function.update_self]
        refine .inr ⟨_,_,rfl,short,fun other either => ?_⟩
        dsimp only
        by_cases own : other = event
        · rw [own, Function.update_self]
        · rw [Function.update_of_ne own]
          exact none_ other (either.resolve_right own)

theorem freeRound (closing : Closing ledger registry) (head : registry.events i = node :: rest) :
    Closing ledger (FdEvent.all.foldl (freeHead i) registry) ∧
      ((FdEvent.all.foldl (freeHead i) registry).events i).length ≤ rest.length ∧
      (∀ j, j ≠ i → (FdEvent.all.foldl (freeHead i) registry).events j = registry.events j) ∧
      (FdEvent.all.foldl (freeHead i) registry).hashSize = registry.hashSize := by
  have closed := ((closing.freeHead i .read).freeHead i .write).freeHead i .error
  have others := freeHeadOther registry i .read
  have others' := freeHeadOther (freeHead i registry .read) i .write
  have others'' := freeHeadOther (freeHead i (freeHead i registry .read) .write) i .error
  have start : Worked (fun _ => False) rest.length (registry.events i) :=
    .inr ⟨node,rest,head,Nat.le_refl _,fun _ none_ => none_.elim⟩
  refine ⟨closed,?_,fun j apart => ?_,?_⟩
  · rcases ((start.freeHead .read).freeHead .write).freeHead .error with short | ⟨left,after,is,-,none_⟩
    · exact short
    · obtain ⟨event,present⟩ := closed.used i left (by rw [is]; exact List.mem_cons_self)
      have absent : left.cb event = none := none_ event (by cases event <;> simp)
      rw [absent] at present
      cases present
  · exact ((others''.1 j apart).trans (others'.1 j apart)).trans (others.1 j apart)
  · exact (others''.2.trans others'.2).trans others.2

theorem freeBucketEnds {turns : Nat} (closing : Closing ledger registry) (enough : (registry.events i).length < turns) :
    ∃ freed, freeBucket i turns registry = some freed ∧ Closing ledger freed ∧ freed.events i = [] ∧
      (∀ j, j ≠ i → freed.events j = registry.events j) ∧ freed.hashSize = registry.hashSize := by
  induction turns generalizing registry with
  | zero => exact absurd enough (Nat.not_lt_zero _)
  | succ turns ih =>
    rw [freeBucket]
    cases head : registry.events i with
    | nil => exact ⟨registry,rfl,closing,head,fun _ _ => rfl,rfl⟩
    | cons node rest =>
      obtain ⟨closed,short,others,size⟩ := freeRound closing head
      rw [head, List.length_cons] at enough
      obtain ⟨freed,ends,closed',empty,others',size'⟩ := ih closed (by omega)
      exact ⟨freed,ends,closed',empty,fun j apart => (others' j apart).trans (others j apart),size'.trans size⟩

theorem freeBuckets (buckets : List Nat) (closing : Closing ledger registry) :
    ∃ freed, buckets.foldlM (fun registry i => freeBucket i ((registry.events i).length + 1) registry) registry = some freed ∧
      Closing ledger freed ∧ (∀ j, j ∈ buckets ∨ registry.events j = [] → freed.events j = []) ∧
      freed.hashSize = registry.hashSize := by
  induction buckets generalizing registry with
  | nil => exact ⟨registry,rfl,closing,fun j either => either.resolve_left List.not_mem_nil,rfl⟩
  | cons i buckets ih =>
    obtain ⟨freed,ends,closed,empty,others,size⟩ := freeBucketEnds closing (Nat.lt_succ_self _)
    obtain ⟨freed',ends',closed',empty',size'⟩ := ih closed
    refine ⟨freed',?_,closed',fun j either => empty' j ?_,size'.trans size⟩
    · rw [List.foldlM_cons, ends]
      exact ends'
    · by_cases own : j = i
      · exact .inr (own ▸ empty)
      · rw [others j own]
        exact either.imp_left fun member => (List.mem_cons.mp member).resolve_left own

theorem freeHandlerEnds (closing : Closing ledger registry) (positive : 0 < registry.hashSize) :
    ∃ freed, evtFreeHandler registry = some freed ∧ Closing ledger freed ∧ tableOf freed = fun _ => none := by
  obtain ⟨freed,ends,closed,empty,size⟩ := freeBuckets (List.range registry.hashSize) closing
  refine ⟨freed,ends,closed,?_⟩
  funext key
  have none_ : freed.view key.1 = none := by
    rw [Registry.view, lookup, empty _ (.inl (by rw [size]; exact List.mem_range.mpr (Nat.mod_lt _ positive)))]
    rfl
  rw [tableOf, callbackOf, none_]
  rfl

end Teardown

def closed (ledger : List Registration) : List Registration := close (fun _ => true) .removed ledger

/- In any run, each registration that ended so far has had the one cleanup call that is due to it,
and no other cleanup was called; the teardown cleans up the others, once each. -/
theorem cleanupsOnce {hashSize : Nat} (positive : 0 < hashSize) (acts : List Act)
    (along : Along step usual (evtCreateHandler hashSize) acts) :
    (exec step (evtCreateHandler hashSize) acts).tables.cleanups.Perm
        (owed cleanupDue (ledgerOf (evtCreateHandler hashSize) acts [])) ∧
      ∃ freed, evtFreeHandler (exec step (evtCreateHandler hashSize) acts) = some freed ∧ (tableOf freed = fun _ => none) ∧
        freed.tables.cleanups.Perm (owed cleanupDue (closed (ledgerOf (evtCreateHandler hashSize) acts []))) := by
  have start : Recorded (evtCreateHandler hashSize) [] := by
    refine ⟨FdRuns.createInv hashSize,fun run is => ?_,fun key => rfl,List.Perm.refl _⟩
    cases is
  obtain ⟨recorded,size⟩ := start.along along
  obtain ⟨freed,ends,closing,empty⟩ := freeHandlerEnds recorded.closing (by rw [size]; exact positive)
  refine ⟨recorded.log,freed,ends,empty,?_⟩
  have log := closing.log
  rw [empty] at log
  exact log

def reregistered : List Act :=
  [.call (.add 3 .read (some 1) (some 7) 40 true),.call (.add 3 .write (some 2) (some 8) 50 true),.dispatch 3 .read,
    .call (.add 3 .read (some 1) (some 7) 41 true),.call (.add 3 .read (some 4) (some 9) 41 true),
    .call (.forceRemove 3 .read),.ret eventKeep]

theorem cleanupsOnceReregistered : (exec step (evtCreateHandler 19) reregistered).tables.cleanups.Perm
      (owed cleanupDue (ledgerOf (evtCreateHandler 19) reregistered [])) ∧
    ∃ freed, evtFreeHandler (exec step (evtCreateHandler 19) reregistered) = some freed ∧ (tableOf freed = fun _ => none) ∧
      freed.tables.cleanups.Perm (owed cleanupDue (closed (ledgerOf (evtCreateHandler 19) reregistered []))) :=
  cleanupsOnce (by decide) reregistered (by decide +kernel)

example : (exec step (evtCreateHandler 19) reregistered).tables.cleanups = [(7,.read,40),(9,.read,41)] := by decide +kernel

end LibProc.FdCleanups
