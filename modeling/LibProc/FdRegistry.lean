import LibProc.HashBuckets
import LibProc.Runs
import Mathlib.Data.Finset.Lattice.Fold
import Mathlib.Tactic.Linarith

/-! The descriptor registry of events.c: a node for each descriptor in its hash bucket,
and beside the buckets the select sets, their counts and their highest descriptors. A
dispatch reaches a node through the link that points at it; the debugger's single step
reaches it through ctx->next_fd_event. Callbacks are numbers, and a run interleaves the
start of a dispatch, the calls its callback makes, and its return. -/
namespace LibProc.FdRegistry
open HashBuckets Runs

inductive FdEvent where
  | read
  | write
  | error
  deriving DecidableEq, Repr

def FdEvent.all : List FdEvent := [.read,.write,.error]

structure Callback where
  cb : Nat
  cleanup : Option Nat
  arg : Nat
  deriving DecidableEq, Repr

inductive InCallback where
  | idle
  | running
  | readded
  | forced
  deriving DecidableEq, Repr

/- A node. `id` stands for its address, and `freed` marks one that free() has taken. -/
structure EventCB where
  id : Nat
  fd : Nat
  cb : FdEvent → Option Callback
  counts : FdEvent → Nat
  breakpoint : FdEvent → Bool
  inCallback : FdEvent → InCallback
  pausable : Bool
  critical : Bool
  freed : Bool

structure Tables where
  eventSet : FdEvent → Finset Nat
  blockedSet : FdEvent → Finset Nat
  maxFd : Nat
  maxFds : FdEvent → Nat
  eventCnt : FdEvent → Int
  criticalFdCount : Int
  fdEventCounter : Nat
  cleanups : List (Nat × FdEvent × Nat)

inductive Slot where
  | link
  | nextFdEvent
  deriving DecidableEq, Repr

/- What next_fd_event points at: the descriptor of a node does not change, so it is kept
here to find the bucket. -/
structure Held where
  id : Nat
  fd : Nat
  event : FdEvent
  deriving DecidableEq, Repr

/- A dispatch in its callback. The link it goes through is a field of the node before, if
there is one, and dies with that node. -/
structure Running where
  slot : Slot
  previous : Option Nat
  fd : Nat
  event : FdEvent
  deriving DecidableEq, Repr

structure Registry where
  tables : Tables
  hashSize : Nat
  events : Nat → List EventCB
  fresh : Nat
  breakOnNext : Bool
  stepsToBreak : Int
  nextFdEvent : Option Held
  running : Option Running
  dangling : Bool

def evtCreateHandler (hashSize : Nat) : Registry :=
  ⟨⟨fun _ => ∅,fun _ => ∅,0,fun _ => 0,fun _ => 0,0,0,[]⟩,hashSize,fun _ => [],0,false,0,none,none,false⟩

def Registry.view (registry : Registry) : Nat → Option EventCB :=
  lookup EventCB.fd registry.hashSize registry.events

def cleaned (callback : Callback) (event : FdEvent) : List (Nat × FdEvent × Nat) :=
  match callback.cleanup with
  | none => []
  | some cleanup => [(cleanup,event,callback.arg)]

def nextHighest (set : Finset Nat) (fd : Nat) : Nat :=
  (List.range' 1 (fd - 1)).foldl (fun best i => if i ∈ set then i else best) 0

def highestFd (maxFds : FdEvent → Nat) : Nat :=
  [FdEvent.write,.error].foldl (fun top event => if top < maxFds event then maxFds event else top)
    (maxFds .read)

def lowerMaxFds (fd : Nat) (event : FdEvent) (tables : Tables) : Tables :=
  if fd = tables.maxFds event then
    if 0 < tables.eventCnt event then
      let maxFds := Function.update tables.maxFds event (nextHighest (tables.eventSet event) fd)
      { tables with maxFds := maxFds, maxFd := highestFd maxFds }
    else { tables with maxFds := Function.update tables.maxFds event 0 }
  else tables

def EventCB.empty (node : EventCB) : Bool := FdEvent.all.all fun event => (node.cb event).isNone

def clearCallback (tables : Tables) (fd : Nat) (event : FdEvent) (callback : Callback) : Tables :=
  { tables with
    cleanups := tables.cleanups ++ cleaned callback event
    eventCnt := Function.update tables.eventCnt event (tables.eventCnt event - 1)
    eventSet := Function.update tables.eventSet event ((tables.eventSet event).erase fd)
    blockedSet := Function.update tables.blockedSet event ((tables.blockedSet event).erase fd) }

def evtRemoveInternal (tables : Tables) (node : EventCB) (event : FdEvent) : Tables × EventCB × Bool :=
  match node.cb event with
  | none => (tables,node,false)
  | some callback =>
    let lowered := lowerMaxFds node.fd event (clearCallback tables node.fd event callback)
    let left := { node with cb := Function.update node.cb event none }
    if left.empty then
      ({ lowered with criticalFdCount := lowered.criticalFdCount - if node.critical then 1 else 0 },left,true)
    else (lowered,left,false)

/- Deletion takes the node out of whatever slot it was reached by. The bucket loses it only
when that slot is the link in the bucket. -/
def unlink (slot : Slot) (removed : Tables × EventCB × Bool) : Tables × Option EventCB :=
  if removed.2.2 then
    match slot with
    | .link => (removed.1,none)
    | .nextFdEvent => (removed.1,some { removed.2.1 with freed := true })
  else (removed.1,some removed.2.1)

def Registry.walk (registry : Registry) (fd : Nat) (f : Tables → EventCB → Tables × Option EventCB) : Registry :=
  let changed := change EventCB.fd registry.hashSize registry.events fd f registry.tables
  { registry with tables := changed.1, events := changed.2 }

def Registry.walkFirst (registry : Registry) (fd : Nat) (f : Tables → EventCB → Tables × Option EventCB) :
    Registry :=
  let changed := changeFirst EventCB.fd registry.hashSize registry.events fd f registry.tables
  { registry with tables := changed.1, events := changed.2 }

def removeUnlessRunning (event : FdEvent) (tables : Tables) (node : EventCB) : Tables × Option EventCB :=
  if node.inCallback event = .idle then unlink .link (evtRemoveInternal tables node event)
  else (tables,some node)

def forceRemove (event : FdEvent) (tables : Tables) (node : EventCB) : Tables × Option EventCB :=
  if node.inCallback event = .idle then unlink .link (evtRemoveInternal tables node event)
  else (tables,some { node with inCallback := Function.update node.inCallback event .forced })

def evtFdRemove (registry : Registry) (fd : Nat) (event : FdEvent) : Registry :=
  registry.walk fd (removeUnlessRunning event)

def evtFdForceRemove (registry : Registry) (fd : Nat) (event : FdEvent) : Registry :=
  registry.walk fd (forceRemove event)

def overwritten (old new : Callback) (event : FdEvent) : List (Nat × FdEvent × Nat) :=
  if (old.cb ≠ new.cb ∨ old.arg ≠ new.arg) ∧ old.arg ≠ new.arg then cleaned old event else []

def countCallback (event : FdEvent) (callback : Callback) (tables : Tables) (node : EventCB) : Tables :=
  match node.cb event with
  | none => { tables with eventCnt := Function.update tables.eventCnt event (tables.eventCnt event + 1) }
  | some old => { tables with cleanups := tables.cleanups ++ overwritten old callback event }

def EventCB.unblocked (node : EventCB) (event : FdEvent) : Bool := !node.pausable || !node.breakpoint event

def watch (event : FdEvent) (tables : Tables) (node : EventCB) : Tables :=
  let maxFds := Function.update tables.maxFds event
    (if tables.maxFds event < node.fd then node.fd else tables.maxFds event)
  { tables with
    eventSet := Function.update tables.eventSet event (insert node.fd (tables.eventSet event))
    blockedSet := if node.unblocked event then
        Function.update tables.blockedSet event (insert node.fd (tables.blockedSet event))
      else tables.blockedSet
    maxFds := maxFds
    maxFd := highestFd maxFds }

def install (event : FdEvent) (callback : Callback) (tables : Tables) (node : EventCB) :
    Tables × Option EventCB :=
  let counted := countCallback event callback tables node
  let node := { node with cb := Function.update node.cb event (some callback) }
  if node.inCallback event = .idle then (watch event counted node,some node)
  else (counted,some { node with inCallback := Function.update node.inCallback event .readded })

def newNode (id fd : Nat) : EventCB :=
  ⟨id,fd,fun _ => none,fun _ => 0,fun _ => false,fun _ => .idle,true,true,false⟩

def Registry.addNode (registry : Registry) (fd : Nat) : Registry :=
  { registry with
    events := append EventCB.fd registry.hashSize registry.events (newNode registry.fresh fd)
    fresh := registry.fresh + 1
    tables := { registry.tables with criticalFdCount := registry.tables.criticalFdCount + 1 } }

def evtFdAddWithCleanup (registry : Registry) (fd : Nat) (event : FdEvent) (cb cleanup : Option Nat) (arg : Nat)
    (memory : Bool) : Registry × Int :=
  match cb with
  | none => (evtFdRemove registry fd event,0)
  | some cb =>
    match registry.view fd with
    | some _ => (registry.walkFirst fd (install event ⟨cb,cleanup,arg⟩),1)
    | none =>
      if memory then ((registry.addNode fd).walkFirst fd (install event ⟨cb,cleanup,arg⟩),1)
      else (registry,-1)

def evtFdAdd (registry : Registry) (fd : Nat) (event : FdEvent) (cb : Option Nat) (arg : Nat) (memory : Bool) :
    Registry × Int :=
  evtFdAddWithCleanup registry fd event cb none arg memory

def refreshBlocked (node : EventCB) (tables : Tables) (event : FdEvent) : Tables :=
  if (node.cb event).isSome && node.unblocked event then
    { tables with blockedSet := Function.update tables.blockedSet event (insert node.fd (tables.blockedSet event)) }
  else
    { tables with blockedSet := Function.update tables.blockedSet event ((tables.blockedSet event).erase node.fd) }

def refreshAll (tables : Tables) (node : EventCB) : Tables × Option EventCB :=
  (FdEvent.all.foldl (refreshBlocked node) tables,some node)

def evtFdSetPausable (registry : Registry) (fd : Nat) (pausable : Bool) : Registry :=
  registry.walk fd fun tables node => refreshAll tables { node with pausable := pausable }

/- The loop sets each breakpoint just before it refreshes that event's set. -/
def evtFdSetPaused (registry : Registry) (fd : Nat) (paused : Bool) : Registry :=
  registry.walk fd fun tables node => refreshAll tables { node with breakpoint := fun _ => paused }

/- The field is a char, and only ever tested against zero: it keeps the low byte of the int. -/
def setCritical (critical : Int) (tables : Tables) (node : EventCB) : Tables × Option EventCB :=
  let count :=
    if node.critical && critical = 0 then tables.criticalFdCount - 1
    else if !node.critical && critical ≠ 0 then tables.criticalFdCount + 1
    else tables.criticalFdCount
  ({ tables with criticalFdCount := count },some { node with critical := decide (critical % 256 ≠ 0) })

def evtFdSetCritical (registry : Registry) (fd : Nat) (critical : Int) : Registry :=
  registry.walk fd (setCritical critical)

inductive Call where
  | add (fd : Nat) (event : FdEvent) (cb cleanup : Option Nat) (arg : Nat) (memory : Bool)
  | remove (fd : Nat) (event : FdEvent)
  | forceRemove (fd : Nat) (event : FdEvent)
  | setPausable (fd : Nat) (pausable : Bool)
  | setPaused (fd : Nat) (paused : Bool)
  deriving DecidableEq, Repr

def Call.fd : Call → Nat
  | .add fd _ _ _ _ _ => fd
  | .remove fd _ => fd
  | .forceRemove fd _ => fd
  | .setPausable fd _ => fd
  | .setPaused fd _ => fd

def call (registry : Registry) : Call → Registry
  | .add fd event cb cleanup arg memory => (evtFdAddWithCleanup registry fd event cb cleanup arg memory).1
  | .remove fd event => evtFdRemove registry fd event
  | .forceRemove fd event => evtFdForceRemove registry fd event
  | .setPausable fd pausable => evtFdSetPausable registry fd pausable
  | .setPaused fd paused => evtFdSetPaused registry fd paused

def eventKeep : Int := 1
def eventRemove : Int := 2

def entered (node : EventCB) (event : FdEvent) : EventCB :=
  { node with
    counts := Function.update node.counts event ((node.counts event + 1) % 2 ^ 32)
    inCallback := Function.update node.inCallback event .running }

def quieted (node : EventCB) (event : FdEvent) : EventCB :=
  { node with inCallback := Function.update node.inCallback event .idle }

def enter (event : FdEvent) (tables : Tables) (node : EventCB) : Tables × Option EventCB :=
  (tables,some (entered node event))

def removalAsked (flag : InCallback) (keep : Int) : Bool :=
  flag = .forced || (keep = eventRemove && flag = .running)

def leave (slot : Slot) (event : FdEvent) (keep : Int) (tables : Tables) (node : EventCB) :
    Tables × Option EventCB :=
  if removalAsked (node.inCallback event) keep then
    unlink slot (evtRemoveInternal tables (quieted node event) event)
  else (tables,some (quieted node event))

def Registry.countEvent (registry : Registry) : Registry :=
  { registry with tables := { registry.tables with fdEventCounter := (registry.tables.fdEventCounter + 1) % 2 ^ 64 } }

def previousOf (fd : Nat) (bucket : List EventCB) : Option Nat :=
  (bucket.takeWhile fun node => node.fd ≠ fd).getLast?.map EventCB.id

def Registry.bucket (registry : Registry) (fd : Nat) : List EventCB := registry.events (fd % registry.hashSize)

def slotAlive (registry : Registry) (run : Running) : Bool :=
  match run.slot with
  | .nextFdEvent => true
  | .link => run.previous.all fun id => ((registry.bucket run.fd).map EventCB.id).contains id

def resume (registry : Registry) (run : Running) (keep : Int) : Registry :=
  if slotAlive registry run then registry.countEvent.walkFirst run.fd (leave run.slot run.event keep)
  else { registry with dangling := true }

/- The whole of evt_process_fd_event on a node that is not held: a callback is the calls it
makes and what it returns. -/
def evtProcessFdEvent (slot : Slot) (registry : Registry) (fd : Nat) (event : FdEvent) (calls : List Call)
    (keep : Int) : Registry :=
  match registry.view fd with
  | none => registry
  | some node =>
    if (node.cb event).isSome then
      let returned := calls.foldl call (registry.walkFirst fd (enter event))
      resume returned ⟨slot,previousOf fd (registry.bucket fd),fd,event⟩ keep
    else registry.walkFirst fd (leave slot event eventKeep)

def Registry.release (registry : Registry) : Slot → Registry
  | .link => registry
  | .nextFdEvent => { registry with nextFdEvent := none }

def start (slot : Slot) (registry : Registry) (node : EventCB) (event : FdEvent) : Registry :=
  if (node.cb event).isSome then
    { registry.walkFirst node.fd (enter event) with
      running := some ⟨slot,previousOf node.fd (registry.bucket node.fd),node.fd,event⟩ }
  else (registry.walkFirst node.fd (leave slot event eventKeep)).release slot

def finish (registry : Registry) (run : Running) (keep : Int) : Registry :=
  { (resume registry run keep).release run.slot with running := none }

def dispatch (registry : Registry) (fd : Nat) (event : FdEvent) : Registry :=
  match registry.view fd with
  | none => registry
  | some node =>
    if node.pausable && (registry.breakOnNext || node.breakpoint event) then
      let steps := registry.stepsToBreak - 1
      if steps ≤ 0 then
        { registry with
          stepsToBreak := steps, breakOnNext := false, nextFdEvent := some ⟨node.id,fd,event⟩ }
      else start .link { registry with stepsToBreak := steps } node event
    else start .link registry node event

def heldNode (registry : Registry) (held : Held) : Option EventCB :=
  (registry.view held.fd).filter fun node => node.id = held.id

def stepHeld (registry : Registry) (held : Held) (calls : List Call) (keep : Int) : Registry :=
  match heldNode registry held with
  | none => { registry with dangling := true }
  | some _ => evtProcessFdEvent .nextFdEvent registry held.fd held.event calls keep

def singleStep (registry : Registry) : Registry :=
  match registry.nextFdEvent with
  | none => registry
  | some held =>
    match heldNode registry held with
    | none => { registry with dangling := true }
    | some node => start .nextFdEvent registry node held.event

/- `debugger` is any setting of break_on_next and steps_to_break by debugger commands. -/
inductive Act where
  | call (call : Call)
  | dispatch (fd : Nat) (event : FdEvent)
  | singleStep
  | ret (keep : Int)
  | debugger (breakOnNext : Bool) (stepsToBreak : Int)
  deriving DecidableEq, Repr

def step (registry : Registry) : Act → Registry
  | .call c => call registry c
  | .dispatch fd event => dispatch registry fd event
  | .singleStep => singleStep registry
  | .ret keep =>
    match registry.running with
    | none => registry
    | some run => finish registry run keep
  | .debugger breakOnNext stepsToBreak =>
    { registry with breakOnNext := breakOnNext, stepsToBreak := stepsToBreak }

end LibProc.FdRegistry
