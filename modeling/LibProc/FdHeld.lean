import LibProc.FdCallbacks

/-! The event a stop holds. next_fd_event is a plain pointer to a node, and no removal looks at
it: it stays good for as long as no call and no return takes the registration it is held for,
it was there at the stop, and no single step frees a node that is in its bucket. -/
namespace LibProc.FdHeld
open HashBuckets Runs FdRegistry FdCoherence FdDispatch FdCallbacks

/- next_fd_event is NULL, or a node of the registry with a callback for next_fd_event_evt. -/
def HeldLive (registry : Registry) : Prop :=
  ∀ held, registry.nextFdEvent = some held →
    ∃ node, heldNode registry held = some node ∧ (node.cb held.event).isSome = true ∧ node.freed = false

def asksFor (fd : Nat) (event : FdEvent) : Call → Bool
  | .add other event' none _ _ _ => decide (other = fd ∧ event' = event)
  | .remove other event' => decide (other = fd ∧ event' = event)
  | .forceRemove other event' => decide (other = fd ∧ event' = event)
  | _ => false

def stopsAt (registry : Registry) (node : EventCB) (event : FdEvent) : Bool :=
  node.pausable && (registry.breakOnNext || node.breakpoint event) && decide (registry.stepsToBreak - 1 ≤ 0)

/- A call leaves the held registration, or finds it in its callback and only marks it; a dispatch
does not take it at its return; a stop is at a registration; a single step leaves its node another. -/
def sparesHeld (registry : Registry) : Act → Bool
  | .call c => registry.nextFdEvent.all fun held =>
    !asksFor held.fd held.event c || decide (flagOf registry held.fd held.event ≠ .idle)
  | .dispatch fd event => (registry.view fd).all fun node => !stopsAt registry node event || (node.cb event).isSome
  | .ret keep => registry.running.all fun run =>
    match run.slot with
    | .link => registry.nextFdEvent.all fun held => !decide (held.fd = run.fd ∧ held.event = run.event) ||
        !removalAsked (flagOf registry run.fd run.event) keep
    | .nextFdEvent => !FdRuns.takesLastNow registry run keep
  | _ => true

structure Firm (registry : Registry) : Prop where
  placed : Placed EventCB.fd registry.hashSize registry.events
  live : ∀ fd node, registry.view fd = some node → node.freed = false
  held : ∀ held, registry.nextFdEvent = some held →
    ∃ node, registry.view held.fd = some node ∧ node.id = held.id ∧ (node.cb held.event).isSome = true

section
variable {registry : Registry} {node left : EventCB} {tables : Tables} {fd : Nat} {event : FdEvent}
  {f : Tables → EventCB → Tables × Option EventCB} {keep : Int}

theorem Firm.heldLive (firm : Firm registry) : HeldLive registry := by
  intro held is
  obtain ⟨node,found,id,present⟩ := firm.held held is
  refine ⟨node,?_,present,firm.live held.fd node found⟩
  rw [heldNode, found]
  exact Option.filter_some_pos (decide_eq_true id)

theorem Firm.frame {other : Registry} (firm : Firm registry) (events : other.events = registry.events)
    (size : other.hashSize = registry.hashSize) (held : ∀ held, other.nextFdEvent = some held →
      ∃ node, registry.view held.fd = some node ∧ node.id = held.id ∧ (node.cb held.event).isSome = true) : Firm other := by
  have view : other.view = registry.view := by
    rw [Registry.view, Registry.view, events, size]
  exact ⟨by rw [events, size]; exact firm.placed,by rw [view]; exact firm.live,by rw [view]; exact held⟩

theorem Firm.walk (firm : Firm registry) (found : registry.view fd = some node)
    (keeps : ∀ left, (f registry.tables node).2 = some left → left.fd = node.fd ∧ left.id = node.id ∧ left.freed = node.freed)
    (spared : ∀ held, registry.nextFdEvent = some held → held.fd = fd → (node.cb held.event).isSome = true →
      ∃ left, (f registry.tables node).2 = some left ∧ (left.cb held.event).isSome = true) :
    Firm (registry.walk fd f) := by
  obtain ⟨-,placed,view⟩ := walkFound (f := f) firm.placed found fun left is => (keeps left is).1
  refine ⟨placed,fun other left is => ?_,fun held is => ?_⟩
  · rw [view] at is
    by_cases own : other = fd
    · rw [own, Function.update_self] at is
      rw [(keeps left is).2.2]
      exact firm.live fd node found
    · rw [Function.update_of_ne own] at is
      exact firm.live other left is
  · obtain ⟨old,there,id,present⟩ := firm.held held is
    rw [view]
    by_cases own : held.fd = fd
    · rw [own] at there
      cases found.symm.trans there
      obtain ⟨left,out,present'⟩ := spared held is own present
      exact ⟨left,by rw [own, Function.update_self, out],((keeps left out).2.1).trans id,present'⟩
    · exact ⟨old,by rw [Function.update_of_ne own]; exact there,id,present⟩

theorem actSame {c : Call} (is : (act c tables node).2 = some left) :
    left.fd = node.fd ∧ left.id = node.id ∧ left.freed = node.freed := by
  cases c with
  | add fd event cb cleanup arg memory =>
    cases cb with
    | none =>
      rw [removeLeft is]
      split <;> exact ⟨rfl,rfl,rfl⟩
    | some cb =>
      rw [installLeft is]
      split <;> exact ⟨rfl,rfl,rfl⟩
  | remove fd event =>
    rw [removeLeft is]
    split <;> exact ⟨rfl,rfl,rfl⟩
  | forceRemove fd event =>
    rw [forceLeft is]
    split <;> exact ⟨rfl,rfl,rfl⟩
  | setPausable fd pausable =>
    cases is
    exact ⟨rfl,rfl,rfl⟩
  | setPaused fd paused =>
    cases is
    exact ⟨rfl,rfl,rfl⟩

theorem presentSpared {c : Call} {flag : InCallback} (own : c.fd = fd) (spared : asksFor fd event c = true → flag ≠ .idle) :
    presentAfter event (decide (flag ≠ .idle)) true c = true := by
  by_cases busy : flag = .idle
  · have other : ¬asksFor fd event c = true := fun asks => spared asks busy
    cases c with
    | add fd' event' cb cleanup arg memory =>
      cases cb with
      | none => simpa [presentAfter,asksFor,busy,show fd' = fd from own] using other
      | some cb => simp [presentAfter]
    | remove fd' event' => simpa [presentAfter,asksFor,busy,show fd' = fd from own] using other
    | forceRemove fd' event' => simpa [presentAfter,asksFor,busy,show fd' = fd from own] using other
    | setPausable => rfl
    | setPaused => rfl
  · rw [decide_eq_true busy]
    exact presentAfterBusy

theorem Firm.addNode (firm : Firm registry) (absent : registry.view fd = none) : Firm (registry.addNode fd) := by
  obtain ⟨placed,view⟩ := addNodePlaced firm.placed absent
  refine ⟨placed,fun other node is => ?_,fun held is => ?_⟩
  · rw [view] at is
    by_cases own : other = fd
    · rw [own, Function.update_self] at is
      cases is
      rfl
    · rw [Function.update_of_ne own] at is
      exact firm.live other node is
  · obtain ⟨old,there,rest⟩ := firm.held held is
    have apart : held.fd ≠ fd := by
      intro own
      rw [own, absent] at there
      cases there
    exact ⟨old,by rw [view, Function.update_of_ne apart]; exact there,rest⟩

theorem Firm.call (firm : Firm registry) {c : Call} (spared : sparesHeld registry (.call c) = true) :
    Firm (call registry c) := by
  cases found : registry.view c.fd with
  | none =>
    rcases callAbsent found with same | ⟨event,callback,added⟩
    · rw [same]
      exact firm
    · have fresh := firm.addNode found
      have here : (registry.addNode c.fd).view c.fd = some (newNode registry.fresh c.fd) := by
        rw [(addNodePlaced firm.placed found).2, Function.update_self]
      rw [added, walkFirstAll fresh.placed]
      refine fresh.walk here (fun left is => ?_) fun held is own present => ?_
      · rw [installLeft is]
        split <;> exact ⟨rfl,rfl,rfl⟩
      · rw [newNode] at present
        cases present
  | some node =>
    rw [callFound firm.placed found]
    refine firm.walk found (fun left is => actSame is) fun held is own present => actKept ?_
    rw [present]
    refine presentSpared own.symm fun asks => ?_
    have flag : flagOf registry held.fd held.event = node.inCallback held.event := by
      rw [flagOf, own, found]
      rfl
    rw [sparesHeld, is, Option.all_some, Bool.or_eq_true, decide_eq_true_eq, flag] at spared
    exact spared.resolve_left (by rw [asks]; exact Bool.false_ne_true)

theorem Firm.enter (firm : Firm registry) (found : registry.view fd = some node) (event : FdEvent) :
    Firm (registry.walk fd (enter event)) := by
  refine firm.walk found (fun left is => ?_) fun held is own present => ⟨_,rfl,present⟩
  cases is
  exact ⟨rfl,rfl,rfl⟩

theorem leaveUnset (unset : ¬(node.cb event).isSome = true) (slot : Slot) (keep : Int) :
    (leave slot event keep tables node).2 = some (quieted node event) := by
  have none_ : (quieted node event).cb event = none := Option.not_isSome_iff_eq_none.mp unset
  rw [leave]
  split
  · rw [evtRemoveInternal, none_]
    rfl
  · rfl

theorem leaveSame {slot : Slot} (is : (leave slot event keep tables node).2 = some left)
    (spare : slot = .nextFdEvent → removalAsked (node.inCallback event) keep = true →
      ¬(evtRemoveInternal tables (quieted node event) event).2.2 = true) :
    left.fd = node.fd ∧ left.id = node.id ∧ left.freed = node.freed := by
  rw [leave] at is
  split at is
  next asked =>
    cases slot with
    | link =>
      rw [unlinkLeft is]
      exact ⟨rfl,rfl,rfl⟩
    | nextFdEvent =>
      rw [unlinkKeep (spare rfl asked), removedNode] at is
      cases is
      exact ⟨rfl,rfl,rfl⟩
  next =>
    cases is
    exact ⟨rfl,rfl,rfl⟩

theorem leavePresent {other : FdEvent} (present : (node.cb other).isSome = true)
    (spared : other = event → ¬removalAsked (node.inCallback event) keep = true) :
    ∃ left, (leave .link event keep tables node).2 = some left ∧ (left.cb other).isSome = true := by
  have kept : ((leave .link event keep tables node).2.bind fun node => node.cb other) = _ := leaveCallback tables other
  rw [if_neg fun both => spared both.1 both.2] at kept
  obtain ⟨callback,set⟩ := Option.isSome_iff_exists.mp present
  rw [set, Option.bind_eq_some_iff] at kept
  obtain ⟨left,is,there⟩ := kept
  exact ⟨left,is,by rw [there]; rfl⟩

theorem Firm.start (firm : Firm registry) {node : EventCB} (found : registry.view node.fd = some node) (slot : Slot)
    (event : FdEvent) : Firm (start slot registry node event) := by
  rw [FdRegistry.start]
  split
  next set =>
    rw [walkFirstAll firm.placed]
    exact (firm.enter found event).frame rfl rfl (firm.enter found event).held
  next unset =>
    rw [walkFirstAll firm.placed]
    have walked : Firm (registry.walk node.fd (leave slot event eventKeep)) := by
      refine firm.walk found (fun left is => ?_) fun held is own present => ?_
      · rw [leaveUnset unset] at is
        cases is
        exact ⟨rfl,rfl,rfl⟩
      · exact ⟨_,leaveUnset unset slot eventKeep,present⟩
    cases slot with
    | link => exact walked
    | nextFdEvent => exact walked.frame rfl rfl fun held is => by cases is

theorem Firm.dispatch (firm : Firm registry) {fd : Nat} {event : FdEvent}
    (spared : sparesHeld registry (.dispatch fd event) = true) : Firm (dispatch registry fd event) := by
  rw [FdRegistry.dispatch]
  cases found : registry.view fd with
  | none => exact firm
  | some node =>
    have own := viewFd found
    subst own
    dsimp only
    split
    next paused =>
      split
      next last =>
        refine firm.frame rfl rfl fun held is => ?_
        cases is
        rw [sparesHeld, found, Option.all_some, stopsAt, paused, Bool.true_and, decide_eq_true last] at spared
        exact ⟨node,found,rfl,spared⟩
      next =>
        have stepped : Firm { registry with stepsToBreak := registry.stepsToBreak - 1 } := firm.frame rfl rfl firm.held
        exact stepped.start found .link event
    next => exact firm.start found .link event

theorem Firm.singleStep (firm : Firm registry) : Firm (singleStep registry) := by
  rw [FdRegistry.singleStep]
  split
  next => exact firm
  next held is =>
    split
    next => exact firm.frame rfl rfl firm.held
    next node there =>
      rw [heldNode, Option.filter_eq_some_iff] at there
      have found : registry.view node.fd = some node := by
        rw [viewFd there.1]
        exact there.1
      exact firm.start found .nextFdEvent held.event

theorem Firm.finish (firm : Firm registry) {run : Running} (running : registry.running = some run)
    (spared : sparesHeld registry (.ret keep) = true) : Firm (finish registry run keep) := by
  rw [sparesHeld, running, Option.all_some] at spared
  obtain ⟨slot,previous,fd,event⟩ := run
  have counted : Firm registry.countEvent := firm.frame rfl rfl firm.held
  have placed := counted.placed
  unfold FdRegistry.finish resume
  split
  next =>
    rw [walkFirstAll placed]
    cases found : registry.countEvent.view fd with
    | none =>
      rw [walkAbsent found]
      cases slot with
      | link => exact counted.frame rfl rfl counted.held
      | nextFdEvent => exact counted.frame rfl rfl fun held is => by cases is
    | some node =>
      have here : registry.view fd = some node := found
      cases slot with
      | link =>
        have walked : Firm (registry.countEvent.walk fd (leave .link event keep)) := by
          refine counted.walk found (fun left is => leaveSame is fun link => by cases link) fun held is own present => ?_
          refine leavePresent present fun same asked => ?_
          have flag : flagOf registry fd event = node.inCallback event := by
            rw [flagOf, here]
            rfl
          have is' : registry.nextFdEvent = some held := is
          simp [is',flag,own,same,asked] at spared
        exact walked.frame rfl rfl walked.held
      | nextFdEvent =>
        have loose : Firm { registry.countEvent with nextFdEvent := none } :=
          counted.frame rfl rfl fun held is => by cases is
        have walked := loose.walk (f := leave .nextFdEvent event keep) found
          (fun left is => leaveSame is fun _ asked delete => ?_) fun held is => by cases is
        · exact walked.frame rfl rfl fun held is => by cases is
        · have last : FdRuns.takesLastNow registry ⟨.nextFdEvent,previous,fd,event⟩ keep = true := by
            rw [FdRuns.takesLastNow, here, Option.any_some, asked, Bool.true_and, List.all_eq_true]
            intro other _
            by_cases same : other = event
            · simp [same]
            · have alone := ((quietedDelete event).mp delete).2 other same
              simpa [same] using alone
          simp [last] at spared
  next =>
    cases slot with
    | link => exact firm.frame rfl rfl firm.held
    | nextFdEvent => exact firm.frame rfl rfl fun held is => by cases is

theorem Firm.step (firm : Firm registry) {act : Act} (spared : sparesHeld registry act = true) : Firm (step registry act) := by
  cases act with
  | call c => exact firm.call spared
  | dispatch fd event => exact firm.dispatch spared
  | singleStep => exact firm.singleStep
  | ret keep =>
    rw [FdRegistry.step]
    cases running : registry.running with
    | none => exact firm
    | some run => exact firm.finish running spared
  | debugger breakOnNext stepsToBreak => exact firm.frame rfl rfl firm.held

end

theorem createFirm (hashSize : Nat) : Firm (evtCreateHandler hashSize) := by
  refine ⟨createPlaced hashSize,fun fd node found => ?_,fun held is => ?_⟩
  · cases found
  · cases is

/- A run that spares what is held at each of its steps never leaves next_fd_event dangling. -/
theorem heldLiveAlong (hashSize : Nat) (acts : List Act)
    (spared : Along step (fun registry act => sparesHeld registry act = true) (evtCreateHandler hashSize) acts) :
    HeldLive (exec step (evtCreateHandler hashSize) acts) := by
  have firm : Firm (exec step (evtCreateHandler hashSize) acts) :=
    Along.invariant (fun _ _ firm good => firm.step good) (createFirm hashSize) spared
  exact firm.heldLive

def heldThrough : List Act :=
  [.call (.add 3 .read (some 1) none 0 true),.call (.add 5 .read (some 2) none 0 true),.call (.setPausable 5 false),
    .debugger true 1,.dispatch 3 .read,.dispatch 5 .read,.call (.remove 5 .read),.ret eventRemove,.singleStep,.ret eventKeep]

theorem heldLiveThrough : HeldLive (exec step (evtCreateHandler 19) heldThrough) :=
  heldLiveAlong 19 heldThrough (by decide +kernel)

def heldRemoved : List Act :=
  [.call (.add 3 .read (some 1) none 0 true),.call (.add 5 .read (some 2) none 0 true),.call (.setPausable 5 false),
    .debugger true 1,.dispatch 3 .read,.dispatch 5 .read,.call (.remove 3 .read),.ret eventKeep]

theorem heldRemovedDangles : (exec step (evtCreateHandler 19) heldRemoved).nextFdEvent = some ⟨0,3,.read⟩ ∧
    ¬HeldLive (exec step (evtCreateHandler 19) heldRemoved) := by
  have held : (exec step (evtCreateHandler 19) heldRemoved).nextFdEvent = some ⟨0,3,.read⟩ := by decide +kernel
  refine ⟨held,fun live => ?_⟩
  obtain ⟨node,found,-,-⟩ := live ⟨0,3,.read⟩ held
  have gone : (heldNode (exec step (evtCreateHandler 19) heldRemoved) ⟨0,3,.read⟩).isNone = true := by decide +kernel
  rw [found] at gone
  cases gone

end LibProc.FdHeld
