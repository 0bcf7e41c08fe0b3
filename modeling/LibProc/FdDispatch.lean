import LibProc.FdCoherence

/-! One dispatch of the descriptor registry. Calls come from outside or from the callback that
is running; one lemma says what a call does to a node, and from it follow what a whole
callback leaves behind, and where the single step and the dispatch through the bucket
part: when the callback takes the last callback of its node. -/
namespace LibProc.FdDispatch
open HashBuckets Runs FdRegistry FdCoherence

def act : Call → Tables → EventCB → Tables × Option EventCB
  | .add _ event none _ _ _ => removeUnlessRunning event
  | .add _ event (some cb) cleanup arg _ => install event ⟨cb,cleanup,arg⟩
  | .remove _ event => removeUnlessRunning event
  | .forceRemove _ event => forceRemove event
  | .setPausable _ pausable => fun tables node => refreshAll tables { node with pausable := pausable }
  | .setPaused _ paused => fun tables node => refreshAll tables { node with breakpoint := fun _ => paused }

def flagAfter (event : FdEvent) (flag : InCallback) : Call → InCallback
  | .add _ other (some _) _ _ _ => if other = event ∧ flag ≠ .idle then .readded else flag
  | .forceRemove _ other => if other = event ∧ flag ≠ .idle then .forced else flag
  | _ => flag

def presentAfter (event : FdEvent) (busy present : Bool) : Call → Bool
  | .add _ other (some _) _ _ _ => decide (other = event) || present
  | .add _ other none _ _ _ => present && (busy || decide (other ≠ event))
  | .remove _ other => present && (busy || decide (other ≠ event))
  | .forceRemove _ other => present && (busy || decide (other ≠ event))
  | _ => present

def Guarded (node : EventCB) : Prop :=
  ∀ event, node.inCallback event ≠ .idle → (node.cb event).isSome = true

section
variable {registry : Registry} {node left : EventCB} {tables : Tables} {view : Nat → Option EventCB}

theorem callFound (placed : Placed EventCB.fd registry.hashSize registry.events) {c : Call}
    (found : registry.view c.fd = some node) : call registry c = registry.walk c.fd (act c) := by
  cases c with
  | add fd event cb cleanup arg memory =>
    cases cb with
    | none => rfl
    | some cb =>
      have here : registry.view fd = some node := found
      simp only [call,evtFdAddWithCleanup,here,walkFirstAll placed,act,Call.fd]
  | remove fd event => rfl
  | forceRemove fd event => rfl
  | setPausable fd pausable => rfl
  | setPaused fd paused => rfl

theorem servesAct (exact : Exact tables view) (found : view node.fd = some node)
    (used : ∃ event, (node.cb event).isSome = true) (guarded : Guarded node) (c : Call) :
    Serves (act c) tables node := by
  cases c with
  | add fd event cb cleanup arg memory =>
    cases cb with
    | none => exact servesRemove exact found used
    | some cb => exact servesInstall exact found _ (guarded event)
  | remove fd event => exact servesRemove exact found used
  | forceRemove fd event => exact servesForce exact found used
  | setPausable fd pausable => exact servesRefresh exact found used { node with pausable := pausable } rfl rfl rfl rfl
  | setPaused fd paused => exact servesRefresh exact found used { node with breakpoint := fun _ => paused } rfl rfl rfl rfl

theorem unlinkLeft {event : FdEvent}
    (is : (unlink .link (evtRemoveInternal tables node event)).2 = some left) :
    left = { node with cb := Function.update node.cb event none } := by
  by_cases delete : (evtRemoveInternal tables node event).2.2 = true
  · rw [unlinkDrop delete] at is
    cases is
  · rw [unlinkKeep delete] at is
    cases is
    exact removedNode tables node event

theorem removeLeft {event : FdEvent} (is : (removeUnlessRunning event tables node).2 = some left) :
    left = if node.inCallback event = .idle then { node with cb := Function.update node.cb event none } else node := by
  by_cases idle : node.inCallback event = .idle
  · rw [removeUnlessRunning, if_pos idle] at is
    rw [if_pos idle]
    exact unlinkLeft is
  · rw [removeUnlessRunning, if_neg idle] at is
    rw [if_neg idle]
    exact (Option.some.inj is).symm

theorem forceLeft {event : FdEvent} (is : (forceRemove event tables node).2 = some left) :
    left = if node.inCallback event = .idle then { node with cb := Function.update node.cb event none }
      else { node with inCallback := Function.update node.inCallback event .forced } := by
  by_cases idle : node.inCallback event = .idle
  · rw [forceRemove, if_pos idle] at is
    rw [if_pos idle]
    exact unlinkLeft is
  · rw [forceRemove, if_neg idle] at is
    rw [if_neg idle]
    exact (Option.some.inj is).symm

theorem installLeft {event : FdEvent} {callback : Callback} (is : (install event callback tables node).2 = some left) :
    left = if node.inCallback event = .idle then { node with cb := Function.update node.cb event (some callback) }
      else { node with
        cb := Function.update node.cb event (some callback)
        inCallback := Function.update node.inCallback event .readded } := by
  by_cases idle : node.inCallback event = .idle
  · rw [install, if_pos idle] at is
    rw [if_pos idle]
    exact (Option.some.inj is).symm
  · rw [install, if_neg idle] at is
    rw [if_neg idle]
    exact (Option.some.inj is).symm

theorem actFlag {c : Call} (is : (act c tables node).2 = some left) (event : FdEvent) :
    left.inCallback event = flagAfter event (node.inCallback event) c := by
  cases c with
  | add fd other cb cleanup arg memory =>
    cases cb with
    | none =>
      rw [removeLeft is]
      split <;> rfl
    | some cb =>
      rw [installLeft is]
      by_cases idle : node.inCallback other = .idle
      · by_cases same : other = event
        · subst same
          simp [idle,flagAfter]
        · simp [idle,flagAfter,same]
      · by_cases same : other = event
        · subst same
          simp [idle,flagAfter]
        · simp [idle,flagAfter,same,Ne.symm same]
  | remove fd other =>
    rw [removeLeft is]
    split <;> rfl
  | forceRemove fd other =>
    rw [forceLeft is]
    by_cases idle : node.inCallback other = .idle
    · by_cases same : other = event
      · subst same
        simp [idle,flagAfter]
      · simp [idle,flagAfter,same]
    · by_cases same : other = event
      · subst same
        simp [idle,flagAfter]
      · simp [idle,flagAfter,same,Ne.symm same]
  | setPausable fd pausable =>
    cases is
    rfl
  | setPaused fd paused =>
    cases is
    rfl

theorem clearedPresent (other event : FdEvent) :
    ((if node.inCallback other = .idle then { node with cb := Function.update node.cb other none } else node).cb
      event).isSome =
      ((node.cb event).isSome && (decide (node.inCallback event ≠ .idle) || decide (other ≠ event))) := by
  by_cases same : other = event
  · subst same
    by_cases idle : node.inCallback other = .idle <;> simp [idle]
  · by_cases idle : node.inCallback other = .idle <;> simp [idle,same,Ne.symm same]

theorem actPresent {c : Call} (is : (act c tables node).2 = some left) (event : FdEvent) :
    (left.cb event).isSome =
      presentAfter event (decide (node.inCallback event ≠ .idle)) (node.cb event).isSome c := by
  cases c with
  | add fd other cb cleanup arg memory =>
    cases cb with
    | none =>
      rw [removeLeft is]
      exact clearedPresent other event
    | some cb =>
      rw [installLeft is]
      by_cases same : other = event
      · subst same
        by_cases idle : node.inCallback other = .idle <;> simp [idle,presentAfter]
      · by_cases idle : node.inCallback other = .idle <;> simp [idle,presentAfter,same,Ne.symm same]
  | remove fd other =>
    rw [removeLeft is]
    exact clearedPresent other event
  | forceRemove fd other =>
    refine Eq.trans ?_ (clearedPresent other event)
    rw [forceLeft is]
    by_cases idle : node.inCallback other = .idle
    · rw [if_pos idle, if_pos idle]
    · rw [if_neg idle, if_neg idle]
  | setPausable fd pausable =>
    cases is
    rfl
  | setPaused fd paused =>
    cases is
    rfl

theorem unlinkStays {other event : FdEvent} (apart : event ≠ other) (present : (node.cb event).isSome = true) :
    ∃ left, (unlink .link (evtRemoveInternal tables node other)).2 = some left := by
  have stays : ¬(evtRemoveInternal tables node other).2.2 = true := by
    rw [removedDelete, Bool.and_eq_true, not_and_or, emptyIff]
    refine .inr fun empty => ?_
    have gone : Function.update node.cb other none event = none := empty event
    rw [Function.update_of_ne apart] at gone
    rw [gone] at present
    cases present
  rw [unlinkKeep stays]
  exact ⟨_,rfl⟩

theorem actStays (tables : Tables) {event : FdEvent} (busy : node.inCallback event ≠ .idle)
    (present : (node.cb event).isSome = true) (c : Call) : ∃ left, (act c tables node).2 = some left := by
  have removal : ∀ other, node.inCallback other = .idle →
      ∃ left, (unlink .link (evtRemoveInternal tables node other)).2 = some left := by
    intro other idle
    have apart : event ≠ other := by
      rintro rfl
      exact busy idle
    exact unlinkStays apart present
  cases c with
  | add fd other cb cleanup arg memory =>
    cases cb with
    | none =>
      by_cases idle : node.inCallback other = .idle
      · rw [act, removeUnlessRunning, if_pos idle]
        exact removal other idle
      · rw [act, removeUnlessRunning, if_neg idle]
        exact ⟨node,rfl⟩
    | some cb =>
      by_cases idle : node.inCallback other = .idle
      · rw [act, install, if_pos idle]
        exact ⟨_,rfl⟩
      · rw [act, install, if_neg idle]
        exact ⟨_,rfl⟩
  | remove fd other =>
    by_cases idle : node.inCallback other = .idle
    · rw [act, removeUnlessRunning, if_pos idle]
      exact removal other idle
    · rw [act, removeUnlessRunning, if_neg idle]
      exact ⟨node,rfl⟩
  | forceRemove fd other =>
    by_cases idle : node.inCallback other = .idle
    · rw [act, forceRemove, if_pos idle]
      exact removal other idle
    · rw [act, forceRemove, if_neg idle]
      exact ⟨_,rfl⟩
  | setPausable fd pausable => exact ⟨_,rfl⟩
  | setPaused fd paused => exact ⟨_,rfl⟩

theorem actGone {c : Call} (is : (act c tables node).2 = none) (event : FdEvent) :
    presentAfter event (decide (node.inCallback event ≠ .idle)) (node.cb event).isSome c = false := by
  have removal : ∀ other, (removeUnlessRunning other tables node).2 = none →
      ((node.cb event).isSome && (decide (node.inCallback event ≠ .idle) || decide (other ≠ event))) = false := by
    intro other is
    by_contra kept
    rw [Bool.not_eq_false, Bool.and_eq_true, Bool.or_eq_true, decide_eq_true_eq, decide_eq_true_eq] at kept
    by_cases idle : node.inCallback other = .idle
    · have apart : event ≠ other := kept.2.elim (fun busy same => busy (same ▸ idle)) Ne.symm
      obtain ⟨left,stays⟩ : ∃ left, (unlink .link (evtRemoveInternal tables node other)).2 = some left :=
        unlinkStays apart kept.1
      rw [removeUnlessRunning, if_pos idle, stays] at is
      cases is
    · rw [removeUnlessRunning, if_neg idle] at is
      cases is
  cases c with
  | add fd other cb cleanup arg memory =>
    cases cb with
    | none => exact removal other is
    | some cb =>
      rw [act, install] at is
      dsimp only at is
      split at is <;> cases is
  | remove fd other => exact removal other is
  | forceRemove fd other =>
    refine removal other ?_
    by_cases idle : node.inCallback other = .idle
    · rw [act, forceRemove, if_pos idle] at is
      rw [removeUnlessRunning, if_pos idle]
      exact is
    · rw [act, forceRemove, if_neg idle] at is
      cases is
  | setPausable fd pausable => cases is
  | setPaused fd paused => cases is

theorem actKept {c : Call} {event : FdEvent}
    (kept : presentAfter event (decide (node.inCallback event ≠ .idle)) (node.cb event).isSome c = true) :
    ∃ left, (act c tables node).2 = some left ∧ (left.cb event).isSome = true := by
  cases out : (act c tables node).2 with
  | some left => exact ⟨left,rfl,(actPresent out event).trans kept⟩
  | none =>
    rw [actGone out event] at kept
    cases kept

theorem actFd {c : Call} (is : (act c tables node).2 = some left) : left.fd = node.fd := by
  cases c with
  | add fd other cb cleanup arg memory =>
    cases cb with
    | none => rw [removeLeft is]; split <;> rfl
    | some cb => rw [installLeft is]; split <;> rfl
  | remove fd other => rw [removeLeft is]; split <;> rfl
  | forceRemove fd other => rw [forceLeft is]; split <;> rfl
  | setPausable fd pausable => cases is; rfl
  | setPaused fd paused => cases is; rfl

theorem callAbsent {c : Call} (absent : registry.view c.fd = none) : call registry c = registry ∨
    ∃ event callback, call registry c = (registry.addNode c.fd).walkFirst c.fd (install event callback) := by
  cases c with
  | add fd event cb cleanup arg memory =>
    have here : registry.view fd = none := absent
    cases cb with
    | none => exact .inl (walkAbsent here)
    | some cb =>
      cases memory with
      | false => exact .inl (by simp only [call,evtFdAddWithCleanup,here]; rfl)
      | true => exact .inr ⟨event,⟨cb,cleanup,arg⟩,by simp only [call,evtFdAddWithCleanup,here]; rfl⟩
  | remove fd event => exact .inl (walkAbsent absent)
  | forceRemove fd event => exact .inl (walkAbsent absent)
  | setPausable fd pausable => exact .inl (walkAbsent absent)
  | setPaused fd paused => exact .inl (walkAbsent absent)

theorem addNodePlaced (placed : Placed EventCB.fd registry.hashSize registry.events) {fd : Nat}
    (absent : registry.view fd = none) :
    Placed EventCB.fd registry.hashSize (registry.addNode fd).events ∧
      (registry.addNode fd).view = Function.update registry.view fd (some (newNode registry.fresh fd)) :=
  appendFresh placed absent

theorem addedView (placed : Placed EventCB.fd registry.hashSize registry.events) {fd : Nat}
    (absent : registry.view fd = none) (event : FdEvent) (callback : Callback) :
    ∃ added, ((registry.addNode fd).walkFirst fd (install event callback)).view =
        Function.update registry.view fd (some added) ∧ ∀ other, added.inCallback other = .idle := by
  obtain ⟨fresh,view⟩ := addNodePlaced placed absent
  have found : (registry.addNode fd).view fd = some (newNode registry.fresh fd) := by
    rw [view, Function.update_self]
  rw [walkFirstAll fresh]
  have keeps : ∀ left, (install event callback (registry.addNode fd).tables (newNode registry.fresh fd)).2 =
      some left → left.fd = (newNode registry.fresh fd).fd := by
    intro left is
    rw [installLeft is]
    split <;> rfl
  obtain ⟨-,-,after⟩ := walkFound fresh found keeps
  refine ⟨{ newNode registry.fresh fd with
    cb := Function.update (newNode registry.fresh fd).cb event (some callback) },?_,fun _ => rfl⟩
  rw [after, view, Function.update_idem]
  rfl

theorem callOther (placed : Placed EventCB.fd registry.hashSize registry.events) {c : Call} {fd : Nat}
    (apart : fd ≠ c.fd) : (call registry c).view fd = registry.view fd := by
  cases found : registry.view c.fd with
  | none =>
    rcases callAbsent found with same | ⟨event,callback,added⟩
    · rw [same]
    · obtain ⟨node,view,-⟩ := addedView placed found event callback
      rw [added, view, Function.update_of_ne apart]
  | some node =>
    rw [callFound placed found]
    obtain ⟨-,-,view⟩ := walkFound (f := act c) placed found (fun left is => actFd is)
    rw [view, Function.update_of_ne apart]

theorem callOwn (placed : Placed EventCB.fd registry.hashSize registry.events) {c : Call}
    (found : registry.view c.fd = some node) :
    (call registry c).view c.fd = (act c registry.tables node).2 := by
  rw [callFound placed found]
  obtain ⟨-,-,view⟩ := walkFound (f := act c) placed found (fun left is => actFd is)
  rw [view, Function.update_self]

theorem callPlaced (placed : Placed EventCB.fd registry.hashSize registry.events) (c : Call) :
    (call registry c).hashSize = registry.hashSize ∧
      Placed EventCB.fd registry.hashSize (call registry c).events := by
  cases found : registry.view c.fd with
  | none =>
    rcases callAbsent found with same | ⟨event,callback,added⟩
    · rw [same]
      exact ⟨rfl,placed⟩
    · obtain ⟨fresh,view⟩ := addNodePlaced placed found
      rw [added, walkFirstAll fresh]
      have here : (registry.addNode c.fd).view c.fd = some (newNode registry.fresh c.fd) := by
        rw [view, Function.update_self]
      obtain ⟨-,after,-⟩ := walkFound (f := install event callback) fresh here (fun left is => by
        rw [installLeft is]
        split <;> rfl)
      exact ⟨rfl,after⟩
  | some node =>
    rw [callFound placed found]
    obtain ⟨-,after,-⟩ := walkFound (f := act c) placed found (fun left is => actFd is)
    exact ⟨rfl,after⟩

theorem callSound (sound : Sound registry) (c : Call)
    (guarded : ∀ node, registry.view c.fd = some node → Guarded node) : Sound (call registry c) := by
  cases found : registry.view c.fd with
  | none =>
    rcases callAbsent found with same | ⟨event,callback,added⟩
    · rwa [same]
    · obtain ⟨fresh,view⟩ := addNodePlaced sound.placed found
      have here : (registry.addNode c.fd).view c.fd = some (newNode registry.fresh c.fd) := by
        rw [view, Function.update_self]
      have exact : Exact (registry.addNode c.fd).tables (registry.addNode c.fd).view := by
        have settled : Exact registry.tables (Function.update registry.view c.fd
            (some (newNode registry.fresh c.fd))) := by
          refine sound.exact.refresh (sound.exact.settled ?_ ?_) <;> intro event <;> rw [found] <;> rfl
        rw [view]
        exact ⟨settled.watched,settled.blocked,settled.counted,settled.highest,settled.bounded⟩
      rw [added, walkFirstAll fresh]
      refine walkSound fresh exact here (servesInstall exact here callback (fun busy => absurd rfl busy)) rfl ?_
      intro other apart node is
      rw [view, Function.update_of_ne apart] at is
      exact sound.used other node is
  | some node =>
    rw [callFound sound.placed found]
    have here : registry.view node.fd = some node := by rw [viewFd found]; exact found
    refine sound.walk fun other is => ?_
    rw [found] at is
    cases is
    exact servesAct sound.exact here (sound.used _ _ found).1 (guarded node found) c

/- The calls a callback may make: on its own descriptor, or on one of another bucket. -/
def permits (size fd : Nat) (c : Call) : Prop := c.fd = fd ∨ c.fd % size ≠ fd % size

instance (size fd : Nat) (c : Call) : Decidable (permits size fd c) :=
  inferInstanceAs (Decidable (_ ∨ _))

def Linked (registry : Registry) (fd : Nat) (previous : Option Nat) : Prop :=
  ∀ id ∈ previous, ∃ node ∈ registry.bucket fd, node.fd ≠ fd ∧ node.id = id

theorem linkedPrevious (registry : Registry) (fd : Nat) :
    Linked registry fd (previousOf fd (registry.bucket fd)) := by
  intro id is
  rw [previousOf, Option.mem_def, Option.map_eq_some_iff] at is
  obtain ⟨node,last,named⟩ := is
  have inside := List.mem_of_getLast? last
  refine ⟨node,(List.takeWhile_prefix _).subset inside,?_,named⟩
  simpa using List.all_eq_true.mp List.all_takeWhile node inside

theorem Linked.alive {run : Running} (linked : Linked registry run.fd run.previous) :
    slotAlive registry run = true := by
  unfold slotAlive
  cases run.slot with
  | nextFdEvent => rfl
  | link =>
    cases before : run.previous with
    | none => rfl
    | some id =>
      obtain ⟨node,member,-,named⟩ := linked id before
      simpa using ⟨node,member,named⟩

theorem Linked.walk {fd other : Nat} {previous : Option Nat} {f : Tables → EventCB → Tables × Option EventCB}
    (linked : Linked registry fd previous)
    (apart : other = fd ∨ other % registry.hashSize ≠ fd % registry.hashSize) :
    Linked (registry.walk other f) fd previous := by
  intro id is
  obtain ⟨node,member,not,named⟩ := linked id is
  refine ⟨node,?_,not,named⟩
  show node ∈ Function.update registry.events (other % registry.hashSize) _ (fd % registry.hashSize)
  rcases apart with rfl | apart
  · rw [Function.update_self]
    exact visitOthers member not _
  · rw [Function.update_of_ne apart.symm]
    exact member

theorem Linked.call {fd : Nat} {previous : Option Nat} (linked : Linked registry fd previous)
    (placed : Placed EventCB.fd registry.hashSize registry.events) {c : Call}
    (permitted : permits registry.hashSize fd c) : Linked (call registry c) fd previous := by
  cases found : registry.view c.fd with
  | none =>
    rcases callAbsent found with same | ⟨event,callback,added⟩
    · rwa [same]
    · obtain ⟨fresh,-⟩ := addNodePlaced placed found
      have appended : Linked (registry.addNode c.fd) fd previous := by
        intro id is
        obtain ⟨node,member,not,named⟩ := linked id is
        refine ⟨node,?_,not,named⟩
        show node ∈ Function.update registry.events (c.fd % registry.hashSize) _ (fd % registry.hashSize)
        by_cases here : fd % registry.hashSize = c.fd % registry.hashSize
        · rw [here, Function.update_self]
          refine List.mem_append_left _ ?_
          exact here ▸ member
        · rw [Function.update_of_ne here]
          exact member
      rw [added, walkFirstAll fresh]
      exact appended.walk permitted
  | some node =>
    rw [callFound placed found]
    exact linked.walk permitted

def removes : Call → Bool
  | .add _ _ none _ _ _ => true
  | .remove _ _ => true
  | .forceRemove _ _ => true
  | _ => false

theorem actKeeps {c : Call} (stays : removes c = false) (tables : Tables) (node : EventCB) :
    ∃ left, (act c tables node).2 = some left ∧ left.id = node.id := by
  cases c with
  | add fd event cb cleanup arg memory =>
    cases cb with
    | none => cases stays
    | some cb =>
      simp only [act,install]
      split <;> exact ⟨_,rfl,rfl⟩
  | remove fd event => cases stays
  | forceRemove fd event => cases stays
  | setPausable fd pausable => exact ⟨_,rfl,rfl⟩
  | setPaused fd paused => exact ⟨_,rfl,rfl⟩

theorem Linked.stays {after : Registry} {fd : Nat} {previous : Option Nat} (linked : Linked registry fd previous)
    (placed : Placed EventCB.fd registry.hashSize registry.events) (size : after.hashSize = registry.hashSize)
    (keeps : ∀ node, registry.view node.fd = some node → ∃ left, after.view node.fd = some left ∧ left.id = node.id) :
    Linked after fd previous := by
  intro id is
  obtain ⟨node,member,not,named⟩ := linked id is
  obtain ⟨left,found,same⟩ := keeps node (lookupMem placed member)
  obtain ⟨there,fd⟩ := lookupSome found
  rw [size, placed.place _ node member, ← size] at there
  exact ⟨left,there,fd ▸ not,same.trans named⟩

theorem Linked.kept {fd : Nat} {previous : Option Nat} (linked : Linked registry fd previous)
    (placed : Placed EventCB.fd registry.hashSize registry.events) {c : Call} (stays : removes c = false) :
    Linked (FdRegistry.call registry c) fd previous := by
  refine linked.stays placed (callPlaced placed c).1 fun node found => ?_
  by_cases own : node.fd = c.fd
  · obtain ⟨left,is,same⟩ := actKeeps stays registry.tables node
    rw [own] at found ⊢
    exact ⟨left,(callOwn placed found).trans is,same⟩
  · exact ⟨node,(callOther placed own).trans found,rfl⟩

structure InCall (registry : Registry) (fd : Nat) (event : FdEvent) (flag : InCallback)
    (present : FdEvent → Bool) (previous : Option Nat) : Prop where
  placed : Placed EventCB.fd registry.hashSize registry.events
  linked : Linked registry fd previous
  busy : flag ≠ .idle
  node : ∃ node, registry.view fd = some node ∧ node.inCallback event = flag ∧
    (node.cb event).isSome = true ∧
    ∀ other ≠ event, node.inCallback other = .idle ∧ (node.cb other).isSome = present other

def ownFlag (fd : Nat) (event : FdEvent) (flag : InCallback) (c : Call) : InCallback :=
  if c.fd = fd then flagAfter event flag c else flag

def ownPresent (fd : Nat) (event : FdEvent) (present : Bool) (c : Call) : Bool :=
  if c.fd = fd then presentAfter event false present c else present

theorem flagAfterBusy {event : FdEvent} {flag : InCallback} (busy : flag ≠ .idle) (c : Call) :
    flagAfter event flag c ≠ .idle := by
  unfold flagAfter
  split
  · split
    · exact nofun
    · exact busy
  · split
    · exact nofun
    · exact busy
  · exact busy

theorem presentAfterBusy {event : FdEvent} {c : Call} : presentAfter event true true c = true := by
  unfold presentAfter
  split <;> simp

theorem flagAfterIdle {event : FdEvent} (c : Call) : flagAfter event .idle c = .idle := by
  unfold flagAfter
  split <;> simp

theorem InCall.callLinked {fd : Nat} {event : FdEvent} {flag : InCallback} {present : FdEvent → Bool}
    {previous : Option Nat} (inside : InCall registry fd event flag present previous) {c : Call}
    (linked : Linked (call registry c) fd previous) :
    InCall (call registry c) fd event (ownFlag fd event flag c)
      (fun other => ownPresent fd other (present other) c) previous := by
  obtain ⟨size,placed⟩ := callPlaced inside.placed c
  obtain ⟨node,found,raised,here,others⟩ := inside.node
  by_cases own : c.fd = fd
  · subst own
    have stays := callOwn inside.placed found
    obtain ⟨left,is⟩ := actStays registry.tables (raised ▸ inside.busy) here c
    rw [is] at stays
    have flags := actFlag is
    have keeps := actPresent is
    refine ⟨by rw [size]; exact placed,linked,?_,left,stays,?_,?_,?_⟩
    · rw [ownFlag, if_pos rfl]
      exact flagAfterBusy inside.busy c
    · rw [flags, raised, ownFlag, if_pos rfl]
    · rw [keeps, raised, here, decide_eq_true inside.busy]
      exact presentAfterBusy
    · intro other apart
      obtain ⟨idle,was⟩ := others other apart
      refine ⟨by rw [flags, idle, flagAfterIdle],?_⟩
      rw [keeps, idle, was, ownPresent, if_pos rfl]
      rfl
  · have same := callOther inside.placed (Ne.symm own)
    simp only [ownFlag,ownPresent,if_neg own]
    exact ⟨by rw [size]; exact placed,linked,inside.busy,node,same.trans found,raised,here,others⟩

theorem InCall.call {fd : Nat} {event : FdEvent} {flag : InCallback} {present : FdEvent → Bool}
    {previous : Option Nat} (inside : InCall registry fd event flag present previous) {c : Call}
    (permitted : permits registry.hashSize fd c) :
    InCall (call registry c) fd event (ownFlag fd event flag c)
      (fun other => ownPresent fd other (present other) c) previous :=
  inside.callLinked (inside.linked.call inside.placed permitted)

theorem InCall.calls {fd : Nat} {event : FdEvent} {flag : InCallback} {present : FdEvent → Bool}
    {previous : Option Nat} (inside : InCall registry fd event flag present previous) {calls : List Call}
    (permitted : ∀ c ∈ calls, permits registry.hashSize fd c) :
    InCall (calls.foldl FdRegistry.call registry) fd event (calls.foldl (ownFlag fd event) flag)
      (fun other => calls.foldl (ownPresent fd other) (present other)) previous := by
  induction calls generalizing registry flag present with
  | nil => exact inside
  | cons c rest ih =>
    have size := (callPlaced inside.placed c).1
    refine ih (inside.call (permitted c List.mem_cons_self)) ?_
    intro later member
    rw [size]
    exact permitted later (List.mem_cons_of_mem _ member)

/- The same buckets, sets and counters, and no use of freed memory in one alone. -/
structure Agree (first second : Registry) : Prop where
  tables : first.tables = second.tables
  events : first.events = second.events
  dangling : first.dangling = second.dangling

def takesLast (node : EventCB) (event : FdEvent) (calls : List Call) (keep : Int) : Prop :=
  (node.cb event).isSome = true ∧
    removalAsked (calls.foldl (ownFlag node.fd event) .running) keep = true ∧
    ∀ other ≠ event, calls.foldl (ownPresent node.fd other) (node.cb other).isSome = false

theorem walkCongr (placed : Placed EventCB.fd registry.hashSize registry.events) {fd : Nat}
    {f g : Tables → EventCB → Tables × Option EventCB} (found : registry.view fd = some node)
    (same : f registry.tables node = g registry.tables node) : registry.walk fd f = registry.walk fd g := by
  unfold Registry.walk
  rw [changeCongr placed found same]

theorem enterInCall (placed : Placed EventCB.fd registry.hashSize registry.events) {fd : Nat} {event : FdEvent}
    (found : registry.view fd = some node) (idle : ∀ other, node.inCallback other = .idle)
    (present : (node.cb event).isSome = true) :
    InCall (registry.walkFirst fd (enter event)) fd event .running (fun other => (node.cb other).isSome)
      (previousOf fd (registry.bucket fd)) := by
  rw [walkFirstAll placed]
  obtain ⟨-,after,view⟩ := walkFound (f := enter event) placed found (fun left is => by cases is; rfl)
  refine ⟨after,(linkedPrevious registry fd).walk (.inl rfl),nofun,entered node event,?_,?_,present,?_⟩
  · rw [view, Function.update_self]
    rfl
  · exact Function.update_self _ _ _
  · intro other apart
    exact ⟨(Function.update_of_ne apart _ _).trans (idle other),rfl⟩

theorem leaveSlots (tables : Tables) (slot : Slot) (event : FdEvent) (keep : Int)
    (spare : removalAsked (node.inCallback event) keep = true →
      ¬(evtRemoveInternal tables (quieted node event) event).2.2 = true) :
    leave slot event keep tables node = leave .link event keep tables node := by
  unfold leave
  split
  · rename_i asked
    rw [unlinkKeep (spare asked), unlinkKeep (spare asked)]
  · rfl

theorem quietedDelete (event : FdEvent) : (evtRemoveInternal tables (quieted node event) event).2.2 = true ↔
    (node.cb event).isSome = true ∧ ∀ other ≠ event, (node.cb other).isSome = false := by
  rw [removedDelete, Bool.and_eq_true, emptyIff]
  refine and_congr_right fun _ => ⟨?_,?_⟩
  · intro empty other apart
    have gone : Function.update node.cb event none other = none := empty other
    rw [Function.update_of_ne apart] at gone
    rw [gone]
    rfl
  · intro others other
    show Function.update node.cb event none other = none
    by_cases same : other = event
    · rw [same, Function.update_self]
    · rw [Function.update_of_ne same]
      exact Option.not_isSome_iff_eq_none.mp (by rw [others other same]; exact Bool.false_ne_true)

theorem leaveParts (placed : Placed EventCB.fd registry.hashSize registry.events) {fd : Nat} {event : FdEvent}
    {keep : Int} (found : registry.view fd = some node)
    (asked : removalAsked (node.inCallback event) keep = true)
    (delete : (evtRemoveInternal registry.tables (quieted node event) event).2.2 = true) :
    (registry.walk fd (leave .nextFdEvent event keep)).events ≠
      (registry.walk fd (leave .link event keep)).events := by
  have gone : (leave .link event keep registry.tables node).2 = none := by
    rw [leave, if_pos asked, unlinkDrop delete]
  have stays : (leave .nextFdEvent event keep registry.tables node).2 = some
      { (evtRemoveInternal registry.tables (quieted node event) event).2.1 with freed := true } := by
    rw [leave, if_pos asked, unlink, if_pos delete]
  obtain ⟨-,-,linked⟩ := walkFound (f := leave .link event keep) placed found (fun left is => by
    rw [gone] at is
    cases is)
  obtain ⟨-,-,held⟩ := walkFound (f := leave .nextFdEvent event keep) placed found (fun left is => by
    rw [stays, removedNode] at is
    cases is
    rfl)
  intro same
  have views : (registry.walk fd (leave .nextFdEvent event keep)).view fd =
      (registry.walk fd (leave .link event keep)).view fd := by
    rw [Registry.view, Registry.view, same]
    rfl
  rw [linked, held, Function.update_self, Function.update_self, gone, stays] at views
  cases views

theorem callKeeps (registry : Registry) (c : Call) :
    (call registry c).dangling = registry.dangling ∧ (call registry c).running = registry.running := by
  cases c with
  | add fd event cb cleanup arg memory =>
    cases cb with
    | none => exact ⟨rfl,rfl⟩
    | some cb =>
      simp only [call,evtFdAddWithCleanup]
      split
      · exact ⟨rfl,rfl⟩
      · split <;> exact ⟨rfl,rfl⟩
  | remove fd event => exact ⟨rfl,rfl⟩
  | forceRemove fd event => exact ⟨rfl,rfl⟩
  | setPausable fd pausable => exact ⟨rfl,rfl⟩
  | setPaused fd paused => exact ⟨rfl,rfl⟩

theorem callsDangling (calls : List Call) : (calls.foldl call registry).dangling = registry.dangling := by
  induction calls generalizing registry with
  | nil => rfl
  | cons c rest ih => rw [List.foldl_cons, ih, (callKeeps _ c).1]

theorem processDangling {fd : Nat} {event : FdEvent} {calls : List Call} {slot : Slot} {keep : Int}
    (placed : Placed EventCB.fd registry.hashSize registry.events)
    (idle : ∀ node, registry.view fd = some node → ∀ other, node.inCallback other = .idle)
    (permitted : ∀ c ∈ calls, permits registry.hashSize fd c) :
    (evtProcessFdEvent slot registry fd event calls keep).dangling = registry.dangling := by
  unfold evtProcessFdEvent
  cases found : registry.view fd with
  | none => rfl
  | some node =>
    by_cases present : (node.cb event).isSome = true
    · have inside := (enterInCall placed found (idle node found) present).calls permitted
      have alive : slotAlive (calls.foldl call (registry.walkFirst fd (enter event)))
          ⟨slot,previousOf fd (registry.bucket fd),fd,event⟩ = true := Linked.alive inside.linked
      simp only [present,if_true,resume,alive]
      exact callsDangling calls
    · simp only [present,Bool.false_eq_true,if_false]
      rfl

theorem processAgrees {fd : Nat} {event : FdEvent} {calls : List Call} {keep : Int}
    (placed : Placed EventCB.fd registry.hashSize registry.events) (found : registry.view fd = some node)
    (idle : ∀ other, node.inCallback other = .idle)
    (permitted : ∀ c ∈ calls, permits registry.hashSize fd c) :
    Agree (evtProcessFdEvent .nextFdEvent registry fd event calls keep)
      (evtProcessFdEvent .link registry fd event calls keep) ↔ ¬takesLast node event calls keep := by
  have named := viewFd found
  unfold evtProcessFdEvent
  simp only [found]
  by_cases present : (node.cb event).isSome = true
  · have inside := (enterInCall placed found idle present).calls permitted
    obtain ⟨back,here,flag,kept,others⟩ := inside.node
    simp only [present,if_true]
    generalize calls.foldl call (registry.walkFirst fd (enter event)) = returned at *
    have counted : Placed EventCB.fd returned.countEvent.hashSize returned.countEvent.events := inside.placed
    have again : returned.countEvent.view fd = some back := here
    have aliveHeld : slotAlive returned ⟨.nextFdEvent,previousOf fd (registry.bucket fd),fd,event⟩ = true := rfl
    have aliveLink : slotAlive returned ⟨.link,previousOf fd (registry.bucket fd),fd,event⟩ = true :=
      Linked.alive inside.linked
    simp only [resume,aliveHeld,aliveLink,if_true,walkFirstAll counted]
    have last : takesLast node event calls keep ↔ removalAsked (back.inCallback event) keep = true ∧
        (evtRemoveInternal returned.countEvent.tables (quieted back event) event).2.2 = true := by
      rw [takesLast, quietedDelete, flag, named]
      constructor
      · rintro ⟨-,asked,alone⟩
        exact ⟨asked,kept,fun other apart => (others other apart).2.trans (alone other apart)⟩
      · rintro ⟨asked,-,alone⟩
        exact ⟨present,asked,fun other apart => (others other apart).2.symm.trans (alone other apart)⟩
    rw [last]
    constructor
    · rintro agree ⟨asked,delete⟩
      exact leaveParts counted again asked delete agree.events
    · intro spare
      have same := leaveSlots returned.countEvent.tables .nextFdEvent event keep
        (fun asked delete => spare ⟨asked,delete⟩)
      rw [walkCongr counted again same]
      exact ⟨rfl,rfl,rfl⟩
  · have same : leave .nextFdEvent event eventKeep registry.tables node =
        leave .link event eventKeep registry.tables node := by
      refine leaveSlots _ _ _ _ fun asked => ?_
      rw [idle event] at asked
      cases asked
    simp only [present,Bool.false_eq_true,if_false,walkFirstAll placed]
    rw [walkCongr placed found same]
    exact ⟨fun _ last => present last.1,fun _ => ⟨rfl,rfl,rfl⟩⟩

end

/- A single step does what a dispatch through the bucket does just when the pointer leads
to a node of the registry and the callback does not take that node's last callback. -/
theorem steppingAgrees (registry : Registry) (held : Held) (calls : List Call) (keep : Int)
    (placed : Placed EventCB.fd registry.hashSize registry.events)
    (idle : ∀ node, registry.view held.fd = some node → ∀ event, node.inCallback event = .idle)
    (whole : registry.dangling = false)
    (permitted : ∀ c ∈ calls, permits registry.hashSize held.fd c) :
    Agree (stepHeld registry held calls keep) (evtProcessFdEvent .link registry held.fd held.event calls keep) ↔
      ∃ node, heldNode registry held = some node ∧ ¬takesLast node held.event calls keep := by
  unfold stepHeld
  cases found : heldNode registry held with
  | none =>
    constructor
    · intro agree
      have dangling := agree.dangling
      rw [processDangling placed idle permitted, whole] at dangling
      cases dangling
    · rintro ⟨node,is,-⟩
      cases is
  | some node =>
    have here : registry.view held.fd = some node := (Option.filter_eq_some_iff.mp found).1
    refine (processAgrees placed here (idle node here) permitted).trans ?_
    constructor
    · exact fun spare => ⟨node,rfl,spare⟩
    · rintro ⟨other,is,spare⟩
      cases is
      exact spare

def lone : Registry := call (evtCreateHandler 19) (.add 3 .read (some 1) none 0 true)
def paired : Registry := call lone (.add 3 .write (some 2) none 0 true)

theorem createPlaced (hashSize : Nat) :
    Placed EventCB.fd (evtCreateHandler hashSize).hashSize (evtCreateHandler hashSize).events :=
  ⟨nofun,fun _ => List.nodup_nil⟩

theorem pairedPlaced : Placed EventCB.fd paired.hashSize paired.events := by
  have first : Placed EventCB.fd lone.hashSize lone.events :=
    (callPlaced (createPlaced 19) (.add 3 .read (some 1) none 0 true)).2
  exact (callPlaced first (.add 3 .write (some 2) none 0 true)).2

theorem steppingAgreesPaired : Agree (stepHeld paired ⟨0,3,.read⟩ [] eventRemove)
    (evtProcessFdEvent .link paired 3 .read [] eventRemove) := by
  refine (steppingAgrees paired ⟨0,3,.read⟩ [] eventRemove pairedPlaced ?_ rfl nofun).mpr ?_
  · intro node is event
    cases is
    cases event <;> rfl
  · refine ⟨_,rfl,?_⟩
    rintro ⟨-,-,alone⟩
    have writes := alone .write (by decide)
    revert writes
    decide

/- REMOVE from the only callback: the dispatch empties the bucket, the single step leaves
the freed node in it. -/
theorem steppingLeavesNode : ¬Agree (stepHeld lone ⟨0,3,.read⟩ [] eventRemove)
    (evtProcessFdEvent .link lone 3 .read [] eventRemove) := by
  intro agree
  have lengths := congrArg (fun events => (events 3).length) agree.events
  revert lengths
  decide

end LibProc.FdDispatch
