import LibProc.FdDispatch

/-! Every run of the registry, its callbacks included. The invariant of a run says which
node is in a callback; with it the registry stays coherent step by step, as long as no
single step follows a dead pointer or takes a node's last callback. -/
namespace LibProc.FdRuns
open HashBuckets Runs FdRegistry FdCoherence FdDispatch

structure Coherent (registry : Registry) : Prop where
  place : ∀ i, ∀ node ∈ registry.events i, node.fd % registry.hashSize = i
  distinct : ∀ i, ((registry.events i).map EventCB.fd).Nodup
  live : ∀ i, ∀ node ∈ registry.events i, node.freed = false
  used : ∀ i, ∀ node ∈ registry.events i, ∃ event, (node.cb event).isSome = true
  watched : ∀ event fd, fd ∈ registry.tables.eventSet event ↔
    ∃ i, ∃ node ∈ registry.events i, node.fd = fd ∧ (node.cb event).isSome = true
  counted : ∀ event, registry.tables.eventCnt event = (registry.tables.eventSet event).card
  blocked : ∀ event fd, fd ∈ registry.tables.blockedSet event ↔
    ∃ i, ∃ node ∈ registry.events i, node.fd = fd ∧ (node.cb event).isSome = true ∧
      (node.pausable = false ∨ node.breakpoint event = false)
  highest : ∀ event, registry.tables.maxFds event = (registry.tables.eventSet event).sup id
  bounded : ∀ i, ∀ node ∈ registry.events i, node.fd ≤ registry.tables.maxFd

section
variable {registry : Registry}

theorem viewMem (sound : Sound registry) {i : Nat} {node : EventCB} (member : node ∈ registry.events i) :
    registry.view node.fd = some node := lookupMem sound.placed member

theorem memView {fd : Nat} {node : EventCB} (found : registry.view fd = some node) :
    node ∈ registry.events (fd % registry.hashSize) ∧ node.fd = fd := lookupSome found

theorem viewAny (sound : Sound registry) (fd : Nat) (p : EventCB → Bool) :
    (registry.view fd).any p = true ↔
      ∃ i, ∃ node ∈ registry.events i, node.fd = fd ∧ p node = true := by
  rw [Option.any_eq_true]
  constructor
  · rintro ⟨node,found,holds⟩
    exact ⟨_,node,(memView found).1,(memView found).2,holds⟩
  · rintro ⟨i,node,member,rfl,holds⟩
    exact ⟨node,viewMem sound member,holds⟩

theorem soundCoherent (sound : Sound registry) : Coherent registry := by
  refine ⟨sound.placed.place,sound.placed.distinct,?_,?_,?_,sound.exact.counted,?_,sound.exact.highest,?_⟩
  · exact fun i node member => (sound.used _ node (viewMem sound member)).2
  · exact fun i node member => (sound.used _ node (viewMem sound member)).1
  · intro event fd
    rw [sound.exact.watched, registered, viewAny sound]
  · intro event fd
    rw [sound.exact.blocked, unpaused, viewAny sound]
    simp only [EventCB.unblocked,Bool.and_eq_true,Bool.or_eq_true,Bool.not_eq_true_eq_eq_false]
  · intro i node member
    have found := viewMem sound member
    obtain ⟨event,present⟩ := (sound.used _ node found).1
    have inside : node.fd ∈ registry.tables.eventSet event := by
      rw [sound.exact.watched, found]
      exact present
    calc node.fd ≤ (registry.tables.eventSet event).sup id := Finset.le_sup (f := id) inside
      _ = registry.tables.maxFds event := (sound.exact.highest event).symm
      _ ≤ registry.tables.maxFd := sound.exact.bounded event

end

/- The registry between two steps: at most one node is in a callback, the one the running
dispatch is for. -/
structure Inv (registry : Registry) : Prop where
  sound : Sound registry
  quiet : ∀ fd node, registry.view fd = some node →
    (∀ run, registry.running = some run → run.fd ≠ fd) → ∀ event, node.inCallback event = .idle
  inside : ∀ run, registry.running = some run →
    ∃ flag present, InCall registry run.fd run.event flag present run.previous

/- What may happen: no dispatch starts inside a callback, and a callback keeps to its own
descriptor and to other buckets. -/
def allowed (registry : Registry) : Act → Bool
  | .call c => registry.running.all fun run => decide (permits registry.hashSize run.fd c)
  | .dispatch _ _ => registry.running.isNone
  | .singleStep => registry.running.isNone
  | _ => true

def takesLastNow (registry : Registry) (run : Running) (keep : Int) : Bool :=
  (registry.view run.fd).any fun node => removalAsked (node.inCallback run.event) keep &&
    FdEvent.all.all fun other => decide (other = run.event) || (node.cb other).isNone

/- A single step finds its node in the registry, and does not take the last callback. -/
def spares (registry : Registry) : Act → Bool
  | .singleStep => registry.nextFdEvent.all fun held => (heldNode registry held).isSome
  | .ret keep => registry.running.all fun run =>
    decide (run.slot = .link) || !takesLastNow registry run keep
  | _ => true

section
variable {registry : Registry}

theorem Inv.guarded (inv : Inv registry) {fd : Nat} {node : EventCB} (found : registry.view fd = some node) :
    Guarded node := by
  intro event busy
  by_cases own : ∃ run, registry.running = some run ∧ run.fd = fd
  · obtain ⟨run,running,rfl⟩ := own
    obtain ⟨flag,present,inside⟩ := inv.inside run running
    obtain ⟨other,here,-,kept,others⟩ := inside.node
    rw [found] at here
    cases here
    by_cases same : event = run.event
    · rw [same]
      exact kept
    · exact absurd (others event same).1 busy
  · refine absurd (inv.quiet fd node found ?_ event) busy
    exact fun run running same => own ⟨run,running,same⟩

theorem Inv.callLinked (inv : Inv registry) {c : Call} (links : ∀ run, registry.running = some run →
    Linked registry run.fd run.previous → Linked (call registry c) run.fd run.previous) :
    Inv (call registry c) := by
  have keeps := (callKeeps registry c).2
  refine ⟨callSound inv.sound c fun node found => inv.guarded found,?_,?_⟩
  · intro fd node found away
    rw [keeps] at away
    by_cases own : fd = c.fd
    · subst own
      cases before : registry.view c.fd with
      | none =>
        rcases callAbsent before with same | ⟨event,callback,added⟩
        · rw [same] at found
          exact inv.quiet _ node found away
        · obtain ⟨fresh,view,idle⟩ := addedView inv.sound.placed before event callback
          rw [added, view, Function.update_self] at found
          cases found
          exact idle
      | some old =>
        rw [callOwn inv.sound.placed before] at found
        intro event
        rw [actFlag found, inv.quiet _ old before away, flagAfterIdle]
    · rw [callOther inv.sound.placed own] at found
      exact inv.quiet fd node found away
  · intro run running
    rw [keeps] at running
    obtain ⟨flag,present,inside⟩ := inv.inside run running
    exact ⟨_,_,inside.callLinked (links run running inside.linked)⟩

theorem Inv.call (inv : Inv registry) {c : Call} (permitted : allowed registry (.call c) = true) :
    Inv (call registry c) := by
  refine inv.callLinked fun run running linked => linked.call inv.sound.placed ?_
  simpa [allowed,running] using permitted

theorem Inv.frame {other : Registry} (inv : Inv registry) (events : other.events = registry.events)
    (size : other.hashSize = registry.hashSize) (tables : other.tables = registry.tables)
    (running : other.running = registry.running) : Inv other := by
  have view : other.view = registry.view := by
    rw [Registry.view, Registry.view, events, size]
  refine ⟨⟨?_,?_,?_⟩,?_,?_⟩
  · rw [events, size]
    exact inv.sound.placed
  · rw [view, tables]
    exact inv.sound.exact
  · rw [view]
    exact inv.sound.used
  · rw [view, running]
    exact inv.quiet
  · intro run is
    rw [running] at is
    obtain ⟨flag,present,inside⟩ := inv.inside run is
    refine ⟨flag,present,?_,?_,inside.busy,?_⟩
    · rw [events, size]
      exact inside.placed
    · intro id previous
      rw [Registry.bucket, events, size]
      exact inside.linked id previous
    · rw [view]
      exact inside.node

theorem leaveIdle {slot : Slot} {event : FdEvent} {keep : Int} {tables : Tables} {node left : EventCB}
    (is : (leave slot event keep tables node).2 = some left) :
    left.inCallback = Function.update node.inCallback event .idle := by
  unfold leave at is
  split at is
  · rw [unlink.eq_def, removedNode] at is
    split at is
    · cases slot with
      | link => cases is
      | nextFdEvent =>
        cases is
        rfl
    · cases is
      rfl
  · cases is
    rfl

theorem Inv.left (inv : Inv registry) (slot : Slot) (event : FdEvent) (keep : Int) {fd : Nat} {node : EventCB}
    (found : registry.view fd = some node) (alone : ∀ other ≠ event, node.inCallback other = .idle)
    (away : ∀ run, registry.running = some run → run.fd = fd)
    (spare : slot = .nextFdEvent → removalAsked (node.inCallback event) keep = true →
      ¬(evtRemoveInternal registry.tables (quieted node event) event).2.2 = true) :
    Inv { registry.walkFirst fd (leave slot event keep) with running := none } := by
  have here : registry.view node.fd = some node := by rw [viewFd found]; exact found
  have serves := servesLeave inv.sound.exact here (inv.sound.used fd node found).1 slot keep spare
  obtain ⟨sound,view⟩ := inv.sound.served found serves
  rw [walkFirstAll inv.sound.placed]
  refine ⟨⟨sound.placed,sound.exact,sound.used⟩,?_,nofun⟩
  intro other left is _ flag
  have is' : (registry.walk fd (leave slot event keep)).view other = some left := is
  rw [view] at is'
  by_cases own : other = fd
  · rw [own, Function.update_self] at is'
    rw [leaveIdle is']
    by_cases same : flag = event
    · rw [same, Function.update_self]
    · rw [Function.update_of_ne same]
      exact alone flag same
  · rw [Function.update_of_ne own] at is'
    exact inv.quiet other left is' (fun run running => (away run running).symm ▸ Ne.symm own) flag

theorem Inv.start (inv : Inv registry) (still : registry.running = none) {slot : Slot} {node : EventCB}
    {event : FdEvent} (found : registry.view node.fd = some node) :
    Inv (start slot registry node event) := by
  have idle : ∀ other, node.inCallback other = .idle :=
    inv.quiet node.fd node found (fun run running => by rw [still] at running; cases running)
  unfold FdRegistry.start
  by_cases present : (node.cb event).isSome = true
  · rw [if_pos present]
    have inside := enterInCall inv.sound.placed found idle present
    have serves : Serves (enter event) registry.tables node :=
      servesEnter inv.sound.exact found (inv.sound.used _ node found).1
    obtain ⟨sound,view⟩ := inv.sound.served found serves
    rw [walkFirstAll inv.sound.placed] at inside ⊢
    refine ⟨⟨sound.placed,sound.exact,sound.used⟩,?_,?_⟩
    · intro other left is away
      have apart : other ≠ node.fd := fun same => away _ rfl same.symm
      have is' : (registry.walk node.fd (enter event)).view other = some left := is
      rw [view, Function.update_of_ne apart] at is'
      exact inv.quiet other left is' (fun run running => by rw [still] at running; cases running)
    · intro run running
      cases running
      exact ⟨_,_,inside.placed,inside.linked,inside.busy,inside.node⟩
  · rw [if_neg present]
    have left := inv.left slot event eventKeep found (fun other _ => idle other)
      (fun run running => by rw [still] at running; cases running) (fun _ asked => by
        rw [idle event] at asked
        cases asked)
    cases slot with
    | link => exact left.frame rfl rfl rfl still
    | nextFdEvent => exact left.frame rfl rfl rfl still

theorem Inv.finish (inv : Inv registry) {run : Running} (running : registry.running = some run) {keep : Int}
    (spared : run.slot = .link ∨ takesLastNow registry run keep = false) : Inv (finish registry run keep) := by
  obtain ⟨flag,present,inside⟩ := inv.inside run running
  obtain ⟨node,found,-,kept,others⟩ := inside.node
  have alive : slotAlive registry run = true := Linked.alive inside.linked
  have counted : Inv registry.countEvent := by
    have exact : Exact registry.countEvent.tables registry.view := ⟨inv.sound.exact.watched,
      inv.sound.exact.blocked,inv.sound.exact.counted,inv.sound.exact.highest,inv.sound.exact.bounded⟩
    refine ⟨⟨inv.sound.placed,exact,inv.sound.used⟩,inv.quiet,?_⟩
    intro other is
    obtain ⟨flag,present,inside⟩ := inv.inside other is
    exact ⟨flag,present,inside.placed,inside.linked,inside.busy,inside.node⟩
  have again : registry.countEvent.view run.fd = some node := found
  have left := counted.left run.slot run.event keep again (fun other apart => (others other apart).1)
    (fun other is => by
      have same : some other = some run := is.symm.trans running
      cases same
      rfl)
    (fun held asked delete => by
      rcases spared with link | spared
      · rw [link] at held
        cases held
      · have last : takesLastNow registry run keep = true := by
          rw [takesLastNow, found, Option.any_some, asked, Bool.true_and, List.all_eq_true]
          intro other _
          by_cases same : other = run.event
          · simp [same]
          · have alone := ((quietedDelete run.event).mp delete).2 other same
            simpa [same] using alone
        rw [last] at spared
        cases spared)
  unfold FdRegistry.finish resume
  rw [if_pos alive]
  cases slot : run.slot with
  | link =>
    rw [slot] at left
    exact left.frame rfl rfl rfl rfl
  | nextFdEvent =>
    rw [slot] at left
    exact left.frame rfl rfl rfl rfl

theorem Inv.dispatch (inv : Inv registry) (still : registry.running = none) (fd : Nat) (event : FdEvent) :
    Inv (dispatch registry fd event) := by
  unfold FdRegistry.dispatch
  cases found : registry.view fd with
  | none => exact inv
  | some node =>
    have here : registry.view node.fd = some node := by rw [viewFd found]; exact found
    dsimp only
    split
    · split
      · exact inv.frame rfl rfl rfl rfl
      · have passed : Inv { registry with stepsToBreak := registry.stepsToBreak - 1 } :=
          inv.frame rfl rfl rfl rfl
        exact passed.start still here
    · exact inv.start still here

theorem Inv.step (inv : Inv registry) {act : Act} (may : allowed registry act = true)
    (spared : spares registry act = true) : Inv (step registry act) := by
  cases act with
  | call c => exact inv.call may
  | dispatch fd event => exact inv.dispatch (Option.isNone_iff_eq_none.mp may) fd event
  | singleStep =>
    have still : registry.running = none := Option.isNone_iff_eq_none.mp may
    simp only [FdRegistry.step,singleStep]
    cases pointer : registry.nextFdEvent with
    | none => exact inv
    | some held =>
      cases leads : heldNode registry held with
      | none =>
        rw [spares, pointer, Option.all_some, leads] at spared
        cases spared
      | some node =>
        have found : registry.view held.fd = some node := (Option.filter_eq_some_iff.mp leads).1
        dsimp only
        rw [leads]
        exact inv.start still (by rw [viewFd found]; exact found)
  | ret keep =>
    simp only [FdRegistry.step]
    cases running : registry.running with
    | none => exact inv
    | some run =>
      refine inv.finish running ?_
      simpa [spares,running] using spared
  | debugger breakOnNext stepsToBreak => exact inv.frame rfl rfl rfl rfl

end

theorem createInv (hashSize : Nat) : Inv (evtCreateHandler hashSize) := by
  refine ⟨⟨createPlaced hashSize,⟨?_,?_,?_,?_,?_⟩,nofun⟩,nofun,nofun⟩
  · intro event fd
    exact ⟨nofun,nofun⟩
  · intro event fd
    exact ⟨nofun,nofun⟩
  · exact fun _ => rfl
  · exact fun _ => rfl
  · exact fun _ => Nat.zero_le _

/- Any run of calls, dispatches and single steps, in which each single step finds its node
and leaves it a callback. -/
theorem registryCoherent (hashSize : Nat) (acts : List Act)
    (along : Along step (fun registry act => allowed registry act = true ∧ spares registry act = true)
      (evtCreateHandler hashSize) acts) :
    Coherent (exec step (evtCreateHandler hashSize) acts) := by
  have inv : Inv (exec step (evtCreateHandler hashSize) acts) :=
    Along.invariant (fun _ _ inv good => inv.step good.1 good.2) (createInv hashSize) along
  exact soundCoherent inv.sound

def debugged : List Act :=
  [.call (.add 3 .read (some 1) none 0 true),.call (.add 3 .write (some 2) (some 7) 0 true),
    .call (.setPaused 3 true),.dispatch 3 .read,.singleStep,.call (.setPausable 3 false),.ret eventRemove,
    .dispatch 3 .write,.call (.forceRemove 3 .write),.call (.add 5 .read (some 1) none 0 true),.ret eventKeep]

theorem registryCoherentDebugged : Coherent (exec step (evtCreateHandler 19) debugged) :=
  registryCoherent 19 debugged (by decide +kernel)

def steppedAway : List Act :=
  [.call (.add 3 .read (some 1) none 0 true),.call (.setPaused 3 true),.dispatch 3 .read,.singleStep,
    .ret eventRemove]

theorem steppedAwayIncoherent :
    Along step (fun registry act => allowed registry act = true) (evtCreateHandler 19) steppedAway ∧
      ¬Coherent (exec step (evtCreateHandler 19) steppedAway) := by
  refine ⟨by decide +kernel,fun coherent => ?_⟩
  have left : ((exec step (evtCreateHandler 19) steppedAway).events 3).map EventCB.empty = [true] := by
    decide +kernel
  have used : ∀ empty ∈ ((exec step (evtCreateHandler 19) steppedAway).events 3).map EventCB.empty,
      empty = false := by
    intro empty member
    obtain ⟨node,inside,rfl⟩ := List.mem_map.mp member
    obtain ⟨event,present⟩ := coherent.used 3 node inside
    refine Bool.eq_false_iff.mpr fun none => ?_
    rw [emptyIff.mp none event] at present
    cases present
  rw [left] at used
  cases used true List.mem_cons_self

end LibProc.FdRuns
