import LibProc.FdRuns

/-! The registry as its users see it: a callback for each descriptor and event. An addition sets
one entry or fails and changes nothing; a dispatch leaves them all as they are until its callback
returns, and then takes its own entry out if it is asked to. -/
namespace LibProc.FdCallbacks
open HashBuckets FdRegistry FdCoherence FdDispatch FdRuns

def callbackOf (registry : Registry) (fd : Nat) (event : FdEvent) : Option Callback :=
  (registry.view fd).bind fun node => node.cb event

def flagOf (registry : Registry) (fd : Nat) (event : FdEvent) : InCallback :=
  ((registry.view fd).map fun node => node.inCallback event).getD .idle

section
variable {registry : Registry} {fd cb arg : Nat} {event : FdEvent} {memory : Bool}

theorem callbackFound {node : EventCB} (found : registry.view fd = some node) (event : FdEvent) :
    callbackOf registry fd event = node.cb event := by
  rw [callbackOf, found, Option.bind_some]

theorem callbackUpdate {after : Registry} {entry : Option EventCB}
    (view : after.view = Function.update registry.view fd entry) (other : Nat) (event : FdEvent) :
    callbackOf after other event = if other = fd then entry.bind fun node => node.cb event else callbackOf registry other event := by
  rw [callbackOf, view]
  by_cases own : other = fd
  · rw [if_pos own, own, Function.update_self]
  · rw [if_neg own, Function.update_of_ne own, callbackOf]

theorem flagUpdate {after : Registry} {entry : Option EventCB}
    (view : after.view = Function.update registry.view fd entry) (other : Nat) (event : FdEvent) :
    flagOf after other event =
      if other = fd then (entry.map fun node => node.inCallback event).getD .idle else flagOf registry other event := by
  rw [flagOf, view]
  by_cases own : other = fd
  · rw [if_pos own, own, Function.update_self]
  · rw [if_neg own, Function.update_of_ne own, flagOf]

theorem addCases (placed : Placed EventCB.fd registry.hashSize registry.events) (fd : Nat) (event : FdEvent) (cb arg : Nat)
    (memory : Bool) : evtFdAdd registry fd event (some cb) arg memory = (registry,-1) ∨
      ((evtFdAdd registry fd event (some cb) arg memory).2 = 1 ∧
        ∃ node, (registry.view fd = some node ∨ registry.view fd = none ∧ node = newNode registry.fresh fd) ∧
          ∃ tables left, (install event ⟨cb,none,arg⟩ tables node).2 = some left ∧
            (evtFdAdd registry fd event (some cb) arg memory).1.view = Function.update registry.view fd (some left)) := by
  unfold evtFdAdd evtFdAddWithCleanup
  have keeps : ∀ tables (node left : EventCB), (install event ⟨cb,none,arg⟩ tables node).2 = some left → left.fd = node.fd := by
    intro tables node left is
    rw [installLeft is]
    split <;> rfl
  have total : ∀ tables node, ∃ left, (install event ⟨cb,none,arg⟩ tables node).2 = some left := by
    intro tables node
    unfold install
    dsimp only
    split <;> exact ⟨_,rfl⟩
  cases found : registry.view fd with
  | some node =>
    obtain ⟨left,is⟩ := total registry.tables node
    obtain ⟨-,-,view⟩ := walkFound placed found (keeps registry.tables node)
    refine .inr ⟨rfl,node,.inl rfl,registry.tables,left,is,?_⟩
    dsimp only
    rw [walkFirstAll placed, view, is]
  | none =>
    cases memory with
    | false => exact .inl rfl
    | true =>
      obtain ⟨fresh,added⟩ := addNodePlaced placed found
      have here : (registry.addNode fd).view fd = some (newNode registry.fresh fd) := by
        rw [added, Function.update_self]
      obtain ⟨left,is⟩ := total (registry.addNode fd).tables (newNode registry.fresh fd)
      obtain ⟨-,-,view⟩ := walkFound fresh here (keeps (registry.addNode fd).tables _)
      refine .inr ⟨rfl,_,.inr ⟨rfl,rfl⟩,(registry.addNode fd).tables,left,is,?_⟩
      dsimp only
      rw [if_pos rfl, walkFirstAll fresh, view, is, added, Function.update_idem]

theorem addCallback (placed : Placed EventCB.fd registry.hashSize registry.events)
    (added : (evtFdAdd registry fd event (some cb) arg memory).2 ≠ -1) (other : Nat) (event' : FdEvent) :
    callbackOf (evtFdAdd registry fd event (some cb) arg memory).1 other event' =
      if other = fd ∧ event' = event then some ⟨cb,none,arg⟩ else callbackOf registry other event' := by
  rcases addCases placed fd event cb arg memory with failed | ⟨-,node,was,tables,left,is,view⟩
  · rw [failed] at added
    exact absurd rfl added
  · have before : ∀ event, callbackOf registry fd event = node.cb event := by
      intro event
      rcases was with found | ⟨absent,rfl⟩
      · exact callbackFound found event
      · rw [callbackOf, absent]
        rfl
    have cbs : left.cb = Function.update node.cb event (some ⟨cb,none,arg⟩) := by
      rw [installLeft is]
      split <;> rfl
    rw [callbackUpdate view]
    by_cases own : other = fd
    · rw [if_pos own, own, Option.bind_some, cbs, before]
      by_cases same : event' = event
      · rw [same, Function.update_self, if_pos ⟨rfl,rfl⟩]
      · rw [Function.update_of_ne same, if_neg fun both => same both.2]
    · rw [if_neg own, if_neg fun both => own both.1]

theorem addFlag (placed : Placed EventCB.fd registry.hashSize registry.events) (cb arg : Nat) (memory : Bool) {other : Nat}
    {event' : FdEvent} (apart : other ≠ fd ∨ event' ≠ event) :
    flagOf (evtFdAdd registry fd event (some cb) arg memory).1 other event' = flagOf registry other event' := by
  rcases addCases placed fd event cb arg memory with failed | ⟨-,node,was,tables,left,is,view⟩
  · rw [failed]
  · rw [flagUpdate view]
    by_cases own : other = fd
    · have differ : event' ≠ event := apart.resolve_left fun away => away own
      have flags : left.inCallback event' = node.inCallback event' := by
        rw [installLeft is]
        split
        · rfl
        · exact Function.update_of_ne differ _ _
      rw [if_pos own, own, Option.map_some, Option.getD_some, flags, flagOf]
      rcases was with found | ⟨absent,rfl⟩
      · rw [found, Option.map_some, Option.getD_some]
      · rw [absent]
        rfl
    · rw [if_neg own]

theorem addInv (inv : Inv registry) (fd : Nat) (event : FdEvent) (cb arg : Nat) (memory : Bool) :
    Inv (evtFdAdd registry fd event (some cb) arg memory).1 :=
  Inv.callLinked (c := .add fd event (some cb) none arg memory) inv fun _ _ linked => linked.kept inv.sound.placed rfl

theorem addRunning (registry : Registry) (fd : Nat) (event : FdEvent) (cb arg : Nat) (memory : Bool) :
    (evtFdAdd registry fd event (some cb) arg memory).1.running = registry.running :=
  (callKeeps registry (.add fd event (some cb) none arg memory)).2

theorem leaveCallback {node : EventCB} {keep : Int} (tables : Tables) (event' : FdEvent) :
    ((leave .link event keep tables node).2.bind fun node => node.cb event') =
      if event' = event ∧ removalAsked (node.inCallback event) keep = true then none else node.cb event' := by
  by_cases asked : removalAsked (node.inCallback event) keep = true
  · have cleared : ∀ event', Function.update node.cb event none event' = if event' = event then none else node.cb event' :=
      fun event' => Function.update_apply _ _ _ _
    rw [leave, if_pos asked]
    by_cases delete : (evtRemoveInternal tables (quieted node event) event).2.2 = true
    · rw [unlinkDrop delete, Option.bind_none]
      split
      · rfl
      · rename_i other
        have differ : event' ≠ event := fun same => other ⟨same,asked⟩
        have gone := ((quietedDelete event).mp delete).2 event' differ
        exact (Option.not_isSome_iff_eq_none.mp (by rw [gone]; exact Bool.false_ne_true)).symm
    · rw [unlinkKeep delete, Option.bind_some, removedNode]
      simp only [asked,and_true]
      exact cleared event'
  · rw [leave, if_neg asked, Option.bind_some, if_neg fun both => asked both.2]
    rfl

theorem startCallback (inv : Inv registry) (still : registry.running = none) {node : EventCB}
    (found : registry.view node.fd = some node) (event other : FdEvent) (fd : Nat) :
    callbackOf (start .link registry node event) fd other = callbackOf registry fd other := by
  have idle : node.inCallback event = .idle :=
    inv.quiet node.fd node found (fun run running => by rw [still] at running; cases running) event
  unfold start
  split
  · rw [walkFirstAll inv.sound.placed]
    obtain ⟨-,-,view⟩ := walkFound (f := enter event) inv.sound.placed found (fun left is => by cases is; rfl)
    refine (callbackUpdate view fd other).trans ?_
    split
    · rename_i own
      rw [own, callbackFound found]
      rfl
    · rfl
  · rw [walkFirstAll inv.sound.placed]
    have here := (inv.sound.used node.fd node found).1
    have serves : Serves (leave .link event eventKeep) registry.tables node :=
      servesLeave inv.sound.exact found here .link eventKeep fun link => by cases link
    obtain ⟨-,view⟩ := inv.sound.served found serves
    refine (callbackUpdate view fd other).trans ?_
    split
    · rename_i own
      rw [own, callbackFound found, leaveCallback, idle, if_neg fun both => by cases both.2]
    · rfl

theorem startRunning (inv : Inv registry) (still : registry.running = none) {node : EventCB}
    (found : registry.view node.fd = some node) (event : FdEvent) :
    if (node.cb event).isSome = true then
      (∃ previous, (start .link registry node event).running = some ⟨.link,previous,node.fd,event⟩) ∧
        flagOf (start .link registry node event) node.fd event = .running
    else (start .link registry node event).running = none := by
  unfold start
  split
  · rw [walkFirstAll inv.sound.placed]
    obtain ⟨-,-,view⟩ := walkFound (f := enter event) inv.sound.placed found (fun left is => by cases is; rfl)
    refine ⟨⟨_,rfl⟩,(flagUpdate view node.fd event).trans ?_⟩
    rw [if_pos rfl]
    exact Function.update_self _ _ _
  · exact still

theorem finishCallback (inv : Inv registry) {run : Running} (running : registry.running = some run) (link : run.slot = .link)
    (keep : Int) (fd : Nat) (event : FdEvent) : callbackOf (finish registry run keep) fd event =
      if (fd = run.fd ∧ event = run.event) ∧ removalAsked (flagOf registry run.fd run.event) keep = true then none
      else callbackOf registry fd event := by
  obtain ⟨flag,present,inside⟩ := inv.inside run running
  obtain ⟨node,found,-,-,-⟩ := inside.node
  have placed : Placed EventCB.fd registry.countEvent.hashSize registry.countEvent.events := inv.sound.placed
  have again : registry.countEvent.view run.fd = some node := found
  have keeps : ∀ left, (leave .link run.event keep registry.countEvent.tables node).2 = some left → left.fd = node.fd := by
    have exact : Exact registry.countEvent.tables registry.view := ⟨inv.sound.exact.watched,
      inv.sound.exact.blocked,inv.sound.exact.counted,inv.sound.exact.highest,inv.sound.exact.bounded⟩
    have here : registry.view node.fd = some node := by rw [viewFd found]; exact found
    exact fun left is => ((servesLeave exact here (inv.sound.used _ node here).1 .link keep
      (fun held => by cases held)).keeps left is).1
  obtain ⟨-,-,view⟩ := walkFound placed again keeps
  have flagged : flagOf registry run.fd run.event = node.inCallback run.event := by
    rw [flagOf, found, Option.map_some, Option.getD_some]
  unfold finish resume
  rw [if_pos (Linked.alive inside.linked), link, walkFirstAll placed, flagged]
  refine (callbackUpdate view fd event).trans ?_
  by_cases own : fd = run.fd
  · rw [if_pos own, own, callbackFound found, leaveCallback]
    simp only [true_and]
  · rw [if_neg own, if_neg fun both => own both.1.1]
    rfl

def Held (registry : Registry) (fd : Nat) (event : FdEvent) : Prop :=
  ∃ node, registry.view fd = some node ∧
    (node.pausable && (registry.breakOnNext || node.breakpoint event)) = true ∧ registry.stepsToBreak - 1 ≤ 0

theorem dispatchCases (registry : Registry) (fd : Nat) (event : FdEvent) :
    ((dispatch registry fd event).view = registry.view ∧ (dispatch registry fd event).running = registry.running ∧
      (registry.view fd = none ∨ Held registry fd event)) ∨
      ∃ node steps, registry.view fd = some node ∧
        dispatch registry fd event = start .link { registry with stepsToBreak := steps } node event := by
  unfold dispatch
  cases found : registry.view fd with
  | none => exact .inl ⟨rfl,rfl,.inl rfl⟩
  | some node =>
    dsimp only
    split
    · rename_i paused
      split
      · rename_i last
        exact .inl ⟨rfl,rfl,.inr ⟨node,found,paused,last⟩⟩
      · exact .inr ⟨node,_,rfl,rfl⟩
    · exact .inr ⟨node,registry.stepsToBreak,rfl,rfl⟩

end
end LibProc.FdCallbacks
