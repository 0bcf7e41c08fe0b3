import LibProc.FdRuns
import LibProc.Tallies

/-! critical_fd_count over whole runs of the registry. A walk of a bucket touches one node;
each operation on a node adjusts the counter by what it makes of the node's flag, and a
node that is deleted takes its share with it. -/
namespace LibProc.FdCounter
open HashBuckets Runs FdRegistry FdCoherence FdDispatch FdRuns Tallies

inductive FdAct where
  | registry (act : Act)
  | setCritical (fd : Nat) (critical : Int)
  deriving DecidableEq, Repr

def fdStep (registry : Registry) : FdAct → Registry
  | .registry act => step registry act
  | .setCritical fd critical => evtFdSetCritical registry fd critical

/- No dispatch starts inside a callback, a callback removes no other descriptor of its own
bucket, and the debugger does not step a descriptor. -/
def allowed (registry : Registry) : FdAct → Prop
  | .registry (.call c) => ∀ run ∈ registry.running, permits registry.hashSize run.fd c ∨ removes c = false
  | .registry (.dispatch _ _) => registry.running = none
  | .registry .singleStep => False
  | _ => True

def kept : FdAct → Prop
  | .setCritical _ critical => charTruth critical
  | _ => True

def criticalNodes (registry : Registry) : Set EventCB :=
  {node | (∃ i, node ∈ registry.events i) ∧ node.critical = true}

def criticalFds (registry : Registry) : Set Nat := {fd | (registry.view fd).any EventCB.critical = true}

def Counts (f : Tables → EventCB → Tables × Option EventCB) (tables : Tables) (node : EventCB) : Prop :=
  (f tables node).1.criticalFdCount = tables.criticalFdCount +
    (if (f tables node).2.any EventCB.critical then 1 else 0) - (if node.critical then 1 else 0)

section
variable {tables : Tables} {node : EventCB} {event : FdEvent}

theorem countsSame {f : Tables → EventCB → Tables × Option EventCB}
    (flag : (f tables node).2.any EventCB.critical = node.critical)
    (count : (f tables node).1.criticalFdCount = tables.criticalFdCount) : Counts f tables node := by
  rw [Counts, flag, count]
  omega

theorem lowerMaxFdsCount (fd : Nat) (event : FdEvent) (tables : Tables) :
    (lowerMaxFds fd event tables).criticalFdCount = tables.criticalFdCount := by
  unfold lowerMaxFds
  split
  · split <;> rfl
  · rfl

theorem countsRemove (tables : Tables) (node : EventCB) (event : FdEvent) :
    Counts (fun tables node => unlink .link (evtRemoveInternal tables node event)) tables node := by
  cases present : node.cb event with
  | none => exact countsSame (by simp [evtRemoveInternal,present,unlink]) (by simp [evtRemoveInternal,present,unlink])
  | some callback =>
    have count := lowerMaxFdsCount node.fd event (clearCallback tables node.fd event callback)
    by_cases last : ({ node with cb := Function.update node.cb event none } : EventCB).empty = true
    · simp only [Counts,evtRemoveInternal,present,if_pos last,unlink,if_true,count]
      simp [clearCallback]
    · refine countsSame ?_ ?_
      · simp only [evtRemoveInternal,present,if_neg last,unlink]
        simp
      · simp only [evtRemoveInternal,present,if_neg last,unlink]
        exact count

theorem countsRemoveUnlessRunning (tables : Tables) (node : EventCB) (event : FdEvent) :
    Counts (removeUnlessRunning event) tables node := by
  by_cases idle : node.inCallback event = .idle
  · simpa [Counts,removeUnlessRunning,idle] using countsRemove tables node event
  · exact countsSame (by simp [removeUnlessRunning,idle]) (by simp [removeUnlessRunning,idle])

theorem countsForceRemove (tables : Tables) (node : EventCB) (event : FdEvent) :
    Counts (forceRemove event) tables node := by
  by_cases idle : node.inCallback event = .idle
  · simpa [Counts,forceRemove,idle] using countsRemove tables node event
  · exact countsSame (by simp [forceRemove,idle]) (by simp [forceRemove,idle])

theorem countsInstall (tables : Tables) (node : EventCB) (event : FdEvent) (callback : Callback) :
    Counts (install event callback) tables node := by
  have count : (countCallback event callback tables node).criticalFdCount = tables.criticalFdCount := by
    unfold countCallback
    split <;> rfl
  by_cases idle : node.inCallback event = .idle
  · exact countsSame (by simp [install,idle]) (by simp [install,idle,watch,count])
  · exact countsSame (by simp [install,idle]) (by simp [install,idle,count])

theorem countsRefresh (tables : Tables) (node set : EventCB) (flag : set.critical = node.critical) :
    Counts (fun tables _ => refreshAll tables set) tables node :=
  countsSame flag (by rw [refreshAllEq])

theorem countsAct (c : Call) (tables : Tables) (node : EventCB) : Counts (act c) tables node := by
  cases c with
  | add fd event cb cleanup arg memory =>
    cases cb with
    | none => exact countsRemoveUnlessRunning tables node event
    | some cb => exact countsInstall tables node event ⟨cb,cleanup,arg⟩
  | remove fd event => exact countsRemoveUnlessRunning tables node event
  | forceRemove fd event => exact countsForceRemove tables node event
  | setPausable fd pausable => exact countsRefresh tables node { node with pausable := pausable } rfl
  | setPaused fd paused => exact countsRefresh tables node { node with breakpoint := fun _ => paused } rfl

theorem countsLeave (tables : Tables) (node : EventCB) (event : FdEvent) (keep : Int) :
    Counts (leave .link event keep) tables node := by
  by_cases asked : removalAsked (node.inCallback event) keep = true
  · have removed := countsRemove tables (quieted node event) event
    rw [Counts] at removed ⊢
    rw [leave, if_pos asked]
    exact removed
  · exact countsSame (by simp [leave,asked,quieted]) (by simp [leave,asked])

theorem countsSetCritical (tables : Tables) (node : EventCB) {critical : Int} (fits : charTruth critical) :
    Counts (setCritical critical) tables node := by
  unfold Counts setCritical
  simp only [charTruthKept fits]
  cases node.critical <;> by_cases zero : critical = 0 <;> simp [zero]

end

structure FdCounted (registry : Registry) : Prop where
  inv : Inv registry
  links : ∀ run, registry.running = some run → run.slot = .link
  tally : Tally registry.tables.criticalFdCount (criticalFds registry)

section
variable {registry : Registry} {fd : Nat} {f : Tables → EventCB → Tables × Option EventCB}

theorem walkTally (placed : Placed EventCB.fd registry.hashSize registry.events)
    (tally : Tally registry.tables.criticalFdCount (criticalFds registry)) {node : EventCB}
    (found : registry.view fd = some node) (counts : Counts f registry.tables node)
    (keeps : ∀ left, (f registry.tables node).2 = some left → left.fd = node.fd) :
    Tally (registry.walk fd f).tables.criticalFdCount (criticalFds (registry.walk fd f)) := by
  obtain ⟨tables,-,view⟩ := walkFound placed found keeps
  rw [tables, counts]
  refine tally.move (e := fd) ?_ ?_ fun x ne => ?_
  · simp [criticalFds,found]
  · simp [criticalFds,view]
  · simp [criticalFds,view,ne]

theorem addNodeTally (placed : Placed EventCB.fd registry.hashSize registry.events)
    (tally : Tally registry.tables.criticalFdCount (criticalFds registry)) (absent : registry.view fd = none) :
    Tally (registry.addNode fd).tables.criticalFdCount (criticalFds (registry.addNode fd)) := by
  have view := (addNodePlaced placed absent).2
  refine tally.gain (e := fd) ?_ ?_ fun x ne => ?_
  · simp [criticalFds,absent]
  · simp [criticalFds,view,newNode]
  · simp [criticalFds,view,ne]

theorem callTally (placed : Placed EventCB.fd registry.hashSize registry.events)
    (tally : Tally registry.tables.criticalFdCount (criticalFds registry)) (c : Call) :
    Tally (call registry c).tables.criticalFdCount (criticalFds (call registry c)) := by
  cases found : registry.view c.fd with
  | none =>
    rcases callAbsent found with same | ⟨event,callback,added⟩
    · rwa [same]
    · obtain ⟨fresh,view⟩ := addNodePlaced placed found
      have here : (registry.addNode c.fd).view c.fd = some (newNode registry.fresh c.fd) := by
        rw [view, Function.update_self]
      rw [added, walkFirstAll fresh]
      refine walkTally fresh (addNodeTally placed tally found) here (countsInstall _ _ event callback) ?_
      intro left is
      rw [installLeft is]
      split <;> rfl
  | some node =>
    rw [callFound placed found]
    exact walkTally placed tally found (countsAct c _ node) fun left is => actFd is

theorem leaveFd {tables : Tables} {node left : EventCB} {event : FdEvent} {keep : Int}
    (is : (leave .link event keep tables node).2 = some left) : left.fd = node.fd := by
  unfold leave at is
  split at is
  · rw [unlink.eq_def, removedNode] at is
    split at is
    · cases is
    · cases is
      rfl
  · cases is
    rfl

theorem leaveTally (placed : Placed EventCB.fd registry.hashSize registry.events)
    (tally : Tally registry.tables.criticalFdCount (criticalFds registry)) {node : EventCB}
    (found : registry.view fd = some node) (event : FdEvent) (keep : Int) :
    Tally (registry.walkFirst fd (leave .link event keep)).tables.criticalFdCount
      (criticalFds (registry.walkFirst fd (leave .link event keep))) := by
  rw [walkFirstAll placed]
  exact walkTally placed tally found (countsLeave _ node event keep) fun left is => leaveFd is

theorem FdCounted.call (counted : FdCounted registry) {c : Call}
    (may : ∀ run ∈ registry.running, permits registry.hashSize run.fd c ∨ removes c = false) :
    FdCounted (call registry c) := by
  have placed := counted.inv.sound.placed
  refine ⟨counted.inv.callLinked fun run running linked => ?_,fun run running => ?_,
    callTally placed counted.tally c⟩
  · rcases may run running with apart | stays
    · exact linked.call placed apart
    · exact linked.kept placed stays
  · rw [(callKeeps registry c).2] at running
    exact counted.links run running

theorem FdCounted.start (counted : FdCounted registry) (still : registry.running = none) {node : EventCB}
    {event : FdEvent} (found : registry.view node.fd = some node) : FdCounted (start .link registry node event) := by
  have placed := counted.inv.sound.placed
  have inv : Inv (FdRegistry.start .link registry node event) := counted.inv.start still found
  unfold FdRegistry.start at inv ⊢
  by_cases present : (node.cb event).isSome = true
  · rw [if_pos present] at inv ⊢
    refine ⟨inv,fun run running => ?_,?_⟩
    · cases running
      rfl
    · have entered : Counts (enter event) registry.tables node := countsSame rfl rfl
      have tally := walkTally placed counted.tally found entered fun left is => by
        cases is
        rfl
      rw [← walkFirstAll placed] at tally
      exact tally
  · rw [if_neg present] at inv ⊢
    refine ⟨inv,fun run running => ?_,leaveTally placed counted.tally found event eventKeep⟩
    have none : registry.running = some run := running
    rw [still] at none
    cases none

theorem FdCounted.dispatch (counted : FdCounted registry) (still : registry.running = none) (fd : Nat)
    (event : FdEvent) : FdCounted (dispatch registry fd event) := by
  unfold FdRegistry.dispatch
  cases found : registry.view fd with
  | none => exact counted
  | some node =>
    have here : registry.view node.fd = some node := by rw [viewFd found]; exact found
    dsimp only
    split
    · split
      · exact ⟨counted.inv.frame rfl rfl rfl rfl,counted.links,counted.tally⟩
      · have passed : FdCounted { registry with stepsToBreak := registry.stepsToBreak - 1 } :=
          ⟨counted.inv.frame rfl rfl rfl rfl,counted.links,counted.tally⟩
        exact passed.start still here
    · exact counted.start still here

theorem FdCounted.ret (counted : FdCounted registry) (keep : Int) : FdCounted (step registry (.ret keep)) := by
  simp only [FdRegistry.step]
  cases running : registry.running with
  | none => exact counted
  | some run =>
    have link := counted.links run running
    have inv : Inv (FdRegistry.finish registry run keep) := counted.inv.finish running (.inl link)
    obtain ⟨flag,present,inside⟩ := counted.inv.inside run running
    obtain ⟨node,found,-⟩ := inside.node
    refine ⟨inv,fun _ done => absurd done (by simp [FdRegistry.finish]),?_⟩
    have again : registry.countEvent.view run.fd = some node := found
    have tally := @leaveTally registry.countEvent run.fd counted.inv.sound.placed counted.tally node again run.event keep
    simp only [FdRegistry.finish,resume]
    rw [if_pos (Linked.alive inside.linked), link]
    exact tally

theorem servesSetCritical {node : EventCB} (sound : Sound registry) (found : registry.view node.fd = some node)
    (critical : Int) : Serves (setCritical critical) registry.tables node := by
  have settled : Refreshed registry.tables registry.tables node.fd
      (some { node with critical := decide (critical % 256 ≠ 0) }) := by
    refine sound.exact.settled ?_ ?_ <;> intro event <;> rw [found] <;> rfl
  refine ⟨⟨settled.watched,settled.blocked,settled.counted,settled.highest,settled.bounded⟩,?_,?_⟩
  · intro left is
    cases is
    exact ⟨rfl,rfl⟩
  · intro left is
    cases is
    exact (sound.used _ node found).1

theorem Inv.setCritical (inv : Inv registry) (fd : Nat) (critical : Int) :
    Inv (evtFdSetCritical registry fd critical) := by
  unfold evtFdSetCritical
  cases found : registry.view fd with
  | none => rwa [walkAbsent found]
  | some node =>
    have here : registry.view node.fd = some node := by rw [viewFd found]; exact found
    obtain ⟨sound,view⟩ := inv.sound.served found (servesSetCritical inv.sound here critical)
    let left : EventCB := { node with critical := decide (critical % 256 ≠ 0) }
    have after : ∀ other, (registry.walk fd (FdRegistry.setCritical critical)).view other =
        if other = fd then some left else registry.view other := by
      intro other
      rw [view, Function.update_apply]
      rfl
    refine ⟨sound,fun other now is away => ?_,fun run running => ?_⟩
    · rw [after] at is
      split at is
      · rename_i same
        cases is
        exact inv.quiet fd node found (same ▸ away)
      · exact inv.quiet other now is away
    · obtain ⟨flag,present,inside⟩ := inv.inside run running
      have linked : Linked (registry.walk fd (FdRegistry.setCritical critical)) run.fd run.previous := by
        refine inside.linked.stays inv.sound.placed rfl fun other is => ?_
        rw [after]
        split
        · rename_i same
          rw [same, found] at is
          cases is
          exact ⟨left,rfl,rfl⟩
        · exact ⟨other,is,rfl⟩
      obtain ⟨held,is,raised,callback,others⟩ := inside.node
      refine ⟨flag,present,sound.placed,linked,inside.busy,?_⟩
      rw [after]
      split
      · rename_i same
        rw [same, found] at is
        cases is
        exact ⟨left,rfl,raised,callback,others⟩
      · exact ⟨held,is,raised,callback,others⟩

theorem FdCounted.setCritical (counted : FdCounted registry) (fd : Nat) {critical : Int} (fits : charTruth critical) :
    FdCounted (evtFdSetCritical registry fd critical) := by
  refine ⟨Inv.setCritical counted.inv fd critical,counted.links,?_⟩
  unfold evtFdSetCritical
  cases found : registry.view fd with
  | none =>
    rw [walkAbsent found]
    exact counted.tally
  | some node =>
    refine walkTally counted.inv.sound.placed counted.tally found (countsSetCritical _ node fits) fun left is => ?_
    cases is
    rfl

theorem FdCounted.step (counted : FdCounted registry) {act : FdAct} (may : allowed registry act) (fits : kept act) :
    FdCounted (fdStep registry act) := by
  cases act with
  | setCritical fd critical => exact counted.setCritical fd fits
  | registry act =>
    cases act with
    | call c => exact counted.call may
    | dispatch fd event => exact counted.dispatch may fd event
    | singleStep => exact may.elim
    | ret keep => exact counted.ret keep
    | debugger breakOnNext stepsToBreak => exact ⟨counted.inv.frame rfl rfl rfl rfl,counted.links,counted.tally⟩

theorem FdCounted.nodes (counted : FdCounted registry) :
    Tally registry.tables.criticalFdCount (criticalNodes registry) := by
  have sound := counted.inv.sound
  have injective : Set.InjOn EventCB.fd (criticalNodes registry) := by
    rintro first ⟨⟨i,left⟩,-⟩ second ⟨⟨j,right⟩,-⟩ same
    have found := viewMem sound left
    rw [same, viewMem sound right] at found
    exact (Option.some.inj found).symm
  have image : EventCB.fd '' criticalNodes registry = criticalFds registry := by
    ext fd
    constructor
    · rintro ⟨node,⟨⟨i,member⟩,critical⟩,rfl⟩
      simpa [criticalFds,viewMem sound member] using critical
    · intro critical
      obtain ⟨node,found,flag⟩ := (Option.any_eq_true _ _).mp critical
      exact ⟨node,⟨⟨_,(memView found).1⟩,flag⟩,(memView found).2⟩
  refine ⟨?_,?_⟩
  · refine Set.Finite.of_finite_image ?_ injective
    rw [image]
    exact counted.tally.finite
  · rw [counted.tally.exact, ← image, injective.ncard_image]

theorem createCounted (hashSize : Nat) : FdCounted (evtCreateHandler hashSize) := by
  refine ⟨createInv hashSize,nofun,tallyEmpty.same fun fd => ?_⟩
  exact iff_of_false (fun member => by cases member) (by simp)

end
end LibProc.FdCounter
