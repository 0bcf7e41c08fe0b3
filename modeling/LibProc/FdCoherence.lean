import LibProc.FdRegistry
import Mathlib.Data.Finset.Card
import Mathlib.Data.Finset.Max
import Mathlib.Order.Lattice.Nat

/-! When the tables beside the buckets are exact: the sets, counts and maxima are those of the
callbacks the buckets hold. Each operation of the source works on the node of one descriptor;
one lemma an operation says that it refreshes the tables for that node and leaves a node
with a callback or none, and one lemma carries this to the whole registry. -/
namespace LibProc.FdCoherence
open HashBuckets Runs FdRegistry

def registered (entry : Option EventCB) (event : FdEvent) : Bool :=
  entry.any fun node => (node.cb event).isSome

def unpaused (entry : Option EventCB) (event : FdEvent) : Bool :=
  entry.any fun node => (node.cb event).isSome && node.unblocked event

def put (member : Bool) (x : Nat) (set : Finset Nat) : Finset Nat :=
  if member then insert x set else set.erase x

theorem memPut {member : Bool} {x y : Nat} {set : Finset Nat} :
    y ∈ put member x set ↔ if y = x then member = true else y ∈ set := by
  unfold put
  by_cases here : y = x <;> cases member <;> simp [here]

theorem putSelf {member : Bool} {x : Nat} {set : Finset Nat} (same : x ∈ set ↔ member = true) :
    put member x set = set := by
  ext y
  rw [memPut]
  by_cases here : y = x
  · rw [if_pos here, here, same]
  · rw [if_neg here]

structure Exact (tables : Tables) (view : Nat → Option EventCB) : Prop where
  watched : ∀ event fd, fd ∈ tables.eventSet event ↔ registered (view fd) event = true
  blocked : ∀ event fd, fd ∈ tables.blockedSet event ↔ unpaused (view fd) event = true
  counted : ∀ event, tables.eventCnt event = (tables.eventSet event).card
  highest : ∀ event, tables.maxFds event = (tables.eventSet event).sup id
  bounded : ∀ event, tables.maxFds event ≤ tables.maxFd

structure Refreshed (old new : Tables) (fd : Nat) (entry : Option EventCB) : Prop where
  watched : ∀ event, new.eventSet event = put (registered entry event) fd (old.eventSet event)
  blocked : ∀ event, new.blockedSet event = put (unpaused entry event) fd (old.blockedSet event)
  counted : ∀ event, new.eventCnt event = (new.eventSet event).card
  highest : ∀ event, new.maxFds event = (new.eventSet event).sup id
  bounded : ∀ event, new.maxFds event ≤ new.maxFd

section
variable {tables new : Tables} {view : Nat → Option EventCB} {fd : Nat} {entry : Option EventCB}

theorem Exact.refresh (exact : Exact tables view) (refreshed : Refreshed tables new fd entry) :
    Exact new (Function.update view fd entry) := by
  refine ⟨?_,?_,refreshed.counted,refreshed.highest,refreshed.bounded⟩
  · intro event other
    rw [refreshed.watched, memPut]
    by_cases here : other = fd
    · rw [if_pos here, here, Function.update_self]
    · rw [if_neg here, Function.update_of_ne here, exact.watched]
  · intro event other
    rw [refreshed.blocked, memPut]
    by_cases here : other = fd
    · rw [if_pos here, here, Function.update_self]
    · rw [if_neg here, Function.update_of_ne here, exact.blocked]

theorem Exact.settled (exact : Exact tables view)
    (same : ∀ event, registered entry event = registered (view fd) event)
    (open_ : ∀ event, unpaused entry event = unpaused (view fd) event) :
    Refreshed tables tables fd entry := by
  refine ⟨?_,?_,exact.counted,exact.highest,exact.bounded⟩
  · intro event
    rw [putSelf (by rw [same, exact.watched])]
  · intro event
    rw [putSelf (by rw [open_, exact.blocked])]

end

theorem highestFdLe (maxFds : FdEvent → Nat) (event : FdEvent) : maxFds event ≤ highestFd maxFds := by
  cases event <;> simp only [highestFd,List.foldl] <;> split <;> split <;> omega

theorem nextHighestSup (set : Finset Nat) (fd : Nat) :
    nextHighest set fd = (set.filter (· < fd)).sup id := by
  unfold nextHighest
  induction fd with
  | zero => simp
  | succ n ih =>
    cases n with
    | zero =>
      refine (Nat.le_zero.mp (Finset.sup_le ?_)).symm
      intro x member
      have below := (Finset.mem_filter.mp member).2
      exact Nat.lt_succ_iff.mp below
    | succ m =>
      rw [show m + 1 + 1 - 1 = (m + 1 - 1) + 1 by omega, List.range'_1_concat, List.foldl_append, ih]
      have split : set.filter (· < m + 1 + 1) =
          if m + 1 ∈ set then insert (m + 1) (set.filter (· < m + 1)) else set.filter (· < m + 1) := by
        ext x
        by_cases here : m + 1 ∈ set
        · rw [if_pos here, Finset.mem_insert, Finset.mem_filter, Finset.mem_filter]
          constructor
          · rintro ⟨inside,below⟩
            rcases Nat.lt_succ_iff_lt_or_eq.mp below with less | equal
            · exact .inr ⟨inside,less⟩
            · exact .inl equal
          · rintro (equal | ⟨inside,below⟩)
            · exact ⟨equal ▸ here,by omega⟩
            · exact ⟨inside,by omega⟩
        · rw [if_neg here, Finset.mem_filter, Finset.mem_filter]
          refine and_congr_right fun inside => ⟨fun below => ?_,fun below => by omega⟩
          have apart : x ≠ m + 1 := fun equal => here (equal ▸ inside)
          omega
      rw [split]
      by_cases here : m + 1 ∈ set
      · have top : (set.filter (· < m + 1)).sup id ≤ m + 1 := Finset.sup_le fun x member =>
          Nat.le_of_lt (Finset.mem_filter.mp member).2
        simpa [here,Nat.add_comm 1] using top
      · simp [here,Nat.add_comm 1]

theorem eraseHighest (set : Finset Nat) {fd : Nat} (top : fd = set.sup id) :
    (set.erase fd).sup id = nextHighest (set.erase fd) fd := by
  rw [nextHighestSup]
  congr 1
  symm
  refine Finset.filter_true_of_mem ?_
  intro x member
  have le : x ≤ set.sup id := Finset.le_sup (f := id) (Finset.mem_of_mem_erase member)
  have apart := Finset.ne_of_mem_erase member
  omega

theorem eraseLower (set : Finset Nat) {fd : Nat} (low : fd ≠ set.sup id) :
    (set.erase fd).sup id = set.sup id := by
  refine le_antisymm (Finset.sup_mono (Finset.erase_subset fd set)) ?_
  refine Finset.sup_le ?_
  intro x member
  by_cases here : x = fd
  · subst here
    have le : x ≤ set.sup id := Finset.le_sup (f := id) member
    obtain ⟨top,inside,highest⟩ := Finset.exists_mem_eq_sup set ⟨x,member⟩ id
    have apart : top ≠ x := by
      intro same
      exact low (same ▸ highest.symm)
    rw [show (id x : Nat) = x from rfl]
    calc x ≤ set.sup id := le
      _ = id top := highest
      _ ≤ (set.erase x).sup id := Finset.le_sup (Finset.mem_erase.mpr ⟨apart,inside⟩)
  · exact Finset.le_sup (f := id) (Finset.mem_erase.mpr ⟨here,member⟩)

section
variable {tables : Tables} {view : Nat → Option EventCB} {node : EventCB} {event : FdEvent}

theorem Refreshed.entry {old new : Tables} {fd : Nat} {first second : Option EventCB}
    (refreshed : Refreshed old new fd first)
    (same : ∀ event, registered first event = registered second event)
    (open_ : ∀ event, unpaused first event = unpaused second event) : Refreshed old new fd second :=
  ⟨fun event => by rw [refreshed.watched, same],fun event => by rw [refreshed.blocked, open_],
    refreshed.counted,refreshed.highest,refreshed.bounded⟩

theorem Exact.change (exact : Exact tables view) (event : FdEvent) (here away : Bool)
    (found : view node.fd = some node) {left : EventCB} {new : Tables} (is : registered (some left) event = here)
    (pauses : unpaused (some left) event = away)
    (others : ∀ other ≠ event, left.cb other = node.cb other)
    (pausing : ∀ other ≠ event, left.unblocked other = node.unblocked other)
    (sets : new.eventSet = Function.update tables.eventSet event (put here node.fd (tables.eventSet event)))
    (blocks : new.blockedSet =
      Function.update tables.blockedSet event (put away node.fd (tables.blockedSet event)))
    (count : new.eventCnt =
      Function.update tables.eventCnt event ((put here node.fd (tables.eventSet event)).card : Int))
    (top : new.maxFds =
      Function.update tables.maxFds event ((put here node.fd (tables.eventSet event)).sup id))
    (bounded : ∀ other, new.maxFds other ≤ new.maxFd) :
    Refreshed tables new node.fd (some left) := by
  subst is pauses
  refine ⟨?_,?_,?_,?_,bounded⟩ <;> intro other <;> by_cases same : other = event
  · subst same
    rw [sets, Function.update_self]
  · rw [sets, Function.update_of_ne same, putSelf]
    simp only [exact.watched,found,registered,Option.any_some,others other same]
  · subst same
    rw [blocks, Function.update_self]
  · rw [blocks, Function.update_of_ne same, putSelf]
    simp only [exact.blocked,found,unpaused,Option.any_some,others other same,pausing other same]
  · subst same
    rw [sets, count, Function.update_self, Function.update_self]
  · rw [sets, count, Function.update_of_ne same, Function.update_of_ne same, exact.counted]
  · subst same
    rw [sets, top, Function.update_self, Function.update_self]
  · rw [sets, top, Function.update_of_ne same, Function.update_of_ne same, exact.highest]

/- Taking a descriptor out of an event's set: the maximum is that of what is left, and
maxFd stays above every maximum whether it is computed again or not. -/
theorem lowerMaxFdsSpec {set : Finset Nat} {fd : Nat}
    (erased : tables.eventSet event = set.erase fd) (count : tables.eventCnt event = (set.erase fd).card)
    (top : tables.maxFds event = set.sup id) (bounded : ∀ other, tables.maxFds other ≤ tables.maxFd) :
    (lowerMaxFds fd event tables).maxFds =
        Function.update tables.maxFds event ((set.erase fd).sup id) ∧
      (∀ other, (lowerMaxFds fd event tables).maxFds other ≤ (lowerMaxFds fd event tables).maxFd) := by
  unfold lowerMaxFds
  by_cases highest : fd = tables.maxFds event
  · rw [if_pos highest]
    by_cases some : 0 < tables.eventCnt event
    · rw [if_pos some]
      refine ⟨?_,highestFdLe _⟩
      rw [eraseHighest set (highest.trans top), erased]
    · rw [if_neg some]
      have none : set.erase fd = ∅ := by
        rw [← Finset.card_eq_zero]
        omega
      refine ⟨by rw [none, Finset.sup_empty]; rfl,?_⟩
      intro other
      dsimp only
      by_cases here : other = event
      · subst here
        rw [Function.update_self]
        exact Nat.zero_le _
      · rw [Function.update_of_ne here]
        exact bounded other
  · rw [if_neg highest]
    refine ⟨?_,bounded⟩
    rw [eraseLower set (top ▸ highest), ← top, Function.update_eq_self]

theorem lowerMaxFdsSets (tables : Tables) (event : FdEvent) (fd : Nat) : (lowerMaxFds fd event tables).eventSet = tables.eventSet ∧
    (lowerMaxFds fd event tables).blockedSet = tables.blockedSet ∧
    (lowerMaxFds fd event tables).eventCnt = tables.eventCnt := by
  unfold lowerMaxFds
  split
  · split <;> exact ⟨rfl,rfl,rfl⟩
  · exact ⟨rfl,rfl,rfl⟩

theorem clearedAbsent (present : node.cb event = none) : Function.update node.cb event none = node.cb := by
  rw [← present, Function.update_eq_self]

theorem removedNode (tables : Tables) (node : EventCB) (event : FdEvent) : (evtRemoveInternal tables node event).2.1 =
    { node with cb := Function.update node.cb event none } := by
  unfold evtRemoveInternal
  cases present : node.cb event with
  | none => simp only [clearedAbsent present]
  | some callback =>
    dsimp only
    split <;> rfl

theorem removedDelete (tables : Tables) (node : EventCB) (event : FdEvent) : (evtRemoveInternal tables node event).2.2 = ((node.cb event).isSome &&
    EventCB.empty { node with cb := Function.update node.cb event none }) := by
  unfold evtRemoveInternal
  cases present : node.cb event with
  | none => rfl
  | some callback =>
    dsimp only
    split
    · rename_i empty
      exact empty.symm
    · rename_i left
      exact (Bool.eq_false_of_not_eq_true left).symm

theorem clearedRefreshed (exact : Exact tables view) (found : view node.fd = some node) {callback : Callback}
    (present : node.cb event = some callback) :
    Refreshed tables (lowerMaxFds node.fd event (clearCallback tables node.fd event callback)) node.fd
      (some { node with cb := Function.update node.cb event none }) := by
  have member : node.fd ∈ tables.eventSet event := by
    rw [exact.watched, found]
    simp [registered,present]
  have positive := Finset.card_pos.mpr ⟨node.fd,member⟩
  have count : tables.eventCnt event - 1 = ((tables.eventSet event).erase node.fd).card := by
    rw [exact.counted, Finset.card_erase_of_mem member]
    omega
  have erased : (clearCallback tables node.fd event callback).eventSet event =
      (tables.eventSet event).erase node.fd := Function.update_self _ _ _
  have counts : (clearCallback tables node.fd event callback).eventCnt event =
      ((tables.eventSet event).erase node.fd).card := by
    rw [← count]
    exact Function.update_self _ _ _
  have lowered := lowerMaxFdsSpec erased counts (exact.highest event) exact.bounded
  have kept := lowerMaxFdsSets (clearCallback tables node.fd event callback) event node.fd
  refine exact.change event false false found (by simp [registered]) (by simp [unpaused])
    (fun other apart => Function.update_of_ne apart _ _) (fun _ _ => rfl) kept.1 kept.2.1 ?_ lowered.1
    lowered.2
  rw [kept.2.2]
  show Function.update tables.eventCnt event _ = Function.update tables.eventCnt event _
  rw [count]
  rfl

theorem removeRefreshed (exact : Exact tables view) (event : FdEvent) (found : view node.fd = some node) :
    Refreshed tables (evtRemoveInternal tables node event).1 node.fd
      (some (evtRemoveInternal tables node event).2.1) := by
  rw [removedNode]
  unfold evtRemoveInternal
  cases present : node.cb event with
  | none =>
    simp only [clearedAbsent present]
    exact exact.settled (fun _ => by rw [found]) (fun _ => by rw [found])
  | some callback =>
    have cleared := clearedRefreshed exact found present
    dsimp only
    split
    · exact ⟨cleared.watched,cleared.blocked,cleared.counted,cleared.highest,cleared.bounded⟩
    · exact cleared

structure Serves (f : Tables → EventCB → Tables × Option EventCB) (tables : Tables) (node : EventCB) : Prop where
  refreshed : Refreshed tables (f tables node).1 node.fd (f tables node).2
  keeps : ∀ left, (f tables node).2 = some left → left.fd = node.fd ∧ left.freed = node.freed
  used : ∀ left, (f tables node).2 = some left → ∃ event, (left.cb event).isSome = true

theorem emptyIff : node.empty = true ↔ ∀ event, node.cb event = none := by
  simp only [EventCB.empty,FdEvent.all,List.all_cons,List.all_nil,Option.isNone_iff_eq_none,
    Bool.and_eq_true,and_true]
  constructor
  · rintro ⟨read,write,error⟩ event
    cases event <;> assumption
  · exact fun none => ⟨none _,none _,none _⟩

theorem notEmpty (left : ¬node.empty = true) : ∃ event, (node.cb event).isSome = true := by
  rw [emptyIff, not_forall] at left
  obtain ⟨event,present⟩ := left
  exact ⟨event,Option.isSome_iff_ne_none.mpr present⟩

theorem unlinkDrop {removed : Tables × EventCB × Bool} (delete : removed.2.2 = true) :
    unlink .link removed = (removed.1,none) := by
  unfold unlink
  rw [if_pos delete]

theorem unlinkKeep {removed : Tables × EventCB × Bool} (keep : ¬removed.2.2 = true) (slot : Slot) :
    unlink slot removed = (removed.1,some removed.2.1) := by
  unfold unlink
  rw [if_neg keep]

theorem servesUnlink (exact : Exact tables view) (event : FdEvent) (found : view node.fd = some node)
    (used : ∃ event, (node.cb event).isSome = true) (slot : Slot)
    (spare : slot = .nextFdEvent → ¬(evtRemoveInternal tables node event).2.2 = true) :
    Serves (fun tables node => unlink slot (evtRemoveInternal tables node event)) tables node := by
  have refreshed := removeRefreshed exact event found
  have deleted := removedDelete tables node event
  have named := removedNode tables node event
  by_cases delete : (evtRemoveInternal tables node event).2.2 = true
  · have slotted : slot = .link := by
      cases slot with
      | link => rfl
      | nextFdEvent => exact absurd delete (spare rfl)
    subst slotted
    have out := unlinkDrop delete
    rw [deleted, Bool.and_eq_true, ← named, emptyIff] at delete
    refine ⟨?_,?_,?_⟩ <;> rw [out]
    · refine refreshed.entry ?_ ?_
      · intro other
        simp [registered,delete.2 other]
      · intro other
        simp [unpaused,delete.2 other]
    · intro left is
      cases is
    · intro left is
      cases is
  · have out := unlinkKeep delete slot
    refine ⟨?_,?_,?_⟩ <;> rw [out]
    · exact refreshed
    · intro left is
      rw [named] at is
      cases is
      exact ⟨rfl,rfl⟩
    · intro left is
      cases is
      rw [deleted, Bool.and_eq_true, not_and_or, ← named] at delete
      rcases delete with absent | left
      · have same : Function.update node.cb event none = node.cb := by
          rw [← Option.not_isSome_iff_eq_none.mp absent, Function.update_eq_self]
        simp only [named,same]
        exact used
      · exact notEmpty left

theorem servesFlags (exact : Exact tables view) (found : view node.fd = some node)
    (used : ∃ event, (node.cb event).isSome = true) {f : Tables → EventCB → Tables × Option EventCB}
    {left : EventCB} (out : f tables node = (tables,some left)) (fd : left.fd = node.fd)
    (freed : left.freed = node.freed) (cb : left.cb = node.cb)
    (pausing : left.unblocked = node.unblocked) : Serves f tables node := by
  refine ⟨?_,?_,?_⟩ <;> rw [out]
  · refine exact.settled ?_ ?_
    · intro event
      simp only [found,registered,Option.any_some,cb]
    · intro event
      simp only [found,unpaused,Option.any_some,cb,pausing]
  · intro other is
    cases is
    exact ⟨fd,freed⟩
  · intro other is
    cases is
    rw [cb]
    exact used

theorem Serves.congr {f g : Tables → EventCB → Tables × Option EventCB} {quiet : EventCB}
    (serves : Serves g tables quiet) (out : f tables node = g tables quiet) (fd : quiet.fd = node.fd)
    (freed : quiet.freed = node.freed) : Serves f tables node := by
  refine ⟨?_,?_,?_⟩ <;> rw [out]
  · rw [← fd]
    exact serves.refreshed
  · rw [← fd, ← freed]
    exact serves.keeps
  · exact serves.used

theorem servesRemove (exact : Exact tables view) (found : view node.fd = some node)
    (used : ∃ event, (node.cb event).isSome = true) : Serves (removeUnlessRunning event) tables node := by
  by_cases idle : node.inCallback event = .idle
  · have serves := servesUnlink exact event found used .link (fun slot => nomatch slot)
    exact serves.congr (if_pos idle) rfl rfl
  · exact servesFlags exact found used (if_neg idle) rfl rfl rfl rfl

theorem servesForce (exact : Exact tables view) (found : view node.fd = some node)
    (used : ∃ event, (node.cb event).isSome = true) : Serves (forceRemove event) tables node := by
  by_cases idle : node.inCallback event = .idle
  · have serves := servesUnlink exact event found used .link (fun slot => nomatch slot)
    exact serves.congr (if_pos idle) rfl rfl
  · exact servesFlags exact found used (if_neg idle) rfl rfl rfl rfl

theorem servesEnter (exact : Exact tables view) (found : view node.fd = some node)
    (used : ∃ event, (node.cb event).isSome = true) : Serves (enter event) tables node :=
  servesFlags exact found used rfl rfl rfl rfl rfl

theorem servesLeave (exact : Exact tables view) (found : view node.fd = some node)
    (used : ∃ event, (node.cb event).isSome = true) (slot : Slot) (keep : Int)
    (spare : slot = .nextFdEvent → removalAsked (node.inCallback event) keep = true →
      ¬(evtRemoveInternal tables (quieted node event) event).2.2 = true) :
    Serves (leave slot event keep) tables node := by
  by_cases asked : removalAsked (node.inCallback event) keep = true
  · have quiet : Exact tables (Function.update view node.fd (some (quieted node event))) := by
      refine exact.refresh (exact.settled ?_ ?_)
      · intro other
        rw [found]
        rfl
      · intro other
        rw [found]
        rfl
    have here : Function.update view node.fd (some (quieted node event)) (quieted node event).fd =
        some (quieted node event) := Function.update_self _ _ _
    have serves := servesUnlink quiet event here used slot (fun is => spare is asked)
    exact serves.congr (if_pos asked) rfl rfl
  · exact servesFlags exact found used (if_neg asked) rfl rfl rfl rfl

theorem countCallbackSets (event : FdEvent) (callback : Callback) (tables : Tables) (node : EventCB) :
    (countCallback event callback tables node).eventSet = tables.eventSet ∧
      (countCallback event callback tables node).blockedSet = tables.blockedSet ∧
      (countCallback event callback tables node).maxFds = tables.maxFds := by
  unfold countCallback
  split <;> exact ⟨rfl,rfl,rfl⟩

theorem countCallbackCount (exact : Exact tables view) (found : view node.fd = some node)
    (callback : Callback) : (countCallback event callback tables node).eventCnt =
      Function.update tables.eventCnt event ((insert node.fd (tables.eventSet event)).card : Int) := by
  have member : node.fd ∈ tables.eventSet event ↔ (node.cb event).isSome = true := by
    rw [exact.watched, found]
    rfl
  unfold countCallback
  cases present : node.cb event with
  | none =>
    have absent : node.fd ∉ tables.eventSet event := by
      rw [member, present]
      simp
    dsimp only
    rw [Finset.card_insert_of_notMem absent, exact.counted, Nat.cast_add, Nat.cast_one]
  | some old =>
    have here : node.fd ∈ tables.eventSet event := by
      rw [member, present]
      rfl
    dsimp only
    rw [Finset.insert_eq_of_mem here, ← exact.counted, Function.update_eq_self]

theorem watchBlocked (exact : Exact tables view) (found : view node.fd = some node) :
    (if node.unblocked event then
        Function.update tables.blockedSet event (insert node.fd (tables.blockedSet event))
      else tables.blockedSet) =
      Function.update tables.blockedSet event (put (node.unblocked event) node.fd (tables.blockedSet event)) := by
  by_cases unblocked : node.unblocked event = true
  · rw [if_pos unblocked, unblocked]
    rfl
  · rw [if_neg unblocked, putSelf, Function.update_eq_self]
    rw [exact.blocked, found]
    simp [unpaused,unblocked]

@[simp] theorem installedPresent (callback : Callback) :
    ((Function.update node.cb event (some callback)) event).isSome = true := by
  rw [Function.update_self]
  rfl

theorem servesInstallIdle (exact : Exact tables view) (found : view node.fd = some node) (callback : Callback)
    (idle : node.inCallback event = .idle) : Serves (install event callback) tables node := by
  have counted := countCallbackSets event callback tables node
  have out : install event callback tables node =
      (watch event (countCallback event callback tables node)
        { node with cb := Function.update node.cb event (some callback) },
        some { node with cb := Function.update node.cb event (some callback) }) := if_pos idle
  refine ⟨?_,?_,?_⟩ <;> rw [out]
  · refine exact.change event true (node.unblocked event) found (installedPresent callback) ?_
      (fun other apart => Function.update_of_ne apart _ _) (fun _ _ => rfl) ?_ ?_ ?_ ?_ (highestFdLe _)
    · simp only [unpaused,Option.any_some,installedPresent,Bool.true_and]
      rfl
    · simp only [watch,counted.1]
      rfl
    · rw [← watchBlocked exact found]
      simp only [watch,counted.2.1]
      rfl
    · exact countCallbackCount exact found callback
    · simp only [watch,counted.2.2]
      congr 1
      rw [exact.highest]
      show _ = (insert node.fd (tables.eventSet event)).sup id
      rw [Finset.sup_insert]
      exact max_def_lt _ _ |>.symm.trans (max_comm _ _)
  · intro left is
    cases is
    exact ⟨rfl,rfl⟩
  · intro left is
    cases is
    exact ⟨event,installedPresent callback⟩

theorem servesInstallBusy (exact : Exact tables view) (found : view node.fd = some node) (callback : Callback)
    (busy : node.inCallback event ≠ .idle) (there : (node.cb event).isSome = true) :
    Serves (install event callback) tables node := by
  have out : install event callback tables node =
      (countCallback event callback tables node,
        some { node with
          cb := Function.update node.cb event (some callback)
          inCallback := Function.update node.inCallback event .readded }) := if_neg busy
  have cb : ∀ other, (Function.update node.cb event (some callback) other).isSome = (node.cb other).isSome := by
    intro other
    by_cases same : other = event
    · subst same
      rw [installedPresent, there]
    · rw [Function.update_of_ne same]
  obtain ⟨old,is⟩ := Option.isSome_iff_exists.mp there
  have logged : countCallback event callback tables node =
      { tables with cleanups := tables.cleanups ++ overwritten old callback event } := by
    unfold countCallback
    rw [is]
  refine ⟨?_,?_,?_⟩ <;> rw [out]
  · rw [logged]
    have settled : Refreshed tables tables node.fd (some { node with
        cb := Function.update node.cb event (some callback)
        inCallback := Function.update node.inCallback event .readded }) := by
      refine exact.settled ?_ ?_
      · intro other
        simp only [found,registered,Option.any_some,cb]
      · intro other
        simp only [found,unpaused,Option.any_some,cb]
        rfl
    exact ⟨settled.watched,settled.blocked,settled.counted,settled.highest,settled.bounded⟩
  · intro left is
    cases is
    exact ⟨rfl,rfl⟩
  · intro left is
    cases is
    exact ⟨event,installedPresent callback⟩

theorem servesInstall (exact : Exact tables view) (found : view node.fd = some node) (callback : Callback)
    (busy : node.inCallback event ≠ .idle → (node.cb event).isSome = true) :
    Serves (install event callback) tables node := by
  by_cases idle : node.inCallback event = .idle
  · exact servesInstallIdle exact found callback idle
  · exact servesInstallBusy exact found callback idle (busy idle)

theorem refreshBlockedEq (event : FdEvent) : refreshBlocked node tables event = { tables with
    blockedSet := Function.update tables.blockedSet event
      (put ((node.cb event).isSome && node.unblocked event) node.fd (tables.blockedSet event)) } := by
  unfold refreshBlocked put
  split <;> rfl

theorem refreshAllEq : refreshAll tables node = ({ tables with
    blockedSet := fun event =>
      put ((node.cb event).isSome && node.unblocked event) node.fd (tables.blockedSet event) },some node) := by
  unfold refreshAll
  simp only [FdEvent.all,List.foldl,refreshBlockedEq]
  congr 2
  funext event
  cases event <;> simp [Function.update]

theorem servesRefresh (exact : Exact tables view) (found : view node.fd = some node)
    (used : ∃ event, (node.cb event).isSome = true) {f : Tables → EventCB → Tables × Option EventCB}
    (left : EventCB) (out : f tables node = refreshAll tables left) (fd : left.fd = node.fd)
    (freed : left.freed = node.freed) (cb : left.cb = node.cb) : Serves f tables node := by
  rw [refreshAllEq] at out
  refine ⟨?_,?_,?_⟩ <;> rw [out]
  · refine ⟨?_,?_,exact.counted,exact.highest,exact.bounded⟩
    · intro event
      rw [putSelf]
      simp only [exact.watched,found,registered,Option.any_some,cb]
    · intro event
      rw [← fd]
      rfl
  · intro other is
    cases is
    exact ⟨fd,freed⟩
  · intro other is
    cases is
    rw [cb]
    exact used

end

structure Sound (registry : Registry) : Prop where
  placed : Placed EventCB.fd registry.hashSize registry.events
  exact : Exact registry.tables registry.view
  used : ∀ fd node, registry.view fd = some node →
    (∃ event, (node.cb event).isSome = true) ∧ node.freed = false

section
variable {registry : Registry} {fd : Nat} {f : Tables → EventCB → Tables × Option EventCB}

theorem viewFd {node : EventCB} (found : registry.view fd = some node) : node.fd = fd :=
  (lookupSome found).2

theorem walkFirstAll (placed : Placed EventCB.fd registry.hashSize registry.events) :
    registry.walkFirst fd f = registry.walk fd f := by
  unfold Registry.walkFirst Registry.walk
  rw [changeFirstAll placed]

theorem walkAbsent (absent : registry.view fd = none) : registry.walk fd f = registry := by
  unfold Registry.walk
  rw [changeAbsent absent]

theorem walkFound (placed : Placed EventCB.fd registry.hashSize registry.events) {node : EventCB}
    (found : registry.view fd = some node)
    (keeps : ∀ left, (f registry.tables node).2 = some left → left.fd = node.fd) :
    (registry.walk fd f).tables = (f registry.tables node).1 ∧
      Placed EventCB.fd registry.hashSize (registry.walk fd f).events ∧
      (registry.walk fd f).view = Function.update registry.view fd (f registry.tables node).2 := by
  have named := viewFd found
  exact changeFound placed found registry.tables (fun left is => (keeps left is).trans named)

theorem walkSound (placed : Placed EventCB.fd registry.hashSize registry.events)
    (exact : Exact registry.tables registry.view) {node : EventCB} (found : registry.view fd = some node)
    (serves : Serves f registry.tables node) (live : node.freed = false)
    (used : ∀ other ≠ fd, ∀ node, registry.view other = some node →
      (∃ event, (node.cb event).isSome = true) ∧ node.freed = false) :
    Sound (registry.walk fd f) := by
  obtain ⟨tables,placed,view⟩ := walkFound placed found (fun left is => (serves.keeps left is).1)
  refine ⟨placed,?_,?_⟩
  · rw [tables, view, ← viewFd found]
    exact exact.refresh serves.refreshed
  · intro other left is
    rw [view] at is
    by_cases here : other = fd
    · rw [here, Function.update_self] at is
      exact ⟨serves.used left is,(serves.keeps left is).2.trans live⟩
    · rw [Function.update_of_ne here] at is
      exact used other here left is

theorem Sound.walk (sound : Sound registry)
    (serves : ∀ node, registry.view fd = some node → Serves f registry.tables node) :
    Sound (registry.walk fd f) := by
  cases found : registry.view fd with
  | none => rwa [walkAbsent found]
  | some node =>
    exact walkSound sound.placed sound.exact found (serves node found) (sound.used fd node found).2
      (fun other _ => sound.used other)

theorem Sound.served (sound : Sound registry) {node : EventCB} (found : registry.view fd = some node)
    (serves : Serves f registry.tables node) : Sound (registry.walk fd f) ∧
      (registry.walk fd f).view = Function.update registry.view fd (f registry.tables node).2 := by
  refine ⟨sound.walk fun other is => ?_,
    (walkFound sound.placed found fun left is => (serves.keeps left is).1).2.2⟩
  rw [found] at is
  cases is
  exact serves

end
end LibProc.FdCoherence
