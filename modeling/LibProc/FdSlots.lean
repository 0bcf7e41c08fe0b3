import LibProc.FdCounter
import LibProc.LinkedSlots

/-! The buckets of the descriptor registry in memory. A loop over a bucket goes from slot to
slot, the slot being the head of the bucket or the next field of a node; a dispatch keeps
the slot it found its node through while the callback runs, and then goes through it again.
A freed node is gone, and so is the slot in it: what follows it has no result. -/
namespace LibProc.FdSlots
open HashBuckets LinkedSlots FdRegistry FdDispatch

structure Chains where
  links : Links Nat EventCB
  tables : Tables
  hashSize : Nat

def evtCreateHandler (hashSize : Nat) : Chains := ⟨Links.empty,(FdRegistry.evtCreateHandler hashSize).tables,hashSize⟩

def Chains.node (chains : Chains) (address : Nat) : Option EventCB := (chains.links.cells address).map Cell.item

def Chains.visit (chains : Chains) (f : Tables → EventCB → Tables × Option EventCB) (slot : LinkedSlots.Slot Nat)
    (address : Nat) (cell : Cell EventCB) : Option (Chains × LinkedSlots.Slot Nat) :=
  match f chains.tables cell.item with
  | (tables,some item) =>
    some ({ chains with links := chains.links.put address { cell with item := item }, tables := tables },.next address)
  | (tables,none) => do
    let links ← chains.links.store slot cell.next
    some ({ chains with links := links.free address, tables := tables },slot)

/- The loop over the nodes of a descriptor. More turns than there are nodes are a cycle. -/
def Chains.walkFrom (fd : Nat) (f : Tables → EventCB → Tables × Option EventCB) :
    Nat → LinkedSlots.Slot Nat → Chains → Option Chains
  | 0,_,_ => none
  | turns + 1,slot,chains => do
    match ← chains.links.load slot with
    | none => some chains
    | some address =>
      let cell ← chains.links.cells address
      if cell.item.fd = fd then
        let (chains,slot) ← chains.visit f slot address cell
        chains.walkFrom fd f turns slot
      else chains.walkFrom fd f turns (.next address)

def Chains.walk (chains : Chains) (fd : Nat) (f : Tables → EventCB → Tables × Option EventCB) : Option Chains :=
  chains.walkFrom fd f (chains.links.fresh + 1) (.head (fd % chains.hashSize))

def Chains.seek (chains : Chains) (fd : Nat) : Option (LinkedSlots.Slot Nat × Option Nat) :=
  chains.links.find (fun _ node => decide (node.fd = fd)) (.head (fd % chains.hashSize))

def Chains.atSlot (chains : Chains) (f : Tables → EventCB → Tables × Option EventCB) (slot : LinkedSlots.Slot Nat) :
    Option Chains := do
  let address ← ← chains.links.load slot
  let cell ← chains.links.cells address
  let (chains,_) ← chains.visit f slot address cell
  some chains

def Chains.addNode (chains : Chains) (fd : Nat) : Option Chains := do
  let links := chains.links.alloc ⟨newNode chains.links.fresh fd,none⟩
  let (tail,_) ← links.find (fun _ _ => false) (.head (fd % chains.hashSize))
  let links ← links.store tail (some chains.links.fresh)
  some { chains with
    links := links
    tables := { chains.tables with criticalFdCount := chains.tables.criticalFdCount + 1 } }

def Chains.installAt (chains : Chains) (event : FdEvent) (callback : Callback) (address : Nat) : Option Chains := do
  let cell ← chains.links.cells address
  let (tables,left) := install event callback chains.tables cell.item
  let item ← left
  some { chains with links := chains.links.put address { cell with item := item }, tables := tables }

def evtFdAddWithCleanup (chains : Chains) (fd : Nat) (event : FdEvent) (callback : Callback) (memory : Bool) :
    Option Chains := do
  let (_,there) ← chains.seek fd
  match there with
  | some address => chains.installAt event callback address
  | none =>
    if memory then
      let added ← chains.addNode fd
      added.installAt event callback chains.links.fresh
    else some chains

def call (chains : Chains) : Call → Option Chains
  | .add fd event none _ _ _ => chains.walk fd (removeUnlessRunning event)
  | .add fd event (some cb) cleanup arg memory => evtFdAddWithCleanup chains fd event ⟨cb,cleanup,arg⟩ memory
  | .remove fd event => chains.walk fd (removeUnlessRunning event)
  | .forceRemove fd event => chains.walk fd (forceRemove event)
  | .setPausable fd pausable => chains.walk fd fun tables node => refreshAll tables { node with pausable := pausable }
  | .setPaused fd paused => chains.walk fd fun tables node => refreshAll tables { node with breakpoint := fun _ => paused }

def Chains.countEvent (chains : Chains) : Chains :=
  { chains with tables := { chains.tables with fdEventCounter := (chains.tables.fdEventCounter + 1) % 2 ^ 64 } }

def resume (chains : Chains) (slot : LinkedSlots.Slot Nat) (event : FdEvent) (keep : Int) : Option Chains :=
  chains.countEvent.atSlot (leave .link event keep) slot

def runCallback (chains : Chains) (slot : LinkedSlots.Slot Nat) (event : FdEvent) (calls : List Call) : Option Chains := do
  let entered ← chains.atSlot (enter event) slot
  calls.foldlM call entered

def evtProcessFdEvent (chains : Chains) (slot : LinkedSlots.Slot Nat) (event : FdEvent) (calls : List Call) (keep : Int) :
    Option Chains := do
  let node ← chains.node (← ← chains.links.load slot)
  if (node.cb event).isSome then
    let returned ← runCallback chains slot event calls
    resume returned slot event keep
  else chains.atSlot (leave .link event eventKeep) slot

def dispatch (chains : Chains) (fd : Nat) (event : FdEvent) (calls : List Call) (keep : Int) : Option Chains := do
  let (slot,there) ← chains.seek fd
  match there with
  | none => some chains
  | some _ => evtProcessFdEvent chains slot event calls keep

/- Buckets that are lists: a node is in the bucket of its descriptor, alone there with it, and has a
callback. -/
structure Laid (chains : Chains) (lists : Nat → List Nat) : Prop where
  layout : Layout chains.links lists
  bounded : chains.links.Bounded
  placed : ∀ b, ∀ x ∈ lists b, ∀ node, chains.node x = some node → node.fd % chains.hashSize = b
  distinct : ∀ b, ∀ x ∈ lists b, ∀ y ∈ lists b, ∀ node other, chains.node x = some node → chains.node y = some other →
    node.fd = other.fd → x = y
  used : ∀ b, ∀ x ∈ lists b, ∀ node, chains.node x = some node → ∃ event, (node.cb event).isSome = true

section Walks
variable {chains : Chains} {lists : Nat → List Nat} {fd b x : Nat} {node : EventCB}
  {f : Tables → EventCB → Tables × Option EventCB} {slot : LinkedSlots.Slot Nat} {link last : Option Nat}
  {before after : List Nat}

theorem nodeCell : chains.node x = some node ↔ ∃ next, chains.links.cells x = some ⟨node,next⟩ := by
  rw [Chains.node, Option.map_eq_some_iff]
  constructor
  · rintro ⟨cell,there,rfl⟩
    exact ⟨cell.next,there⟩
  · rintro ⟨next,there⟩
    exact ⟨_,there,rfl⟩

def Passes (chains : Chains) (fd : Nat) (addresses : List Nat) : Prop :=
  ∀ x ∈ addresses, ∀ node, chains.node x = some node → node.fd ≠ fd

theorem Passes.seek (passes : Passes chains fd before) : ∀ address ∈ before, ∀ cell, chains.links.cells address = some cell →
    decide (cell.item.fd = fd) = false := by
  intro address member cell there
  exact decide_eq_false (passes address member cell.item (nodeCell.mpr ⟨cell.next,there⟩))

theorem walkPasses {turns : Nat} (here : chains.links.load slot = some link)
    (seg : Seg chains.links.cells link before last) (passes : Passes chains fd before) :
    chains.walkFrom fd f (before.length + turns) slot = chains.walkFrom fd f turns (slot.after before) := by
  induction before generalizing slot link with
  | nil => rw [List.length_nil, Nat.zero_add, LinkedSlots.Slot.after]
  | cons address more ih =>
    obtain ⟨rfl,cell,there,onward⟩ := seg
    have goesOn : cell.item.fd ≠ fd := passes address List.mem_cons_self cell.item (nodeCell.mpr ⟨cell.next,there⟩)
    rw [List.length_cons, Nat.add_right_comm, Chains.walkFrom, here]
    simp only [Option.bind_eq_bind,Option.bind_some,there,if_neg goesOn]
    exact ih (by rw [Links.load, there, Option.map_some]) onward fun other member => passes other (List.mem_cons_of_mem _ member)

theorem walkEnds {turns : Nat} (here : chains.links.load slot = some none) :
    chains.walkFrom fd f (turns + 1) slot = some chains := by
  rw [Chains.walkFrom, here]
  rfl

theorem walkRest {turns : Nat} (here : chains.links.load slot = some link) (seg : Seg chains.links.cells link after none)
    (passes : Passes chains fd after) (enough : after.length < turns) : chains.walkFrom fd f turns slot = some chains := by
  obtain ⟨more,rfl⟩ := Nat.exists_eq_add_of_le enough
  rw [show after.length + 1 + more = after.length + (more + 1) by omega, walkPasses here seg passes]
  exact walkEnds (loadAfter here seg)

theorem walkHere {turns : Nat} (here : chains.links.load slot = some (some x)) {next : Option Nat}
    (there : chains.links.cells x = some ⟨node,next⟩) (own : node.fd = fd) :
    chains.walkFrom fd f (turns + 1) slot =
      (chains.visit f slot x ⟨node,next⟩).bind fun done => done.1.walkFrom fd f turns done.2 := by
  rw [Chains.walkFrom, here]
  simp only [Option.bind_eq_bind,Option.bind_some,there,if_pos own]

end Walks

section Effects
variable {chains : Chains} {lists : Nat → List Nat} {fd x : Nat} {node left : EventCB}
  {f : Tables → EventCB → Tables × Option EventCB} {before after : List Nat}

theorem Laid.find (laid : Laid chains lists) (fd : Nat) : Passes chains fd (lists (fd % chains.hashSize)) ∨
    ∃ before x after node, lists (fd % chains.hashSize) = before ++ x :: after ∧ chains.node x = some node ∧ node.fd = fd ∧
      Passes chains fd before ∧ Passes chains fd after := by
  by_cases any : ∃ x ∈ lists (fd % chains.hashSize), ∃ node, chains.node x = some node ∧ node.fd = fd
  · obtain ⟨x,member,node,there,own⟩ := any
    obtain ⟨before,after,split⟩ := List.append_of_mem member
    have nodup := (laid.layout.listed (fd % chains.hashSize)).nodup
    rw [split] at nodup
    have alone : ∀ y ∈ lists (fd % chains.hashSize), ∀ other, chains.node y = some other → other.fd = fd → y = x :=
      fun y inside other there' own' => laid.distinct _ y inside x member other node there' there (own'.trans own.symm)
    have away := (List.nodup_middle.mp nodup).notMem
    refine .inr ⟨before,x,after,node,split,there,own,fun y inside other there' own' => away ?_,
      fun y inside other there' own' => away ?_⟩
    · have same := alone y (by rw [split]; exact List.mem_append_left _ inside) other there' own'
      exact List.mem_append_left _ (same ▸ inside)
    · have same := alone y (by rw [split]; exact List.mem_append_right _ (List.mem_cons_of_mem _ inside)) other there' own'
      exact List.mem_append_right _ (same ▸ inside)
  · exact .inl fun x member node there own => any ⟨x,member,node,there,own⟩

theorem putNode {next : Option Nat} (tables : Tables) (there : chains.links.cells x = some ⟨node,next⟩) (item : EventCB) :
    { chains with links := chains.links.put x ⟨item,next⟩, tables := tables }.node =
      Function.update chains.node x (some item) := by
  funext y
  by_cases same : y = x
  · subst same
    rw [Function.update_self, Chains.node]
    exact congrArg (Option.map Cell.item) (putSelf chains.links y ⟨item,next⟩)
  · rw [Function.update_of_ne same, Chains.node, Chains.node]
    exact congrArg (Option.map Cell.item) (putOther chains.links ⟨item,next⟩ same)

theorem Laid.changed (laid : Laid chains lists) {next : Option Nat} (there : chains.links.cells x = some ⟨node,next⟩)
    (tables : Tables) (same : left.fd = node.fd) (busy : ∃ event, (left.cb event).isSome = true) :
    Laid { chains with links := chains.links.put x ⟨left,next⟩, tables := tables } lists := by
  have nodes := putNode tables there left
  have node' : chains.node x = some node := nodeCell.mpr ⟨next,there⟩
  have back : ∀ y other, Function.update chains.node x (some left) y = some other →
      ∃ old, chains.node y = some old ∧ other.fd = old.fd := by
    intro y other is
    by_cases here : y = x
    · subst here
      rw [Function.update_self] at is
      cases is
      exact ⟨node,node',same⟩
    · rw [Function.update_of_ne here] at is
      exact ⟨other,is,rfl⟩
  refine ⟨laid.layout.reitem there left,putBounded there laid.bounded _,?_,?_,?_⟩
  · intro b y member other is
    rw [nodes] at is
    obtain ⟨old,was,fd⟩ := back y other is
    rw [fd]
    exact laid.placed b y member old was
  · intro b y member z member' other other' is is' equal
    rw [nodes] at is is'
    obtain ⟨old,was,fd⟩ := back y other is
    obtain ⟨old',was',fd'⟩ := back z other' is'
    exact laid.distinct b y member z member' old old' was was' (by rw [← fd, ← fd', equal])
  · intro b y member other is
    rw [nodes] at is
    by_cases here : y = x
    · subst here
      rw [Function.update_self] at is
      cases is
      exact busy
    · rw [Function.update_of_ne here] at is
      exact laid.used b y member other is

theorem Laid.removed (laid : Laid chains lists) {b : Nat} (split : lists b = before ++ x :: after)
    {links : Links Nat EventCB} (tables : Tables) (layout : Layout links (Function.update lists b (before ++ after)))
    (bounded : links.Bounded) (nodes : ∀ y, (links.cells y).map Cell.item = Function.update chains.node x none y) :
    Laid { chains with links := links, tables := tables } (Function.update lists b (before ++ after)) := by
  have inside : ∀ b' y, y ∈ Function.update lists b (before ++ after) b' → y ∈ lists b' := by
    intro b' y member
    by_cases own : b' = b
    · subst own
      rw [Function.update_self] at member
      rw [split]
      rcases List.mem_append.mp member with first | last
      · exact List.mem_append_left _ first
      · exact List.mem_append_right _ (List.mem_cons_of_mem _ last)
    · rwa [Function.update_of_ne own] at member
  have back : ∀ y other, (links.cells y).map Cell.item = some other → chains.node y = some other := by
    intro y other is
    rw [nodes] at is
    by_cases here : y = x
    · subst here
      rw [Function.update_self] at is
      cases is
    · rwa [Function.update_of_ne here] at is
  refine ⟨layout,bounded,?_,?_,?_⟩
  · exact fun b' y member other is => laid.placed b' y (inside b' y member) other (back y other is)
  · exact fun b' y member z member' other other' is is' equal =>
      laid.distinct b' y (inside b' y member) z (inside b' z member') other other' (back y other is) (back z other' is') equal
  · exact fun b' y member other is => laid.used b' y (inside b' y member) other (back y other is)

inductive Walked (chains : Chains) (lists : Nat → List Nat) (fd : Nat) (f : Tables → EventCB → Tables × Option EventCB) :
    Chains → (Nat → List Nat) → Prop where
  | absent (none_ : Passes chains fd (lists (fd % chains.hashSize))) : Walked chains lists fd f chains lists
  | changed {chains' : Chains} (x : Nat) (node left : EventCB) (inside : x ∈ lists (fd % chains.hashSize))
      (there : chains.node x = some node) (own : node.fd = fd) (is : (f chains.tables node).2 = some left)
      (nodes : chains'.node = Function.update chains.node x (some left)) (fresh : chains'.links.fresh = chains.links.fresh) :
      Walked chains lists fd f chains' lists
  | removed {chains' : Chains} (before : List Nat) (x : Nat) (after : List Nat) (node : EventCB)
      (split : lists (fd % chains.hashSize) = before ++ x :: after) (there : chains.node x = some node) (own : node.fd = fd)
      (is : (f chains.tables node).2 = none) (nodes : chains'.node = Function.update chains.node x none)
      (fresh : chains'.links.fresh = chains.links.fresh) :
      Walked chains lists fd f chains' (Function.update lists (fd % chains.hashSize) (before ++ after))

theorem visitStays (laid : Laid chains lists) {next : Option Nat} (cell : chains.links.cells x = some ⟨node,next⟩)
    (is : (f chains.tables node).2 = some left) (same : left.fd = node.fd) (busy : ∃ event, (left.cb event).isSome = true)
    (slot : LinkedSlots.Slot Nat) : ∃ chains', chains.visit f slot x ⟨node,next⟩ = some (chains',.next x) ∧ Laid chains' lists ∧
      chains'.node = Function.update chains.node x (some left) ∧ chains'.links.fresh = chains.links.fresh ∧
      chains'.hashSize = chains.hashSize := by
  cases out : f chains.tables node with
  | mk tables item =>
    rw [out] at is
    dsimp only at is
    subst is
    exact ⟨_,by rw [Chains.visit, out],laid.changed cell tables same busy,putNode tables cell left,rfl,rfl⟩

theorem visitFrees (laid : Laid chains lists) {b : Nat} (split : lists b = before ++ x :: after) {next : Option Nat}
    (cell : chains.links.cells x = some ⟨node,next⟩) (is : (f chains.tables node).2 = none) :
    ∃ chains', chains.visit f ((LinkedSlots.Slot.head b).after before) x ⟨node,next⟩ =
        some (chains',(LinkedSlots.Slot.head b).after before) ∧
      Laid chains' (Function.update lists b (before ++ after)) ∧ chains'.node = Function.update chains.node x none ∧
      chains'.links.fresh = chains.links.fresh ∧ chains'.hashSize = chains.hashSize := by
  cases out : f chains.tables node with
  | mk tables item =>
    rw [out] at is
    dsimp only at is
    subst is
    obtain ⟨links,stored,layout,relinked,away⟩ := laid.layout.unlink split cell
    have nodes : ∀ y, ((links.free x).cells y).map Cell.item = Function.update chains.node x none y := by
      intro y
      by_cases here : y = x
      · subst here
        have gone : (links.free y).cells y = none := Function.update_self _ _ _
        rw [Function.update_self, gone]
        rfl
      · rw [Function.update_of_ne here, freeOther links here, relinked.items]
        rfl
    refine ⟨{ chains with links := links.free x, tables := tables },?_,
      laid.removed split tables (layout.free away) (freeBounded (relinked.bounded laid.bounded) x) nodes,funext nodes,
      relinked.fresh,rfl⟩
    rw [Chains.visit, out]
    simp only
    rw [stored]
    rfl

def Keeps (f : Tables → EventCB → Tables × Option EventCB) (tables : Tables) : Prop :=
  ∀ node left, (f tables node).2 = some left → (∃ event, (node.cb event).isSome = true) →
    left.fd = node.fd ∧ ∃ event, (left.cb event).isSome = true

theorem walkSpec (laid : Laid chains lists) (keeps : Keeps f chains.tables) (fd : Nat) :
    ∃ chains' lists', chains.walk fd f = some chains' ∧ Laid chains' lists' ∧ Walked chains lists fd f chains' lists' ∧
      chains'.hashSize = chains.hashSize := by
  have listed := laid.layout.listed (fd % chains.hashSize)
  have short := laid.bounded.length listed
  rcases laid.find fd with none_ | ⟨before,x,after,node,split,there,own,first,last⟩
  · refine ⟨chains,lists,?_,laid,.absent none_,rfl⟩
    exact walkRest rfl listed none_ (Nat.lt_succ_of_le short)
  have member : x ∈ lists (fd % chains.hashSize) := by simp [split]
  obtain ⟨next,cell⟩ := nodeCell.mp there
  have nodup := listed.nodup
  rw [split] at listed short nodup
  obtain ⟨mid,reached,at_,-⟩ := segAppend.mp listed
  rw [at_] at reached
  have here : chains.links.load ((LinkedSlots.Slot.head (fd % chains.hashSize)).after before) = _ := loadAfter rfl reached
  simp only [List.length_append,List.length_cons] at short
  obtain ⟨more,turns⟩ : ∃ more, chains.links.fresh + 1 = before.length + (more + 1) :=
    ⟨chains.links.fresh - before.length,by omega⟩
  have walks : chains.walk fd f = (chains.visit f ((LinkedSlots.Slot.head (fd % chains.hashSize)).after before) x
      ⟨node,next⟩).bind fun done => done.1.walkFrom fd f more done.2 := by
    rw [Chains.walk, turns, walkPasses rfl reached first, walkHere here cell own]
  have passes : ∀ (chains' : Chains) (out : Option EventCB), chains'.node = Function.update chains.node x out →
      Passes chains' fd after := by
    intro chains' out nodes y inside other there'
    have apart : y ≠ x := by
      rintro rfl
      exact (List.nodup_middle.mp nodup).notMem (List.mem_append_right _ inside)
    rw [nodes, Function.update_of_ne apart] at there'
    exact last y inside other there'
  cases out : (f chains.tables node).2 with
  | some left =>
    obtain ⟨same,busy⟩ := keeps node left out (laid.used _ x member node there)
    obtain ⟨chains',turn,laid',nodes,fresh,size⟩ := visitStays laid cell out same busy
      ((LinkedSlots.Slot.head (fd % chains.hashSize)).after before)
    have listed' := laid'.layout.listed (fd % chains.hashSize)
    rw [split] at listed'
    obtain ⟨-,-,-,cell',there',rest⟩ := segAppend.mp listed'
    refine ⟨chains',lists,?_,laid',.changed x node left member there own out nodes fresh,size⟩
    rw [walks, turn]
    exact walkRest (by rw [Links.load, there', Option.map_some]) rest (passes chains' _ nodes) (by omega)
  | none =>
    obtain ⟨chains',turn,laid',nodes,fresh,size⟩ := visitFrees laid split cell out
    have listed' := laid'.layout.listed (fd % chains.hashSize)
    rw [Function.update_self] at listed'
    obtain ⟨mid',reached',rest⟩ := segAppend.mp listed'
    refine ⟨chains',_,?_,laid',.removed before x after node split there own out nodes fresh,size⟩
    rw [walks, turn]
    exact walkRest (loadAfter rfl reached') rest (passes chains' _ nodes) (by omega)

end Effects

section Calls
variable {chains : Chains} {lists : Nat → List Nat} {fd x : Nat} {node left : EventCB} {tables : Tables}
  {before after : List Nat}

theorem unlinkKeeps {event : FdEvent} (is : (unlink .link (evtRemoveInternal tables node event)).2 = some left)
    (used : ∃ event, (node.cb event).isSome = true) : ∃ event, (left.cb event).isSome = true := by
  have same := unlinkLeft is
  cases here : node.cb event with
  | none =>
    obtain ⟨other,present⟩ := used
    refine ⟨other,?_⟩
    rw [same]
    by_cases own : other = event
    · rw [own, here] at present
      cases present
    · simpa [Function.update_of_ne own] using present
  | some callback =>
    have stays : ¬(evtRemoveInternal tables node event).2.2 = true := by
      intro delete
      rw [FdCoherence.unlinkDrop delete] at is
      cases is
    rw [FdCoherence.removedDelete, here, Option.isSome_some, Bool.true_and, Bool.not_eq_true, Bool.eq_false_iff] at stays
    rw [same]
    by_contra none_
    refine stays (FdCoherence.emptyIff.mpr fun other => ?_)
    by_contra some_
    exact none_ ⟨other,Option.isSome_iff_ne_none.mpr some_⟩

theorem actKeepsNode (c : Call) (tables : Tables) : Keeps (act c) tables := by
  intro node left is used
  refine ⟨actFd is,?_⟩
  have removal : ∀ event, (removeUnlessRunning event tables node).2 = some left → ∃ event, (left.cb event).isSome = true := by
    intro event is
    rw [removeUnlessRunning] at is
    split at is
    · exact unlinkKeeps is used
    · cases is
      exact used
  cases c with
  | add fd event cb cleanup arg memory =>
    cases cb with
    | none => exact removal event is
    | some cb =>
      rw [installLeft is]
      refine ⟨event,?_⟩
      split <;> simp
  | remove fd event => exact removal event is
  | forceRemove fd event =>
    rw [act, forceRemove] at is
    split at is
    · exact unlinkKeeps is used
    · cases is
      exact used
  | setPausable fd pausable => cases is; exact used
  | setPaused fd paused => cases is; exact used

inductive Called (chains : Chains) (lists : Nat → List Nat) (c : Call) : Chains → (Nat → List Nat) → Prop where
  | walked {chains' : Chains} {lists' : Nat → List Nat} (walked : Walked chains lists c.fd (act c) chains' lists') :
      Called chains lists c chains' lists'
  | added {chains' : Chains} (none_ : Passes chains c.fd (lists (c.fd % chains.hashSize))) (node : EventCB)
      (own : node.fd = c.fd) (idle : ∀ event, node.inCallback event = .idle)
      (nodes : chains'.node = Function.update chains.node chains.links.fresh (some node))
      (fresh : chains'.links.fresh = chains.links.fresh + 1) :
      Called chains lists c chains' (Function.update lists (c.fd % chains.hashSize)
        (lists (c.fd % chains.hashSize) ++ [chains.links.fresh]))

theorem seekAbsent (laid : Laid chains lists) (none_ : Passes chains fd (lists (fd % chains.hashSize))) :
    chains.seek fd = some ((LinkedSlots.Slot.head (fd % chains.hashSize)).after (lists (fd % chains.hashSize)),none) :=
  findEnd laid.bounded rfl (laid.layout.listed _) none_.seek

theorem seekFinds (laid : Laid chains lists) (split : lists (fd % chains.hashSize) = before ++ x :: after)
    (there : chains.node x = some node) (own : node.fd = fd) (first : Passes chains fd before) :
    chains.seek fd = some ((LinkedSlots.Slot.head (fd % chains.hashSize)).after before,some x) := by
  have listed := laid.layout.listed (fd % chains.hashSize)
  rw [split] at listed
  obtain ⟨next,cell⟩ := nodeCell.mp there
  exact findFound laid.bounded rfl listed first.seek cell (decide_eq_true own)

theorem Laid.added (laid : Laid chains lists) (fd : Nat) (none_ : Passes chains fd (lists (fd % chains.hashSize)))
    (tables : Tables) {links : Links Nat EventCB} (own : node.fd = fd) (busy : ∃ event, (node.cb event).isSome = true)
    (layout : Layout links (Function.update lists (fd % chains.hashSize)
      (lists (fd % chains.hashSize) ++ [chains.links.fresh]))) (bounded : links.Bounded)
    (nodes : ∀ y, (links.cells y).map Cell.item = Function.update chains.node chains.links.fresh (some node) y) :
    Laid { chains with links := links, tables := tables } (Function.update lists (fd % chains.hashSize)
      (lists (fd % chains.hashSize) ++ [chains.links.fresh])) := by
  have away := laid.layout.away (laid.bounded chains.links.fresh (Nat.le_refl _))
  have cases_ : ∀ b y other, y ∈ Function.update lists (fd % chains.hashSize)
      (lists (fd % chains.hashSize) ++ [chains.links.fresh]) b → (links.cells y).map Cell.item = some other →
      (y ∈ lists b ∧ chains.node y = some other) ∨ (b = fd % chains.hashSize ∧ y = chains.links.fresh ∧ other = node) := by
    intro b y other member is
    rw [nodes] at is
    by_cases new : y = chains.links.fresh
    · rw [new, Function.update_self] at is
      by_cases here : b = fd % chains.hashSize
      · exact .inr ⟨here,new,(Option.some.inj is).symm⟩
      · rw [Function.update_of_ne here] at member
        exact absurd (new ▸ member) (away b)
    · rw [Function.update_of_ne new] at is
      refine .inl ⟨?_,is⟩
      by_cases here : b = fd % chains.hashSize
      · subst here
        rw [Function.update_self] at member
        exact (List.mem_append.mp member).resolve_right (by simpa using new)
      · rwa [Function.update_of_ne here] at member
  refine ⟨layout,bounded,?_,?_,?_⟩
  · intro b y member other is
    rcases cases_ b y other member is with ⟨old,was⟩ | ⟨rfl,-,rfl⟩
    · exact laid.placed b y old other was
    · rw [own]
  · intro b y member z member' other other' is is' equal
    rcases cases_ b y other member is with ⟨old,was⟩ | ⟨here,new,rfl⟩
    · rcases cases_ b z other' member' is' with ⟨old',was'⟩ | ⟨here',-,rfl⟩
      · exact laid.distinct b y old z old' other other' was was' equal
      · exact absurd (equal.trans own) (none_ y (here' ▸ old) other was)
    · rcases cases_ b z other' member' is' with ⟨old',was'⟩ | ⟨-,new',-⟩
      · exact absurd (equal.symm.trans own) (none_ z (here ▸ old') other' was')
      · exact new.trans new'.symm
  · intro b y member other is
    rcases cases_ b y other member is with ⟨old,was⟩ | ⟨-,-,rfl⟩
    · exact laid.used b y old other was
    · exact busy

theorem installOut (event : FdEvent) (callback : Callback) (tables : Tables) (node : EventCB) :
    ∃ tables' left, install event callback tables node = (tables',some left) := by
  rw [install]
  split <;> exact ⟨_,_,rfl⟩

theorem addSpec (laid : Laid chains lists) (fd : Nat) (none_ : Passes chains fd (lists (fd % chains.hashSize)))
    (event : FdEvent) (callback : Callback) : ∃ added chains' node, chains.addNode fd = some added ∧
      added.installAt event callback chains.links.fresh = some chains' ∧ node.fd = fd ∧
      (∀ event, node.inCallback event = .idle) ∧
      Laid chains' (Function.update lists (fd % chains.hashSize) (lists (fd % chains.hashSize) ++ [chains.links.fresh])) ∧
      chains'.node = Function.update chains.node chains.links.fresh (some node) ∧
      chains'.links.fresh = chains.links.fresh + 1 ∧ chains'.hashSize = chains.hashSize := by
  have alloc := laid.layout.alloc laid.bounded ⟨newNode chains.links.fresh fd,none⟩
  have tail : (chains.links.alloc ⟨newNode chains.links.fresh fd,none⟩).find (fun _ _ => false)
      (.head (fd % chains.hashSize)) = _ :=
    findEnd (allocBounded laid.bounded _) rfl (alloc.listed (fd % chains.hashSize)) fun _ _ _ _ => rfl
  obtain ⟨linked,stored,layout,bounded,fresh,items⟩ :=
    laid.layout.append laid.bounded (fd % chains.hashSize) (newNode chains.links.fresh fd)
  have new : (linked.cells chains.links.fresh).map Cell.item = some (newNode chains.links.fresh fd) := by
    rw [items, if_pos rfl]
  obtain ⟨cell,there,item⟩ := Option.map_eq_some_iff.mp new
  have adds : chains.addNode fd = some { chains with
      links := linked
      tables := { chains.tables with criticalFdCount := chains.tables.criticalFdCount + 1 } } := by
    rw [Chains.addNode]
    simp only [tail,Option.bind_eq_bind,Option.bind_some,stored]
  obtain ⟨tables,left,out⟩ := installOut event callback
    { chains.tables with criticalFdCount := chains.tables.criticalFdCount + 1 } cell.item
  have is := installLeft (show (install event callback _ cell.item).2 = some left by rw [out])
  have still : ∀ other, (newNode chains.links.fresh fd).inCallback other = .idle := fun _ => rfl
  rw [item, if_pos (still event)] at is
  have nodes : ∀ y, ((linked.put chains.links.fresh { cell with item := left }).cells y).map Cell.item =
      Function.update chains.node chains.links.fresh (some left) y := by
    intro y
    by_cases same : y = chains.links.fresh
    · rw [same, Function.update_self, putSelf]
      rfl
    · rw [Function.update_of_ne same, putOther linked _ same, items, if_neg same]
      rfl
  refine ⟨_,_,left,adds,by rw [Chains.installAt]; simp only [there,Option.bind_eq_bind,Option.bind_some,out],?_,?_,
    laid.added fd none_ tables ?_ ?_ (layout.reitem there left) (putBounded there bounded _) nodes,funext nodes,fresh,rfl⟩
  · rw [is]
    rfl
  · rw [is]
    exact still
  · rw [is]
    rfl
  · rw [is]
    exact ⟨event,by simp⟩

theorem callSpec (laid : Laid chains lists) (c : Call) : ∃ chains' lists', call chains c = some chains' ∧ Laid chains' lists' ∧
    Called chains lists c chains' lists' ∧ chains'.hashSize = chains.hashSize := by
  have walks : ∀ f, f = act c → ∃ chains' lists', chains.walk c.fd f = some chains' ∧ Laid chains' lists' ∧
      Called chains lists c chains' lists' ∧ chains'.hashSize = chains.hashSize := by
    rintro f rfl
    obtain ⟨chains',lists',done,laid',walked,size⟩ := walkSpec laid (actKeepsNode c chains.tables) c.fd
    exact ⟨chains',lists',done,laid',.walked walked,size⟩
  cases c with
  | add fd event cb cleanup arg memory =>
    cases cb with
    | none => exact walks _ rfl
    | some cb =>
      rcases laid.find fd with none_ | ⟨before,x,after,node,split,there,own,first,last⟩
      · have sought := seekAbsent laid none_
        cases memory with
        | false =>
          refine ⟨chains,lists,?_,laid,.walked (.absent none_),rfl⟩
          simp only [call,evtFdAddWithCleanup,sought,Option.bind_eq_bind,Option.bind_some]
          rfl
        | true =>
          obtain ⟨added,chains',node,adds,installs,own,idle,laid',nodes,fresh,size⟩ :=
            addSpec laid fd none_ event ⟨cb,cleanup,arg⟩
          refine ⟨chains',_,?_,laid',.added none_ node own idle nodes fresh,size⟩
          simp only [call,evtFdAddWithCleanup,sought,Option.bind_eq_bind,Option.bind_some,if_true,adds]
          exact installs
      · have sought := seekFinds laid split there own first
        obtain ⟨next,cell⟩ := nodeCell.mp there
        obtain ⟨tables,left,out⟩ := installOut event ⟨cb,cleanup,arg⟩ chains.tables node
        have member : x ∈ lists (fd % chains.hashSize) := by simp [split]
        have is : (act (.add fd event (some cb) cleanup arg memory) chains.tables node).2 = some left := by
          rw [act, out]
        obtain ⟨same,busy⟩ := actKeepsNode _ _ node left is (laid.used _ x member node there)
        refine ⟨_,lists,?_,laid.changed cell tables same busy,
          .walked (.changed x node left member there own is (putNode tables cell left) rfl),rfl⟩
        simp only [call,evtFdAddWithCleanup,sought,Option.bind_eq_bind,Option.bind_some,Chains.installAt,cell,out]
  | remove fd event => exact walks _ rfl
  | forceRemove fd event => exact walks _ rfl
  | setPausable fd pausable => exact walks _ rfl
  | setPaused fd paused => exact walks _ rfl

end Calls

structure Inside (chains : Chains) (lists : Nat → List Nat) (b address : Nat) (event : FdEvent) : Prop where
  laid : Laid chains lists
  member : address ∈ lists b
  busy : ∃ node, chains.node address = some node ∧ node.inCallback event ≠ .idle ∧ (node.cb event).isSome = true ∧
    ∀ other, other ≠ event → node.inCallback other = .idle
  quiet : ∀ x node, x ≠ address → chains.node x = some node → ∀ other, node.inCallback other = .idle

def Refers (lists : Nat → List Nat) (b address : Nat) (slot : LinkedSlots.Slot Nat) : Prop :=
  ∃ before after, lists b = before ++ address :: after ∧ (LinkedSlots.Slot.head b).after before = slot

section Callback
variable {chains chains' : Chains} {lists lists' : Nat → List Nat} {b address p x : Nat} {event : FdEvent} {node left : EventCB}
  {tables : Tables} {slot : LinkedSlots.Slot Nat} {c : Call}

theorem Refers.load (refers : Refers lists b address slot) (laid : Laid chains lists) :
    chains.links.load slot = some (some address) := by
  obtain ⟨before,after,split,rfl⟩ := refers
  have listed := laid.layout.listed b
  rw [split] at listed
  obtain ⟨mid,reached,at_,-⟩ := segAppend.mp listed
  rw [at_] at reached
  exact loadAfter rfl reached

theorem Refers.remove {before after : List Nat} (refers : Refers lists b address slot) {b' : Nat}
    (split : lists b' = before ++ x :: after) (other : x ≠ address) (apart : slot ≠ .next x) :
    Refers (Function.update lists b' (before ++ after)) b address slot := by
  obtain ⟨first,last,cut,is⟩ := refers
  by_cases own : b = b'
  · subst own
    rw [split] at cut
    rw [Refers, Function.update_self]
    rcases List.append_eq_append_iff.mp cut with ⟨more,rfl,rest⟩ | ⟨more,rfl,rest⟩
    · cases more with
      | nil =>
        cases rest
        exact absurd rfl other
      | cons y more =>
        cases rest
        refine ⟨before ++ more,last,by simp,?_⟩
        rcases List.eq_nil_or_concat more with rfl | ⟨init,y,rfl⟩
        · rw [afterConcat] at is
          exact absurd is.symm apart
        · rw [← is, List.concat_eq_append, ← List.append_assoc, afterConcat, ← List.cons_append, ← List.append_assoc,
            afterConcat]
    · cases more with
      | nil =>
        cases rest
        exact absurd rfl other
      | cons y more =>
        cases rest
        exact ⟨first,more ++ after,by simp,is⟩
  · rw [Refers, Function.update_of_ne own]
    exact ⟨first,last,cut,is⟩

theorem Refers.append (refers : Refers lists b address slot) (b' : Nat) (more : List Nat) :
    Refers (Function.update lists b' (lists b' ++ more)) b address slot := by
  obtain ⟨first,last,cut,is⟩ := refers
  by_cases own : b = b'
  · subst own
    rw [Refers, Function.update_self]
    exact ⟨first,last ++ more,by rw [cut, List.append_assoc, List.cons_append],is⟩
  · rw [Refers, Function.update_of_ne own]
    exact ⟨first,last,cut,is⟩

theorem freshAway (laid : Laid chains lists) : chains.node chains.links.fresh = none := by
  rw [Chains.node, laid.bounded _ (Nat.le_refl _)]
  rfl

theorem Inside.call (inside : Inside chains lists b address event) (laid' : Laid chains' lists')
    (called : Called chains lists c chains' lists') : Inside chains' lists' b address event := by
  obtain ⟨own,there,busy,present,others⟩ := inside.busy
  cases called with
  | walked walked =>
    cases walked with
    | absent => exact inside
    | changed x node left within there' fd is nodes =>
      refine ⟨laid',inside.member,?_,fun y other apart found flag => ?_⟩
      · rw [nodes]
        by_cases same : address = x
        · subst same
          cases there.symm.trans there'
          rw [Function.update_self]
          refine ⟨left,rfl,?_,?_,fun flag different => ?_⟩
          · rw [actFlag is]
            exact flagAfterBusy busy c
          · rw [actPresent is, present, decide_eq_true busy]
            exact presentAfterBusy
          · rw [actFlag is, others flag different, flagAfterIdle]
        · rw [Function.update_of_ne same]
          exact ⟨own,there,busy,present,others⟩
      · rw [nodes] at found
        by_cases same : y = x
        · subst same
          rw [Function.update_self] at found
          cases found
          rw [actFlag is, inside.quiet y node apart there' flag, flagAfterIdle]
        · rw [Function.update_of_ne same] at found
          exact inside.quiet y other apart found flag
    | removed before x after node split there' fd is nodes =>
      have apart : address ≠ x := by
        rintro rfl
        cases there.symm.trans there'
        obtain ⟨left,stays⟩ := actStays chains.tables busy present c
        rw [is] at stays
        cases stays
      refine ⟨laid',?_,?_,fun y other different found flag => ?_⟩
      · by_cases here : b = c.fd % chains.hashSize
        · subst here
          rw [Function.update_self]
          have member := inside.member
          rw [split] at member
          simpa [apart] using member
        · rw [Function.update_of_ne here]
          exact inside.member
      · rw [nodes, Function.update_of_ne apart]
        exact ⟨own,there,busy,present,others⟩
      · rw [nodes] at found
        by_cases same : y = x
        · subst same
          rw [Function.update_self] at found
          cases found
        · rw [Function.update_of_ne same] at found
          exact inside.quiet y other different found flag
  | added none_ node fd idle nodes =>
    have apart : address ≠ chains.links.fresh := by
      rintro rfl
      rw [freshAway inside.laid] at there
      cases there
    refine ⟨laid',?_,?_,fun y other different found flag => ?_⟩
    · by_cases here : b = c.fd % chains.hashSize
      · subst here
        rw [Function.update_self]
        exact List.mem_append_left _ inside.member
      · rw [Function.update_of_ne here]
        exact inside.member
    · rw [nodes, Function.update_of_ne apart]
      exact ⟨own,there,busy,present,others⟩
    · rw [nodes] at found
      by_cases same : y = chains.links.fresh
      · rw [same, Function.update_self] at found
        cases found
        exact idle flag
      · rw [Function.update_of_ne same] at found
        exact inside.quiet y other different found flag

theorem Refers.call (refers : Refers lists b address slot) (inside : Inside chains lists b address event)
    (called : Called chains lists c chains' lists') (stays : ∀ p, slot = .next p → chains'.node p ≠ none) :
    Refers lists' b address slot := by
  obtain ⟨own,there,busy,present,-⟩ := inside.busy
  cases called with
  | walked walked =>
    cases walked with
    | absent => exact refers
    | changed => exact refers
    | removed before x after node split there' fd is nodes =>
      refine refers.remove split ?_ fun at_ => stays x at_ ?_
      · rintro rfl
        cases there.symm.trans there'
        obtain ⟨left,left_⟩ := actStays chains.tables busy present c
        rw [is] at left_
        cases left_
      · rw [nodes, Function.update_self]
  | added => exact refers.append _ _

theorem Called.holder (called : Called chains lists c chains' lists') (laid : Laid chains lists) (member : p ∈ lists b)
    (there : chains.node p = some node) (idle : node.inCallback = fun _ => .idle) :
    (∃ left, chains'.node p = some left ∧ left.fd = node.fd ∧ (∃ event, (left.cb event).isSome = true) ∧
      ∀ event, (left.cb event).isSome = ownPresent node.fd event (node.cb event).isSome c) ∨
    (chains'.node p = none ∧ ∀ event, ownPresent node.fd event (node.cb event).isSome c = false) := by
  have used := laid.used b p member node there
  have bucket := laid.placed b p member node there
  have else_ : c.fd ≠ node.fd → chains'.node p = some node →
      (∃ left, chains'.node p = some left ∧ left.fd = node.fd ∧ (∃ event, (left.cb event).isSome = true) ∧
        ∀ event, (left.cb event).isSome = ownPresent node.fd event (node.cb event).isSome c) ∨
      (chains'.node p = none ∧ ∀ event, ownPresent node.fd event (node.cb event).isSome c = false) :=
    fun other same => .inl ⟨node,same,rfl,used,fun event => (if_neg other).symm⟩
  have alone : ∀ x other, x ∈ lists (c.fd % chains.hashSize) → chains.node x = some other → other.fd = c.fd →
      c.fd = node.fd → x = p := by
    intro x other inside there' own same
    rw [same, bucket] at inside
    exact laid.distinct b x inside p member other node there' there (own.trans same)
  have within : c.fd = node.fd → p ∈ lists (c.fd % chains.hashSize) := by
    intro same
    rw [same, bucket]
    exact member
  have away : ∀ x other, chains.node x = some other → other.fd = c.fd → c.fd ≠ node.fd → p ≠ x := by
    rintro x other there' own different rfl
    cases there.symm.trans there'
    exact different own.symm
  cases called with
  | walked walked =>
    cases walked with
    | absent none_ =>
      by_cases same : c.fd = node.fd
      · exact absurd same.symm (none_ p (within same) node there)
      · exact else_ same there
    | changed x node' left inside there' own is nodes =>
      by_cases same : c.fd = node.fd
      · obtain rfl := alone x node' inside there' own same
        cases there.symm.trans there'
        refine .inl ⟨left,by rw [nodes, Function.update_self],actFd is,(actKeepsNode c _ _ _ is used).2,fun event => ?_⟩
        rw [actPresent is, ownPresent, if_pos same, idle]
        rfl
      · refine else_ same ?_
        rw [nodes, Function.update_of_ne (away x node' there' own same)]
        exact there
    | removed before x after node' split there' own is nodes =>
      by_cases same : c.fd = node.fd
      · obtain rfl := alone x node' (by simp [split]) there' own same
        cases there.symm.trans there'
        refine .inr ⟨by rw [nodes, Function.update_self],fun event => ?_⟩
        have gone := actGone is event
        rw [idle] at gone
        rw [ownPresent, if_pos same]
        exact gone
      · refine else_ same ?_
        rw [nodes, Function.update_of_ne (away x node' there' own same)]
        exact there
  | added none_ node' own idle' nodes =>
    by_cases same : c.fd = node.fd
    · exact absurd same.symm (none_ p (within same) node there)
    · refine else_ same ?_
      rw [nodes, Function.update_of_ne]
      · exact there
      · rintro rfl
        rw [freshAway laid] at there
        cases there

theorem Called.grows (called : Called chains lists c chains' lists') : chains.links.fresh ≤ chains'.links.fresh := by
  cases called with
  | walked walked =>
    cases walked with
    | absent => exact Nat.le_refl _
    | changed x node left inside there own is nodes fresh => exact fresh.ge
    | removed before x after node split there own is nodes fresh => exact fresh.ge
  | added none_ node own idle nodes fresh => exact fresh ▸ Nat.le_succ _

theorem Called.dead (called : Called chains lists c chains' lists') (below : p < chains.links.fresh)
    (gone : chains.node p = none) : p < chains'.links.fresh ∧ chains'.node p = none := by
  have apart : ∀ x node, chains.node x = some node → p ≠ x := by
    rintro x node there rfl
    rw [gone] at there
    cases there
  cases called with
  | walked walked =>
    cases walked with
    | absent => exact ⟨below,gone⟩
    | changed x node left inside there own is nodes fresh =>
      rw [nodes, fresh, Function.update_of_ne (apart x node there)]
      exact ⟨below,gone⟩
    | removed before x after node split there own is nodes fresh =>
      rw [nodes, fresh, Function.update_of_ne (apart x node there)]
      exact ⟨below,gone⟩
  | added none_ node own idle nodes fresh =>
    rw [nodes, fresh, Function.update_of_ne (Nat.ne_of_lt below)]
    exact ⟨Nat.lt_succ_of_lt below,gone⟩

def survives (fd : Nat) : (FdEvent → Bool) → List Call → Prop
  | _,[] => True
  | present,c :: rest => (∃ event, ownPresent fd event (present event) c = true) ∧
      survives fd (fun event => ownPresent fd event (present event) c) rest

def HolderSurvives (chains : Chains) (slot : LinkedSlots.Slot Nat) (calls : List Call) : Prop :=
  ∀ p node, slot = .next p → chains.node p = some node → survives node.fd (fun event => (node.cb event).isSome) calls

theorem deadCalls {calls : List Call} (laid : Laid chains lists) (below : p < chains.links.fresh) (gone : chains.node p = none) :
    ∃ returned, calls.foldlM call chains = some returned ∧ returned.node p = none := by
  induction calls generalizing chains lists with
  | nil => exact ⟨chains,rfl,gone⟩
  | cons c rest ih =>
    obtain ⟨chains',lists',done,laid',called,-⟩ := callSpec laid c
    obtain ⟨below',gone'⟩ := called.dead below gone
    rw [List.foldlM_cons, done]
    exact ih laid' below' gone'

theorem refersHolder (refers : Refers lists b address slot) (laid : Laid chains lists) {p : Nat} (is : slot = .next p) :
    p ∈ lists b ∧ p ≠ address ∧ ∃ node, chains.node p = some node := by
  obtain ⟨before,after,split,here⟩ := refers
  rcases List.eq_nil_or_concat before with rfl | ⟨init,last,rfl⟩
  · rw [is] at here
    cases here
  · rw [List.concat_eq_append, afterConcat, is] at here
    cases here
    have nodup := (laid.layout.listed b).nodup
    rw [split] at nodup
    have inside : p ∈ lists b := by simp [split]
    obtain ⟨cell,there⟩ := (laid.layout.listed b).cell inside
    refine ⟨inside,?_,cell.item,by rw [Chains.node, there]; rfl⟩
    rintro rfl
    exact (List.nodup_middle.mp nodup).notMem (by simp)

/- The calls of a callback end, and then the slot leads to the dispatched node, or is gone with the
node it was in. -/
theorem callsSpec (calls : List Call) (inside : Inside chains lists b address event) (refers : Refers lists b address slot) :
    ∃ returned, calls.foldlM call chains = some returned ∧
      ((HolderSurvives chains slot calls ∧ ∃ lists', Inside returned lists' b address event ∧ Refers lists' b address slot) ∨
        (¬HolderSurvives chains slot calls ∧ returned.links.load slot = none)) := by
  induction calls generalizing chains lists with
  | nil => exact ⟨chains,rfl,.inl ⟨fun _ _ _ _ => trivial,lists,inside,refers⟩⟩
  | cons c rest ih =>
    obtain ⟨chains',lists',done,laid',called,-⟩ := callSpec inside.laid c
    have inside' := inside.call laid' called
    rw [List.foldlM_cons, done, Option.bind_eq_bind, Option.bind_some]
    cases slot with
    | head h =>
      have refers' := refers.call inside called fun p is => by cases is
      obtain ⟨returned,ends,left⟩ := ih inside' refers'
      have none_ : ∀ chains calls, HolderSurvives chains (.head h) calls := fun chains calls p node is => by cases is
      exact ⟨returned,ends,left.imp (fun kept => ⟨none_ _ _,kept.2⟩) fun lost => absurd (none_ _ _) lost.1⟩
    | next p =>
      obtain ⟨member,apart,node,there⟩ := refersHolder refers inside.laid rfl
      have idle : node.inCallback = fun _ => .idle := funext (inside.quiet p node apart there)
      have only : HolderSurvives chains (.next p) (c :: rest) ↔
          survives node.fd (fun event => (node.cb event).isSome) (c :: rest) := by
        constructor
        · exact fun holder => holder p node rfl there
        · rintro survive q other is there'
          cases is
          cases there.symm.trans there'
          exact survive
      rw [only]
      rcases called.holder inside.laid member there idle with ⟨left,there',fd,used,present⟩ | ⟨gone,present⟩
      · have refers' := refers.call inside called fun q is => by
          cases is
          rw [there']
          exact Option.some_ne_none left
        have same : survives node.fd (fun event => (node.cb event).isSome) (c :: rest) ↔
            HolderSurvives chains' (.next p) rest := by
          rw [survives]
          simp only [← present]
          rw [← fd]
          constructor
          · rintro ⟨-,survive⟩ q other is found
            cases is
            cases there'.symm.trans found
            exact survive
          · exact fun holder => ⟨used,holder p left rfl there'⟩
        rw [same]
        exact ih inside' refers'
      · obtain ⟨cell,at_⟩ := (inside.laid.layout.listed b).cell member
        have below := inside.laid.bounded.below at_
        obtain ⟨returned,ends,still⟩ := deadCalls laid' (Nat.lt_of_lt_of_le below called.grows) gone
        refine ⟨returned,ends,.inr ⟨?_,?_⟩⟩
        · rintro ⟨⟨event,some_⟩,-⟩
          rw [present event] at some_
          cases some_
        · rw [Chains.node, Option.map_eq_none_iff] at still
          rw [Links.load, still]
          rfl

end Callback

section Dispatch
variable {chains returned : Chains} {lists : Nat → List Nat} {b address fd : Nat} {event : FdEvent} {node : EventCB}
  {slot : LinkedSlots.Slot Nat} {f : Tables → EventCB → Tables × Option EventCB} {calls : List Call} {keep : Int}

def Quiet (chains : Chains) : Prop := ∀ x node, chains.node x = some node → ∀ event, node.inCallback event = .idle

theorem atSlotSpec (laid : Laid chains lists) (refers : Refers lists b address slot) (there : chains.node address = some node)
    (keeps : ∀ left, (f chains.tables node).2 = some left → left.fd = node.fd ∧ ∃ event, (left.cb event).isSome = true) :
    ∃ chains' lists', chains.atSlot f slot = some chains' ∧ Laid chains' lists' ∧
      chains'.node = Function.update chains.node address (f chains.tables node).2 ∧ chains'.hashSize = chains.hashSize ∧
      ((f chains.tables node).2 ≠ none → lists' = lists) := by
  have here := refers.load laid
  obtain ⟨next,cell⟩ := nodeCell.mp there
  have goes : chains.atSlot f slot = (chains.visit f slot address ⟨node,next⟩).bind fun done => some done.1 := by
    rw [Chains.atSlot, here]
    simp only [Option.bind_eq_bind,Option.bind_some,cell]
  cases out : (f chains.tables node).2 with
  | some left =>
    obtain ⟨same,busy⟩ := keeps left out
    obtain ⟨chains',turn,laid',nodes,fresh,size⟩ := visitStays laid cell out same busy slot
    exact ⟨chains',lists,by rw [goes, turn]; rfl,laid',nodes,size,fun _ => rfl⟩
  | none =>
    obtain ⟨before,after,split,rfl⟩ := refers
    obtain ⟨chains',turn,laid',nodes,fresh,size⟩ := visitFrees laid split cell out
    exact ⟨chains',_,by rw [goes, turn]; rfl,laid',nodes,size,fun stays => absurd rfl stays⟩

theorem seekRefers (laid : Laid chains lists) (sought : chains.seek fd = some (slot,some address)) :
    Refers lists (fd % chains.hashSize) address slot ∧ ∃ node, chains.node address = some node ∧ node.fd = fd := by
  rcases laid.find fd with none_ | ⟨before,x,after,node,split,there,own,first,last⟩
  · rw [seekAbsent laid none_] at sought
    cases sought
  · rw [seekFinds laid split there own first] at sought
    cases sought
    exact ⟨⟨before,after,split,rfl⟩,node,there,own⟩

theorem enterSpec (laid : Laid chains lists) (quiet : Quiet chains) (refers : Refers lists b address slot)
    (there : chains.node address = some node) (set : (node.cb event).isSome = true) :
    ∃ entered_, chains.atSlot (enter event) slot = some entered_ ∧ Inside entered_ lists b address event ∧
      entered_.node = Function.update chains.node address (some (entered node event)) ∧ entered_.hashSize = chains.hashSize := by
  obtain ⟨entered_,lists',done,laid',nodes,size,same⟩ := atSlotSpec (f := enter event) laid refers there fun left is => by
    cases is
    exact ⟨rfl,event,set⟩
  cases same (Option.some_ne_none _)
  obtain ⟨before,after,split,-⟩ := refers
  refine ⟨entered_,done,⟨laid',by simp [split],⟨entered node event,by rw [nodes, Function.update_self]; rfl,?_,set,?_⟩,?_⟩,
    nodes,size⟩
  · simp [entered]
  · intro other different
    exact (Function.update_of_ne different _ _).trans (quiet address node there other)
  · intro x other apart found
    rw [nodes, Function.update_of_ne apart] at found
    exact quiet x other found

def ActsOn (returned : Chains) (slot : LinkedSlots.Slot Nat) (event : FdEvent) (keep : Int) (address : Nat) : Prop :=
  returned.links.load slot = some (some address) ∧ ∃ node after, returned.node address = some node ∧
    resume returned slot event keep = some after ∧
    after.node = Function.update returned.node address (leave .link event keep returned.countEvent.tables node).2

theorem leaveKeeps {tables : Tables} {left : EventCB} (is : (leave .link event keep tables node).2 = some left)
    (used : ∃ event, (node.cb event).isSome = true) : left.fd = node.fd ∧ ∃ event, (left.cb event).isSome = true := by
  refine ⟨FdCounter.leaveFd is,?_⟩
  rw [leave] at is
  split at is
  · exact unlinkKeeps is used
  · cases is
    exact used

theorem resumeSpec (inside : Inside returned lists b address event) (refers : Refers lists b address slot) (keep : Int) :
    ActsOn returned slot event keep address ∧ ∀ after, resume returned slot event keep = some after →
      ∃ lists', Laid after lists' ∧ Quiet after := by
  obtain ⟨node,there,busy,set,others⟩ := inside.busy
  have laid : Laid returned.countEvent lists :=
    ⟨inside.laid.layout,inside.laid.bounded,inside.laid.placed,inside.laid.distinct,inside.laid.used⟩
  obtain ⟨after,lists',done,laid',nodes,-,-⟩ := atSlotSpec (f := leave .link event keep) laid refers there
    fun left is => leaveKeeps is ⟨event,set⟩
  refine ⟨⟨refers.load inside.laid,node,after,there,done,nodes⟩,fun after' done' => ?_⟩
  cases done.symm.trans done'
  refine ⟨lists',laid',fun x other found flag => ?_⟩
  rw [nodes] at found
  by_cases same : x = address
  · subst same
    rw [Function.update_self] at found
    rw [FdRuns.leaveIdle found]
    by_cases own : flag = event
    · rw [own, Function.update_self]
    · rw [Function.update_of_ne own]
      exact others flag own
  · rw [Function.update_of_ne same] at found
    exact inside.quiet x other same found flag

theorem runSpec (laid : Laid chains lists) (quiet : Quiet chains) (sought : chains.seek fd = some (slot,some address))
    (there : chains.node address = some node) (set : (node.cb event).isSome = true) (calls : List Call) :
    ∃ returned, runCallback chains slot event calls = some returned ∧
      ((HolderSurvives chains slot calls ∧ ∃ lists', Inside returned lists' (fd % chains.hashSize) address event ∧
          Refers lists' (fd % chains.hashSize) address slot) ∨
        (¬HolderSurvives chains slot calls ∧ returned.links.load slot = none)) := by
  obtain ⟨refers,-⟩ := seekRefers laid sought
  obtain ⟨entered_,done,inside,nodes,-⟩ := enterSpec laid quiet refers there set
  obtain ⟨returned,ends,left⟩ := callsSpec calls inside refers
  have same : HolderSurvives entered_ slot calls ↔ HolderSurvives chains slot calls := by
    have apart : ∀ p, slot = .next p → entered_.node p = chains.node p := by
      intro p is
      rw [nodes, Function.update_of_ne (refersHolder refers laid is).2.1]
    exact ⟨fun holder p other is found => holder p other is ((apart p is).trans found),
      fun holder p other is found => holder p other is ((apart p is).symm.trans found)⟩
  rw [same] at left
  exact ⟨returned,by rw [runCallback, done]; exact ends,left⟩

end Dispatch

inductive Reached (hashSize : Nat) : Chains → Prop where
  | created : Reached hashSize (evtCreateHandler hashSize)
  | called {chains chains' : Chains} (reached : Reached hashSize chains) (c : Call) (done : call chains c = some chains') :
      Reached hashSize chains'
  | dispatched {chains chains' : Chains} (reached : Reached hashSize chains) (fd : Nat) (event : FdEvent)
      (calls : List Call) (keep : Int) (done : dispatch chains fd event calls keep = some chains') : Reached hashSize chains'

section Runs
variable {hashSize : Nat} {chains chains' : Chains} {lists lists' : Nat → List Nat} {slot : LinkedSlots.Slot Nat}
  {address fd : Nat} {event : FdEvent} {node : EventCB} {calls : List Call} {keep : Int} {c : Call}

theorem Quiet.call (quiet : Quiet chains) (called : Called chains lists c chains' lists') : Quiet chains' := by
  cases called with
  | walked walked =>
    cases walked with
    | absent => exact quiet
    | changed x node left inside there own is nodes fresh =>
      intro y other found flag
      rw [nodes] at found
      by_cases same : y = x
      · subst same
        rw [Function.update_self] at found
        cases found
        rw [actFlag is, quiet y node there flag, flagAfterIdle]
      · rw [Function.update_of_ne same] at found
        exact quiet y other found flag
    | removed before x after node split there own is nodes fresh =>
      intro y other found flag
      rw [nodes] at found
      by_cases same : y = x
      · rw [same, Function.update_self] at found
        cases found
      · rw [Function.update_of_ne same] at found
        exact quiet y other found flag
  | added none_ node own idle nodes fresh =>
    intro y other found flag
    rw [nodes] at found
    by_cases same : y = chains.links.fresh
    · rw [same, Function.update_self] at found
      cases found
      exact idle flag
    · rw [Function.update_of_ne same] at found
      exact quiet y other found flag

theorem dispatchSound (laid : Laid chains lists) (quiet : Quiet chains)
    (done : dispatch chains fd event calls keep = some chains') : ∃ lists', Laid chains' lists' ∧ Quiet chains' := by
  rcases laid.find fd with none_ | ⟨before,x,after,node,split,there,own,first,last⟩
  · rw [dispatch, seekAbsent laid none_] at done
    cases done
    exact ⟨lists,laid,quiet⟩
  have sought := seekFinds laid split there own first
  have refers := (seekRefers laid sought).1
  have turn : evtProcessFdEvent chains ((LinkedSlots.Slot.head (fd % chains.hashSize)).after before) event calls keep =
      some chains' := by
    rw [dispatch, sought] at done
    exact done
  rw [evtProcessFdEvent, refers.load laid] at turn
  simp only [Option.bind_eq_bind,Option.bind_some,there] at turn
  split at turn
  next set =>
    obtain ⟨returned,ends,left⟩ := runSpec laid quiet sought there set calls
    rw [ends, Option.bind_some] at turn
    rcases left with ⟨-,lists',inside,refers'⟩ | ⟨-,gone⟩
    · exact (resumeSpec inside refers' keep).2 chains' turn
    · have none_ : returned.countEvent.links.load ((LinkedSlots.Slot.head (fd % chains.hashSize)).after before) = none := gone
      rw [resume, Chains.atSlot, none_] at turn
      cases turn
  next unset =>
    have idle := quiet x node there event
    have is : (leave .link event eventKeep chains.tables node).2 = some (quieted node event) := by
      rw [leave, removalAsked, idle]
      rfl
    have used := laid.used (fd % chains.hashSize) x (by simp [split]) node there
    obtain ⟨after',lists',ends,laid',nodes,-,-⟩ := atSlotSpec (f := leave .link event eventKeep) laid refers there
      fun left is => leaveKeeps is used
    cases ends.symm.trans turn
    refine ⟨lists',laid',fun y other found flag => ?_⟩
    rw [nodes, is] at found
    by_cases same : y = x
    · subst same
      rw [Function.update_self] at found
      cases found
      by_cases own : flag = event
      · exact own ▸ Function.update_self _ _ _
      · exact (Function.update_of_ne own _ _).trans (quiet y node there flag)
    · rw [Function.update_of_ne same] at found
      exact quiet y other found flag

theorem Reached.sound (reached : Reached hashSize chains) : ∃ lists, Laid chains lists ∧ Quiet chains := by
  induction reached with
  | created =>
    refine ⟨fun _ => [],⟨⟨fun _ => rfl,?_⟩,fun _ _ => rfl,?_,?_,?_⟩,?_⟩
    · intro h h' apart x member
      cases member
    · intro b x member
      cases member
    · intro b x member
      cases member
    · intro b x member
      cases member
    · intro x node found
      cases found
  | called reached c done ih =>
    obtain ⟨lists,laid,quiet⟩ := ih
    obtain ⟨chains',lists',ends,laid',called,-⟩ := callSpec laid c
    cases ends.symm.trans done
    exact ⟨lists',laid',quiet.call called⟩
  | dispatched reached fd event calls keep done ih =>
    obtain ⟨lists,laid,quiet⟩ := ih
    exact dispatchSound laid quiet done

/- A callback returns to the node it was called for exactly if its calls leave the node that the
slot is in, if it is in one, a callback all the time. -/
theorem actsOnDispatchedIff (reached : Reached hashSize chains) (sought : chains.seek fd = some (slot,some address))
    (there : chains.node address = some node) (set : (node.cb event).isSome = true) (calls : List Call) (keep : Int) :
    ∃ returned, runCallback chains slot event calls = some returned ∧
      (ActsOn returned slot event keep address ↔ HolderSurvives chains slot calls) := by
  obtain ⟨lists,laid,quiet⟩ := reached.sound
  obtain ⟨returned,ends,⟨holder,lists',inside,refers⟩ | ⟨lost,gone⟩⟩ := runSpec laid quiet sought there set calls
  · exact ⟨returned,ends,fun _ => holder,fun _ => (resumeSpec inside refers keep).1⟩
  · refine ⟨returned,ends,fun acts => ?_,fun holder => absurd holder lost⟩
    rw [ActsOn, gone] at acts
    cases acts.1

end Runs

def oneNode : Chains := (call (evtCreateHandler 19) (.add 3 .read (some 1) none 0 true)).get (by decide)

def twoNodes : Chains := (call oneNode (.add 22 .read (some 2) none 0 true)).get (by decide)

theorem twoNodesReached : Reached 19 twoNodes :=
  .called (.called .created (.add 3 .read (some 1) none 0 true) (Option.some_get _).symm)
    (.add 22 .read (some 2) none 0 true) (Option.some_get _).symm

theorem actsOnDispatchedSecond : ∃ returned, runCallback twoNodes (.next 0) .read [.remove 22 .read] = some returned ∧
    (ActsOn returned (.next 0) .read eventRemove 1 ↔ HolderSurvives twoNodes (.next 0) [.remove 22 .read]) :=
  actsOnDispatchedIff twoNodesReached (show twoNodes.seek 22 = some (.next 0,some 1) by decide)
    (Option.some_get (show (twoNodes.node 1).isSome = true by decide)).symm (by decide) [.remove 22 .read] eventRemove

theorem removedNeighbourDangles : Reached 19 twoNodes ∧ twoNodes.seek 22 = some (.next 0,some 1) ∧
    ((twoNodes.node 1).bind fun node => node.cb .read) = some ⟨2,none,0⟩ ∧
    ∃ returned, runCallback twoNodes (.next 0) .read [.remove 3 .read] = some returned ∧
      ¬ActsOn returned (.next 0) .read eventKeep 1 := by
  have gone : ((runCallback twoNodes (.next 0) .read [.remove 3 .read]).map fun returned => returned.links.load (.next 0)) =
      some none := by decide
  obtain ⟨returned,ends,lost⟩ := Option.map_eq_some_iff.mp gone
  refine ⟨twoNodesReached,by decide,by decide,returned,ends,fun acts => ?_⟩
  rw [ActsOn, lost] at acts
  cases acts.1

end LibProc.FdSlots
