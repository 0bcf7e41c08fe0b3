import Mathlib.Data.List.Nodup
import Mathlib.Data.List.Perm.Subperm
import Mathlib.Logic.Function.Basic

/-! Singly linked lists in memory: some heads, and cells at addresses. A slot is a link wherever
it is stored, in a head or in a cell, and a walk keeps the slot it came through, so that it can
write there later. A freed cell is gone, and what follows a link to it has no result. `Seg` is
the path from one link to another; a list is the path from its head to NULL. -/
namespace LibProc.LinkedSlots

variable {H α : Type}

structure Cell (α : Type) where
  item : α
  next : Option Nat
  deriving DecidableEq, Repr

structure Links (H α : Type) where
  heads : H → Option Nat
  cells : Nat → Option (Cell α)
  fresh : Nat

inductive Slot (H : Type) where
  | head (h : H)
  | next (address : Nat)
  deriving DecidableEq, Repr

def Links.empty : Links H α := ⟨fun _ => none,fun _ => none,0⟩

def Links.load (links : Links H α) : Slot H → Option (Option Nat)
  | .head h => some (links.heads h)
  | .next address => (links.cells address).map Cell.next

def Links.put (links : Links H α) (address : Nat) (cell : Cell α) : Links H α :=
  { links with cells := Function.update links.cells address (some cell) }

def Links.store [DecidableEq H] (links : Links H α) : Slot H → Option Nat → Option (Links H α)
  | .head h,link => some { links with heads := Function.update links.heads h link }
  | .next address,link => (links.cells address).map fun cell => links.put address { cell with next := link }

def Links.alloc (links : Links H α) (cell : Cell α) : Links H α :=
  { links.put links.fresh cell with fresh := links.fresh + 1 }

def Links.free (links : Links H α) (address : Nat) : Links H α :=
  { links with cells := Function.update links.cells address none }

def Links.push [DecidableEq H] (links : Links H α) (h : H) (item : α) : Links H α :=
  let linked := links.alloc ⟨item,links.heads h⟩
  { linked with heads := Function.update linked.heads h (some links.fresh) }

/- The loop that goes from slot to slot until it finds a cell or the end. More turns than there
are addresses are a cycle. -/
def Links.seek (links : Links H α) (found : Nat → α → Bool) : Nat → Slot H → Option (Slot H × Option Nat)
  | 0,_ => none
  | turns + 1,slot => do
    match ← links.load slot with
    | none => some (slot,none)
    | some address =>
      let cell ← links.cells address
      if found address cell.item then some (slot,some address) else links.seek found turns (.next address)

def Links.find (links : Links H α) (found : Nat → α → Bool) (slot : Slot H) : Option (Slot H × Option Nat) :=
  links.seek found (links.fresh + 1) slot

def Links.gather {β : Type} (links : Links H α) (f : β → α → β) : Nat → Slot H → β → Option (Slot H × β)
  | 0,_,_ => none
  | turns + 1,slot,b => do
    match ← links.load slot with
    | none => some (slot,b)
    | some address =>
      let cell ← links.cells address
      links.gather f turns (.next address) (f b cell.item)

def Slot.after (slot : Slot H) : List Nat → Slot H
  | [] => slot
  | address :: rest => Slot.after (.next address) rest

def Seg (cells : Nat → Option (Cell α)) : Option Nat → List Nat → Option Nat → Prop
  | link,[],last => link = last
  | link,address :: rest,last => link = some address ∧ ∃ cell, cells address = some cell ∧ Seg cells cell.next rest last

def Links.Lists (links : Links H α) (h : H) (addresses : List Nat) : Prop :=
  Seg links.cells (links.heads h) addresses none

def Links.Bounded (links : Links H α) : Prop := ∀ address, links.fresh ≤ address → links.cells address = none

section
variable {cells cells' : Nat → Option (Cell α)} {link mid last : Option Nat} {addresses rest : List Nat}

theorem segAppend : Seg cells link (addresses ++ rest) last ↔
    ∃ mid, Seg cells link addresses mid ∧ Seg cells mid rest last := by
  induction addresses generalizing link with
  | nil => simp [Seg]
  | cons address more ih =>
    simp only [List.cons_append,Seg,ih]
    constructor
    · rintro ⟨here,cell,there,mid,first,second⟩
      exact ⟨mid,⟨here,cell,there,first⟩,second⟩
    · rintro ⟨mid,⟨here,cell,there,first⟩,second⟩
      exact ⟨here,cell,there,mid,first,second⟩

theorem Seg.frame (seg : Seg cells link addresses last)
    (same : ∀ address ∈ addresses, (cells' address).map Cell.next = (cells address).map Cell.next) :
    Seg cells' link addresses last := by
  induction addresses generalizing link with
  | nil => exact seg
  | cons address more ih =>
    obtain ⟨here,cell,there,onward⟩ := seg
    have first := same address List.mem_cons_self
    rw [there, Option.map_some] at first
    obtain ⟨cell',there',next⟩ := Option.map_eq_some_iff.mp first
    refine ⟨here,cell',there',?_⟩
    rw [next]
    exact ih onward fun other member => same other (List.mem_cons_of_mem _ member)

theorem Seg.cell (seg : Seg cells link addresses last) {address : Nat} (member : address ∈ addresses) :
    ∃ cell, cells address = some cell := by
  induction addresses generalizing link with
  | nil => cases member
  | cons first more ih =>
    obtain ⟨-,cell,there,onward⟩ := seg
    rcases List.mem_cons.mp member with rfl | later
    · exact ⟨cell,there⟩
    · exact ih onward later

theorem Seg.unique {others : List Nat} (seg : Seg cells link addresses none) (other : Seg cells link others none) :
    addresses = others := by
  induction addresses generalizing link others with
  | nil =>
    cases others with
    | nil => rfl
    | cons address more =>
      rw [seg] at other
      cases other.1
  | cons address more ih =>
    obtain ⟨here,cell,there,onward⟩ := seg
    cases others with
    | nil =>
      rw [here] at other
      cases other
    | cons address' more' =>
      obtain ⟨here',cell',there',onward'⟩ := other
      rw [here] at here'
      cases here'
      rw [there] at there'
      cases there'
      rw [ih onward onward']

theorem Seg.nodup (seg : Seg cells link addresses none) : addresses.Nodup := by
  induction addresses generalizing link with
  | nil => exact List.nodup_nil
  | cons address more ih =>
    have whole := seg
    obtain ⟨here,cell,there,onward⟩ := seg
    refine List.nodup_cons.mpr ⟨fun again => ?_,ih onward⟩
    obtain ⟨before,after,split⟩ := List.append_of_mem again
    rw [split] at onward
    obtain ⟨mid,-,back⟩ := segAppend.mp onward
    have loop := back
    obtain ⟨at_,-⟩ := back
    rw [at_, ← here] at loop
    have same := congrArg List.length (loop.unique whole)
    rw [split] at same
    simp only [List.length_cons,List.length_append] at same
    omega

end

section
variable {links links' : Links H α} {slot : Slot H} {h : H} {link last : Option Nat} {addresses before after : List Nat}

theorem loadAfter (here : links.load slot = some link) (seg : Seg links.cells link addresses last) :
    links.load (slot.after addresses) = some last := by
  induction addresses generalizing slot link with
  | nil => rw [Slot.after, here, show link = last from seg]
  | cons address more ih =>
    obtain ⟨-,cell,there,onward⟩ := seg
    exact ih (by rw [Links.load, there, Option.map_some]) onward

theorem seekAfter {found : Nat → α → Bool} {turns : Nat} (here : links.load slot = some link)
    (seg : Seg links.cells link before last)
    (passes : ∀ address ∈ before, ∀ cell, links.cells address = some cell → found address cell.item = false) :
    links.seek found (before.length + turns) slot = links.seek found turns (slot.after before) := by
  induction before generalizing slot link with
  | nil => rw [List.length_nil, Nat.zero_add, Slot.after]
  | cons address more ih =>
    obtain ⟨rfl,cell,there,onward⟩ := seg
    have goesOn := passes address List.mem_cons_self cell there
    rw [List.length_cons, Nat.add_right_comm, Links.seek, here]
    simp only [Option.bind_eq_bind,Option.bind_some,there,goesOn,Bool.false_eq_true,if_false]
    exact ih (by rw [Links.load, there, Option.map_some]) onward
      fun other member => passes other (List.mem_cons_of_mem _ member)

theorem seekFound {found : Nat → α → Bool} {turns address : Nat} {cell : Cell α} (here : links.load slot = some (some address))
    (there : links.cells address = some cell) (is : found address cell.item = true) :
    links.seek found (turns + 1) slot = some (slot,some address) := by
  rw [Links.seek, here]
  simp [there,is]

theorem seekEnd {found : Nat → α → Bool} {turns : Nat} (here : links.load slot = some none) :
    links.seek found (turns + 1) slot = some (slot,none) := by
  rw [Links.seek, here]
  rfl

theorem Links.Bounded.below (bounded : links.Bounded) {address : Nat} {cell : Cell α}
    (there : links.cells address = some cell) : address < links.fresh := by
  by_contra above
  rw [bounded address (Nat.not_lt.mp above)] at there
  cases there

theorem Links.Bounded.length (bounded : links.Bounded) (seg : Seg links.cells link addresses none) :
    addresses.length ≤ links.fresh := by
  have inside : addresses ⊆ List.range links.fresh := by
    intro address member
    obtain ⟨cell,there⟩ := seg.cell member
    exact List.mem_range.mpr (bounded.below there)
  have small := (List.subperm_of_subset seg.nodup inside).length_le
  rwa [List.length_range] at small

theorem findFound (bounded : links.Bounded) {found : Nat → α → Bool} {address : Nat} {cell : Cell α}
    (here : links.load slot = some link) (seg : Seg links.cells link (before ++ address :: after) none)
    (passes : ∀ other ∈ before, ∀ cell, links.cells other = some cell → found other cell.item = false)
    (there : links.cells address = some cell) (is : found address cell.item = true) :
    links.find found slot = some (slot.after before,some address) := by
  have size := bounded.length seg
  rw [List.length_append, List.length_cons] at size
  obtain ⟨mid,first,at_,-⟩ := segAppend.mp seg
  obtain ⟨turns,enough⟩ := Nat.exists_eq_add_of_le (show before.length + 1 ≤ links.fresh + 1 by omega)
  rw [Links.find, enough, Nat.add_assoc, seekAfter here first passes, Nat.add_comm 1 turns]
  rw [at_] at first
  exact seekFound (loadAfter here first) there is

theorem findEnd (bounded : links.Bounded) {found : Nat → α → Bool} (here : links.load slot = some link)
    (seg : Seg links.cells link addresses none)
    (passes : ∀ other ∈ addresses, ∀ cell, links.cells other = some cell → found other cell.item = false) :
    links.find found slot = some (slot.after addresses,none) := by
  obtain ⟨turns,enough⟩ := Nat.exists_eq_add_of_le (bounded.length seg)
  rw [Links.find, enough, Nat.add_assoc, seekAfter here seg passes]
  exact seekEnd (loadAfter here seg)

theorem gatherEnd {β : Type} {f : β → α → β} {turns : Nat} {items : List α} (here : links.load slot = some link)
    (seg : Seg links.cells link addresses none) (enough : addresses.length < turns)
    (same : addresses.map (fun address => (links.cells address).map Cell.item) = items.map some) (b : β) :
    links.gather f turns slot b = some (slot.after addresses,items.foldl f b) := by
  induction addresses generalizing slot link turns items b with
  | nil =>
    obtain ⟨more,rfl⟩ : ∃ more, turns = more + 1 := ⟨turns - 1,by omega⟩
    have none_ : items = [] := by simpa using same.symm
    rw [none_, Links.gather, here, show link = none from seg]
    rfl
  | cons address rest ih =>
    obtain ⟨more,rfl⟩ : ∃ more, turns = more + 1 := ⟨turns - 1,by omega⟩
    obtain ⟨rfl,cell,there,onward⟩ := seg
    rw [List.map_cons, there] at same
    obtain ⟨item,others,rfl,first,later⟩ := List.map_eq_cons_iff.mp same.symm
    cases first
    rw [Links.gather, here]
    simp only [Option.bind_eq_bind,Option.bind_some,there]
    exact ih (by rw [Links.load, there, Option.map_some]) onward (by simpa using enough) later.symm _

/- What a write to a link of `addresses` leaves alone. -/
structure Relinked (addresses : List Nat) (links links' : Links H α) : Prop where
  fresh : links'.fresh = links.fresh
  items : ∀ address, (links'.cells address).map Cell.item = (links.cells address).map Cell.item
  others : ∀ address, address ∉ addresses → links'.cells address = links.cells address

theorem Relinked.bounded (relinked : Relinked addresses links links') (bounded : links.Bounded) : links'.Bounded := by
  intro address above
  rw [relinked.fresh] at above
  have same := relinked.items address
  rw [bounded address above] at same
  exact Option.map_eq_none_iff.mp same

theorem afterConcat (slot : Slot H) (before : List Nat) (address : Nat) : slot.after (before ++ [address]) = .next address := by
  induction before generalizing slot with
  | nil => rfl
  | cons first more ih => exact ih (.next first)

theorem afterAppend (slot : Slot H) (added : List Nat) (some_ : before ≠ []) : slot.after (added ++ before) = slot.after before := by
  rcases List.eq_nil_or_concat before with none_ | ⟨init,address,rfl⟩
  · exact absurd none_ some_
  · rw [List.concat_eq_append, ← List.append_assoc, afterConcat, afterConcat]

@[simp] theorem putSelf (links : Links H α) (address : Nat) (cell : Cell α) : (links.put address cell).cells address = some cell :=
  Function.update_self _ _ _

@[simp] theorem putOther (links : Links H α) {address other : Nat} (cell : Cell α) (apart : other ≠ address) :
    (links.put address cell).cells other = links.cells other := Function.update_of_ne apart _ _

theorem putRelinked {address : Nat} {cell : Cell α} (there : links.cells address = some cell) (link : Option Nat) :
    Relinked [address] links (links.put address { cell with next := link }) := by
  refine ⟨rfl,fun other => ?_,fun other apart => ?_⟩
  · by_cases same : other = address
    · rw [same, putSelf, there]
      rfl
    · rw [putOther _ _ same]
  · exact putOther _ _ (by simpa using apart)

theorem Relinked.mono (relinked : Relinked addresses links links') {more : List Nat} (inside : addresses ⊆ more) :
    Relinked more links links' :=
  ⟨relinked.fresh,relinked.items,fun other apart => relinked.others other fun member => apart (inside member)⟩

theorem storeAfter [DecidableEq H] (lists : links.Lists h (before ++ after)) {tail : List Nat}
    (seg : Seg links.cells link tail none) (apart : ∀ address ∈ tail, address ∉ before) :
    ∃ links', links.store ((Slot.head h).after before) link = some links' ∧ links'.Lists h (before ++ tail) ∧
      Relinked before links links' ∧ ∀ other, other ≠ h → links'.heads other = links.heads other := by
  rcases List.eq_nil_or_concat before with rfl | ⟨init,address,rfl⟩
  · refine ⟨_,rfl,?_,⟨rfl,fun _ => rfl,fun _ _ => rfl⟩,fun other different => Function.update_of_ne different _ _⟩
    simp only [Links.Lists,Function.update_self,List.nil_append]
    exact seg
  · rw [List.concat_eq_append] at *
    have distinct := (List.nodup_append.mp lists.nodup).1
    have away : address ∉ init := fun member => (List.nodup_append.mp distinct).2.2 address member address List.mem_cons_self rfl
    obtain ⟨mid,reached,-⟩ := segAppend.mp lists
    obtain ⟨-,first,rfl,cell,there,-⟩ := segAppend.mp reached
    refine ⟨links.put address { cell with next := link },?_,?_,?_,fun _ _ => rfl⟩
    · rw [afterConcat, Links.store, there]
      rfl
    · rw [Links.Lists, List.append_assoc]
      refine segAppend.mpr ⟨some address,first.frame ?_,rfl,{ cell with next := link },putSelf _ _ _,seg.frame ?_⟩
      · intro other member
        have different : other ≠ address := fun same => away (same ▸ member)
        rw [putOther links _ different]
      · intro other member
        have different : other ≠ address := fun same => apart other member (by simp [same])
        rw [putOther links _ different]
    · exact (putRelinked there link).mono (by simp)

theorem listHead (lists : links.Lists h addresses) : links.heads h = addresses.head? := by
  cases addresses with
  | nil => exact lists
  | cons address rest => exact lists.1

theorem Relinked.lists (relinked : Relinked before links links') {other : H} {others : List Nat}
    (same : links'.heads other = links.heads other) (lists : links.Lists other others)
    (apart : ∀ address ∈ others, address ∉ before) : links'.Lists other others := by
  rw [Links.Lists, same]
  exact lists.frame fun address member => by rw [relinked.others address (apart address member)]

theorem putBounded {address : Nat} {old : Cell α} (there : links.cells address = some old) (bounded : links.Bounded)
    (cell : Cell α) : (links.put address cell).Bounded := by
  intro other above
  have different : other ≠ address := by
    rintro rfl
    rw [bounded other above] at there
    cases there
  rw [putOther links cell different]
  exact bounded other above

theorem putFrame {address : Nat} {old cell : Cell α} (there : links.cells address = some old) (next : cell.next = old.next)
    (seg : Seg links.cells link addresses last) : Seg (links.put address cell).cells link addresses last := by
  refine seg.frame fun other _ => ?_
  by_cases same : other = address
  · rw [same, putSelf, there, Option.map_some, Option.map_some, next]
  · rw [putOther links cell same]

theorem unlink [DecidableEq H] {address : Nat} {cell : Cell α} (lists : links.Lists h (before ++ address :: after))
    (there : links.cells address = some cell) :
    ∃ links', links.store ((Slot.head h).after before) cell.next = some links' ∧ links'.Lists h (before ++ after) ∧
      Relinked before links links' ∧ ∀ other, other ≠ h → links'.heads other = links.heads other := by
  obtain ⟨-,-,-,cell',there',seg⟩ := segAppend.mp lists
  rw [there] at there'
  cases there'
  refine storeAfter lists seg fun other member inside => ?_
  exact (List.nodup_append.mp lists.nodup).2.2 other inside other (List.mem_cons_of_mem _ member) rfl

@[simp] theorem freeOther (links : Links H α) {address other : Nat} (apart : other ≠ address) :
    (links.free address).cells other = links.cells other := Function.update_of_ne apart _ _

theorem freeLists {address : Nat} (lists : links.Lists h addresses) (apart : address ∉ addresses) :
    (links.free address).Lists h addresses := by
  refine Seg.frame lists fun other member => ?_
  have different : other ≠ address := fun same => apart (same ▸ member)
  rw [freeOther links different]

theorem freeBounded (bounded : links.Bounded) (address : Nat) : (links.free address).Bounded := by
  intro other above
  by_cases same : other = address
  · rw [same]
    exact Function.update_self _ _ _
  · rw [freeOther links same]
    exact bounded other above

@[simp] theorem allocOther (links : Links H α) (cell : Cell α) {other : Nat} (apart : other ≠ links.fresh) :
    (links.alloc cell).cells other = links.cells other := putOther links cell apart

theorem allocFrame (bounded : links.Bounded) (cell : Cell α) (seg : Seg links.cells link addresses last) :
    Seg (links.alloc cell).cells link addresses last := by
  refine seg.frame fun other member => ?_
  obtain ⟨there,at_⟩ := seg.cell member
  rw [allocOther links cell (Nat.ne_of_lt (bounded.below at_))]

theorem allocBounded (bounded : links.Bounded) (cell : Cell α) : (links.alloc cell).Bounded := by
  intro other above
  have above : links.fresh + 1 ≤ other := above
  rw [allocOther links cell (by omega)]
  exact bounded other (by omega)

theorem pushLists [DecidableEq H] (bounded : links.Bounded) (item : α) (lists : links.Lists h addresses) :
    (links.push h item).Lists h (links.fresh :: addresses) := by
  refine ⟨Function.update_self _ _ _,⟨item,links.heads h⟩,putSelf _ _ _,?_⟩
  exact allocFrame bounded _ lists

end

structure Links.Entries (links : Links H α) (h : H) (entries : List (Nat × α)) : Prop where
  lists : links.Lists h (entries.map Prod.fst)
  items : ∀ entry ∈ entries, (links.cells entry.1).map Cell.item = some entry.2

section
variable {links links' : Links H α} {h : H} {entries before after : List (Nat × α)} {entry : Nat × α} {p : α → Bool}

theorem Links.Entries.cell (holds : links.Entries h entries) (member : entry ∈ entries) :
    ∃ next, links.cells entry.1 = some ⟨entry.2,next⟩ := by
  obtain ⟨cell,there,is⟩ := Option.map_eq_some_iff.mp (holds.items entry member)
  exact ⟨cell.next,by rw [there, ← is]⟩

theorem Links.Entries.unique {other : List (Nat × α)} (holds : links.Entries h entries) (holds' : links.Entries h other) :
    entries = other := by
  have same := holds.lists.unique holds'.lists
  refine List.ext_getElem (by simpa using congrArg List.length same) fun i inside inside' => ?_
  have address : entries[i].1 = other[i].1 := by
    have at_ := congrArg (fun list => list[i]?) same
    simpa [inside,inside'] using at_
  have item := holds.items _ (List.getElem_mem inside)
  rw [address, holds'.items _ (List.getElem_mem inside')] at item
  exact Prod.ext address (Option.some.inj item).symm

theorem Links.Entries.passes (holds : links.Entries h entries) (none_ : ∀ entry ∈ entries, p entry.2 = false) :
    ∀ address ∈ entries.map Prod.fst, ∀ cell, links.cells address = some cell → p cell.item = false := by
  intro address member cell there
  obtain ⟨entry,inside,rfl⟩ := List.mem_map.mp member
  obtain ⟨next,there'⟩ := holds.cell inside
  rw [there] at there'
  cases there'
  exact none_ entry inside

theorem entriesFound (bounded : links.Bounded) (holds : links.Entries h (before ++ entry :: after))
    (passes : ∀ entry ∈ before, p entry.2 = false) (is : p entry.2 = true) :
    links.find (fun _ => p) (.head h) = some ((Slot.head h).after (before.map Prod.fst),some entry.1) := by
  obtain ⟨next,there⟩ := holds.cell (List.mem_append_right before List.mem_cons_self)
  have lists := holds.lists
  rw [List.map_append, List.map_cons] at lists
  refine findFound bounded rfl lists (fun address member cell at_ => ?_) there is
  obtain ⟨earlier,inside,rfl⟩ := List.mem_map.mp member
  obtain ⟨_,there'⟩ := holds.cell (List.mem_append_left _ inside)
  rw [at_] at there'
  cases there'
  exact passes earlier inside

theorem entriesRest (bounded : links.Bounded) (holds : links.Entries h (before ++ after)) :
    ∃ slot found, links.find (fun _ => p) ((Slot.head h).after (before.map Prod.fst)) = some (slot,found) ∧
      found.isSome = after.any fun entry => p entry.2 := by
  have lists := holds.lists
  rw [List.map_append] at lists
  obtain ⟨mid,reached,rest⟩ := segAppend.mp lists
  have here : links.load ((Slot.head h).after (before.map Prod.fst)) = some mid := loadAfter rfl reached
  have pass : ∀ part : List (Nat × α), part ⊆ after → (∀ entry ∈ part, p entry.2 = false) →
      ∀ address ∈ part.map Prod.fst, ∀ cell, links.cells address = some cell → p cell.item = false := by
    intro part inside none_ address member cell there
    obtain ⟨entry,own,rfl⟩ := List.mem_map.mp member
    obtain ⟨next,there'⟩ := holds.cell (List.mem_append_right before (inside own))
    rw [there] at there'
    cases there'
    exact none_ entry own
  by_cases any : ∃ entry ∈ after, p entry.2 = true
  · have found : (after.find? fun entry => p entry.2).isSome = true := by simpa [List.find?_isSome] using any
    obtain ⟨entry,is⟩ := Option.isSome_iff_exists.mp found
    obtain ⟨fits,first,last,rfl,misses⟩ := List.find?_eq_some_iff_append.mp is
    obtain ⟨next,there⟩ := holds.cell (List.mem_append_right before (List.mem_append_right first List.mem_cons_self))
    rw [List.map_append, List.map_cons] at rest
    refine ⟨_,_,findFound bounded here rest (pass first (List.subset_append_left _ _) ?_) there fits,?_⟩
    · exact fun entry member => by simpa using misses entry member
    · simp [fits]
  · refine ⟨_,_,findEnd bounded here rest (pass after (List.Subset.refl _) ?_),?_⟩
    · exact fun entry member => Bool.eq_false_iff.mpr fun is => any ⟨entry,member,is⟩
    · symm
      simpa using any

theorem entriesGather {β : Type} (bounded : links.Bounded) (holds : links.Entries h entries) (f : β → α → β) (b : β) :
    links.gather f (links.fresh + 1) (.head h) b =
      some ((Slot.head h).after (entries.map Prod.fst),(entries.map Prod.snd).foldl f b) := by
  refine gatherEnd rfl holds.lists (Nat.lt_succ_of_le (bounded.length holds.lists)) ?_ b
  rw [List.map_map, List.map_map]
  exact List.map_congr_left fun entry member => holds.items entry member

theorem Links.Entries.away (holds : links.Entries h entries) (bounded : links.Bounded) : links.fresh ∉ entries.map Prod.fst := by
  intro member
  obtain ⟨cell,there⟩ := holds.lists.cell member
  exact Nat.lt_irrefl _ (bounded.below there)

theorem Links.Entries.alloc (holds : links.Entries h entries) (bounded : links.Bounded) (cell : Cell α) :
    (links.alloc cell).Entries h entries := by
  refine ⟨allocFrame bounded _ holds.lists,fun entry member => ?_⟩
  have different : entry.1 ≠ links.fresh := fun same => holds.away bounded (same ▸ List.mem_map_of_mem member)
  rw [allocOther links _ different, holds.items entry member]

theorem entriesAppend [DecidableEq H] (bounded : links.Bounded) (holds : links.Entries h entries) (item : α) :
    ∃ linked, (links.alloc ⟨item,none⟩).store ((Slot.head h).after (entries.map Prod.fst)) (some links.fresh) = some linked ∧
      linked.Entries h (entries ++ [(links.fresh,item)]) ∧ linked.Bounded ∧ linked.fresh = links.fresh + 1 ∧
      ∃ back, linked.store ((Slot.head h).after (entries.map Prod.fst)) none = some back ∧
        (back.free links.fresh).Entries h entries ∧ (back.free links.fresh).Bounded ∧ back.fresh = links.fresh + 1 := by
  have away := holds.away bounded
  have alloc := holds.alloc bounded ⟨item,none⟩
  have lists := alloc.lists
  rw [← List.append_nil (entries.map Prod.fst)] at lists
  have single : Seg (links.alloc ⟨item,none⟩).cells (some links.fresh) [links.fresh] none := ⟨rfl,_,putSelf _ _ _,rfl⟩
  obtain ⟨linked,stored,listed,relinked,-⟩ := storeAfter lists single (by simpa using away)
  have bound := relinked.bounded (allocBounded bounded _)
  have items : ∀ entry ∈ entries ++ [(links.fresh,item)], (linked.cells entry.1).map Cell.item = some entry.2 := by
    intro entry member
    rw [relinked.items]
    rcases List.mem_append.mp member with old | new
    · exact alloc.items entry old
    · rw [List.mem_singleton.mp new]
      exact congrArg (Option.map Cell.item) (putSelf links links.fresh ⟨item,none⟩)
  have nothing : Seg linked.cells none [] none := rfl
  obtain ⟨back,undone,left,relinked',-⟩ := storeAfter listed nothing (by simp)
  rw [List.append_nil] at left
  refine ⟨linked,stored,⟨by simpa using listed,items⟩,bound,relinked.fresh,back,undone,⟨freeLists left away,?_⟩,
    freeBounded (relinked'.bounded bound) _,relinked'.fresh.trans relinked.fresh⟩
  intro entry member
  have different : entry.1 ≠ links.fresh := fun same => away (same ▸ List.mem_map_of_mem member)
  rw [freeOther back different, relinked'.items, items entry (List.mem_append_left _ member)]

theorem entriesRemove [DecidableEq H] {cell : Cell α} (bounded : links.Bounded) (holds : links.Entries h (before ++ entry :: after))
    (there : links.cells entry.1 = some cell) :
    ∃ links', links.store ((Slot.head h).after (before.map Prod.fst)) cell.next = some links' ∧
      (links'.free entry.1).Entries h (before ++ after) ∧ (links'.free entry.1).Bounded ∧ links'.fresh = links.fresh := by
  have lists := holds.lists
  rw [List.map_append, List.map_cons] at lists
  have distinct := lists.nodup
  obtain ⟨links',stored,listed,relinked,-⟩ := unlink lists there
  have away : entry.1 ∉ (before ++ after).map Prod.fst := by
    rw [List.map_append]
    exact (List.nodup_middle.mp distinct).notMem
  refine ⟨links',stored,⟨freeLists (by rwa [List.map_append]) away,fun other member => ?_⟩,
    freeBounded (relinked.bounded bounded) _,relinked.fresh⟩
  have different : other.1 ≠ entry.1 := fun same => away (same ▸ List.mem_map_of_mem member)
  rw [freeOther links' different, relinked.items]
  refine holds.items other ?_
  rcases List.mem_append.mp member with first | last
  · exact List.mem_append_left _ first
  · exact List.mem_append_right _ (List.mem_cons_of_mem _ last)

end

def Links.enqueue [DecidableEq H] (links : Links H α) (h : H) (address : Nat) (item : α) : Links H α :=
  { links.put address ⟨item,links.heads h⟩ with heads := Function.update links.heads h (some address) }

structure Layout (links : Links H α) (lists : H → List Nat) : Prop where
  listed : ∀ h, links.Lists h (lists h)
  apart : ∀ h h', h ≠ h' → ∀ address ∈ lists h, address ∉ lists h'

section
variable {links : Links H α} {lists : H → List Nat} {h : H} {address : Nat} {before after : List Nat}

theorem Layout.put (layout : Layout links lists) (away : ∀ h, address ∉ lists h) (cell : Cell α) :
    Layout (links.put address cell) lists := by
  refine ⟨fun h => Seg.frame (layout.listed h) fun other member => ?_,layout.apart⟩
  have different : other ≠ address := fun same => away h (same ▸ member)
  rw [putOther links cell different]

theorem Layout.free (layout : Layout links lists) (away : ∀ h, address ∉ lists h) : Layout (links.free address) lists :=
  ⟨fun h => freeLists (layout.listed h) (away h),layout.apart⟩

theorem Layout.away (layout : Layout links lists) (absent : links.cells address = none) (h : H) : address ∉ lists h := by
  intro member
  obtain ⟨cell,there⟩ := (layout.listed h).cell member
  rw [absent] at there
  cases there

theorem Layout.alloc (layout : Layout links lists) (bounded : links.Bounded) (cell : Cell α) : Layout (links.alloc cell) lists :=
  ⟨(layout.put (layout.away (bounded links.fresh (Nat.le_refl _))) cell).listed,layout.apart⟩

theorem Layout.enqueue [DecidableEq H] (layout : Layout links lists) (away : ∀ h, address ∉ lists h) (h : H) (item : α) :
    Layout (links.enqueue h address item) (Function.update lists h (address :: lists h)) := by
  have framed := layout.put away ⟨item,links.heads h⟩
  refine ⟨fun other => ?_,fun first second different member inside inside' => ?_⟩
  · by_cases own : other = h
    · subst own
      rw [Function.update_self]
      exact ⟨Function.update_self _ _ _,_,putSelf _ _ _,framed.listed other⟩
    · rw [Function.update_of_ne own, Links.Lists]
      have same : (links.enqueue h address item).heads other = links.heads other := Function.update_of_ne own _ _
      rw [same]
      exact framed.listed other
  · by_cases own : first = h
    · subst own
      rw [Function.update_self] at inside
      rw [Function.update_of_ne (Ne.symm different)] at inside'
      rcases List.mem_cons.mp inside with rfl | old
      · exact away second inside'
      · exact layout.apart first second different member old inside'
    · rw [Function.update_of_ne own] at inside
      by_cases own' : second = h
      · subst own'
        rw [Function.update_self] at inside'
        rcases List.mem_cons.mp inside' with rfl | old
        · exact away first inside
        · exact layout.apart first second different member inside old
      · rw [Function.update_of_ne own'] at inside'
        exact layout.apart first second different member inside inside'

theorem Layout.unlink [DecidableEq H] {cell : Cell α} (layout : Layout links lists) (split : lists h = before ++ address :: after)
    (there : links.cells address = some cell) :
    ∃ links', links.store ((Slot.head h).after before) cell.next = some links' ∧
      Layout links' (Function.update lists h (before ++ after)) ∧ Relinked before links links' ∧
      ∀ other, address ∉ Function.update lists h (before ++ after) other := by
  have whole := layout.listed h
  rw [split] at whole
  obtain ⟨links',stored,left,relinked,heads⟩ := LinkedSlots.unlink whole there
  have distinct := List.nodup_append.mp whole.nodup
  have inside : ∀ other ∈ before ++ after, other ∈ lists h := by
    intro other member
    rw [split]
    rcases List.mem_append.mp member with first | last
    · exact List.mem_append_left _ first
    · exact List.mem_append_right _ (List.mem_cons_of_mem _ last)
  refine ⟨links',stored,⟨fun other => ?_,fun first second different member here there' => ?_⟩,relinked,fun other member => ?_⟩
  · by_cases own : other = h
    · subst own
      rw [Function.update_self]
      exact left
    · rw [Function.update_of_ne own]
      refine relinked.lists (heads other own) (layout.listed other) fun place member front => ?_
      exact layout.apart other h own place member (inside place (List.mem_append_left _ front))
  · refine layout.apart first second different member ?_ ?_
    · by_cases own : first = h
      · subst own
        rw [Function.update_self] at here
        exact inside member here
      · rwa [Function.update_of_ne own] at here
    · by_cases own : second = h
      · subst own
        rw [Function.update_self] at there'
        exact inside member there'
      · rwa [Function.update_of_ne own] at there'
  · have mine : address ∈ lists h := by simp [split]
    by_cases own : other = h
    · subst own
      rw [Function.update_self] at member
      exact (List.nodup_middle.mp whole.nodup).notMem member
    · rw [Function.update_of_ne own] at member
      exact layout.apart h other (Ne.symm own) address mine member

theorem Layout.reitem (layout : Layout links lists) {cell : Cell α} (there : links.cells address = some cell) (item : α) :
    Layout (links.put address { cell with item := item }) lists :=
  ⟨fun h => putFrame there rfl (layout.listed h),layout.apart⟩

theorem Layout.append [DecidableEq H] (layout : Layout links lists) (bounded : links.Bounded) (h : H) (item : α) :
    ∃ linked, (links.alloc ⟨item,none⟩).store ((Slot.head h).after (lists h)) (some links.fresh) = some linked ∧
      Layout linked (Function.update lists h (lists h ++ [links.fresh])) ∧ linked.Bounded ∧ linked.fresh = links.fresh + 1 ∧
      ∀ address, (linked.cells address).map Cell.item = if address = links.fresh then some item else (links.cells address).map Cell.item := by
  have away := layout.away (bounded links.fresh (Nat.le_refl _))
  have alloc := layout.alloc bounded ⟨item,none⟩
  have whole := alloc.listed h
  rw [← List.append_nil (lists h)] at whole
  have single : Seg (links.alloc ⟨item,none⟩).cells (some links.fresh) [links.fresh] none := ⟨rfl,_,putSelf _ _ _,rfl⟩
  obtain ⟨linked,stored,listed,relinked,heads⟩ := storeAfter whole single (by simpa using away h)
  refine ⟨linked,stored,⟨fun other => ?_,fun first second different place inside inside' => ?_⟩,
    relinked.bounded (allocBounded bounded _),relinked.fresh,fun place => ?_⟩
  · by_cases own : other = h
    · subst own
      rw [Function.update_self]
      exact listed
    · rw [Function.update_of_ne own]
      exact relinked.lists (heads other own) (alloc.listed other) fun place member =>
        layout.apart other h own place member
  · by_cases own : first = h
    · subst own
      rw [Function.update_self] at inside
      rw [Function.update_of_ne (Ne.symm different)] at inside'
      rcases List.mem_append.mp inside with old | new
      · exact layout.apart first second different place old inside'
      · rw [List.mem_singleton.mp new] at inside'
        exact away second inside'
    · rw [Function.update_of_ne own] at inside
      by_cases own' : second = h
      · subst own'
        rw [Function.update_self] at inside'
        rcases List.mem_append.mp inside' with old | new
        · exact layout.apart first second different place inside old
        · rw [List.mem_singleton.mp new] at inside
          exact away first inside
      · rw [Function.update_of_ne own'] at inside'
        exact layout.apart first second different place inside inside'
  · rw [relinked.items]
    by_cases new : place = links.fresh
    · rw [if_pos new, new]
      exact congrArg (Option.map Cell.item) (putSelf links links.fresh ⟨item,none⟩)
    · rw [if_neg new, allocOther links _ new]

end

structure Filled (links : Links H α) (chains : H → List (Nat × α)) : Prop where
  layout : Layout links fun h => (chains h).map Prod.fst
  items : ∀ h, ∀ entry ∈ chains h, (links.cells entry.1).map Cell.item = some entry.2

section
variable {links : Links H α} {chains : H → List (Nat × α)} {h : H} {entry : Nat × α} {before after : List (Nat × α)}

theorem Filled.entries (filled : Filled links chains) (h : H) : links.Entries h (chains h) :=
  ⟨filled.layout.listed h,filled.items h⟩

theorem emptyFilled : Filled (.empty : Links H α) fun _ => [] := ⟨⟨fun _ => rfl,nofun⟩,nofun⟩

theorem Filled.push [DecidableEq H] (filled : Filled links chains) (bounded : links.Bounded) (h : H) (item : α) :
    Filled (links.push h item) (Function.update chains h ((links.fresh,item) :: chains h)) ∧ (links.push h item).Bounded := by
  have away : ∀ h, links.fresh ∉ (chains h).map Prod.fst := fun h => (filled.entries h).away bounded
  have laid := filled.layout.enqueue away h item
  have same : (fun other => (Function.update chains h ((links.fresh,item) :: chains h) other).map Prod.fst) =
      Function.update (fun other => (chains other).map Prod.fst) h (links.fresh :: (chains h).map Prod.fst) := by
    funext other
    by_cases own : other = h
    · rw [own, Function.update_self, Function.update_self, List.map_cons]
    · rw [Function.update_of_ne own, Function.update_of_ne own]
  refine ⟨⟨same ▸ ⟨laid.listed,laid.apart⟩,fun other entry member => ?_⟩,allocBounded bounded ⟨item,links.heads h⟩⟩
  have old : ∀ other, ∀ entry ∈ chains other, ((links.push h item).cells entry.1).map Cell.item = some entry.2 := by
    intro other entry member
    have different : entry.1 ≠ links.fresh := fun same => away other (same ▸ List.mem_map_of_mem member)
    exact (congrArg (Option.map Cell.item) (putOther links _ different)).trans (filled.items other entry member)
  by_cases own : other = h
  · rw [own, Function.update_self] at member
    rcases List.mem_cons.mp member with rfl | there
    · exact congrArg (Option.map Cell.item) (putSelf links _ _)
    · exact old h entry there
  · rw [Function.update_of_ne own] at member
    exact old other entry member

theorem Filled.remove [DecidableEq H] {cell : Cell α} (filled : Filled links chains) (bounded : links.Bounded)
    (split : chains h = before ++ entry :: after) (there : links.cells entry.1 = some cell) :
    ∃ links', links.store ((Slot.head h).after (before.map Prod.fst)) cell.next = some links' ∧
      Filled (links'.free entry.1) (Function.update chains h (before ++ after)) ∧ (links'.free entry.1).Bounded ∧
      links'.fresh = links.fresh := by
  have split' : (chains h).map Prod.fst = before.map Prod.fst ++ entry.1 :: after.map Prod.fst := by
    rw [split, List.map_append, List.map_cons]
  obtain ⟨links',stored,laid,relinked,away⟩ := filled.layout.unlink split' there
  have same : (fun other => (Function.update chains h (before ++ after) other).map Prod.fst) =
      Function.update (fun other => (chains other).map Prod.fst) h (before.map Prod.fst ++ after.map Prod.fst) := by
    funext other
    by_cases own : other = h
    · rw [own, Function.update_self, Function.update_self, List.map_append]
    · rw [Function.update_of_ne own, Function.update_of_ne own]
  refine ⟨links',stored,⟨same ▸ laid.free away,fun other place member => ?_⟩,freeBounded (relinked.bounded bounded) _,relinked.fresh⟩
  have different : place.1 ≠ entry.1 := by
    intro equal
    refine away other ?_
    rw [← equal, ← congrFun same other]
    exact List.mem_map_of_mem member
  rw [freeOther links' different, relinked.items]
  refine filled.items other place ?_
  by_cases own : other = h
  · rw [own, Function.update_self] at member
    rw [own, split]
    rcases List.mem_append.mp member with first | last
    · exact List.mem_append_left _ first
    · exact List.mem_append_right _ (List.mem_cons_of_mem _ last)
  · rwa [Function.update_of_ne own] at member

end
end LibProc.LinkedSlots
