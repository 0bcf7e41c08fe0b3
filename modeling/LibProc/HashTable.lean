import LibProc.LinkedSlots

/-! The hash table of hashtable.c. A bucket is a list of nodes; a search for a removal keeps the slot
that leads to the node it finds, and an iteration goes from slot to slot while it takes nodes out.
`none` is NULL where the source has a pointer, and a key of `none` is the number 0. -/
namespace LibProc.HashTable
open LinkedSlots

variable {K D A : Type}

structure HashNode (K D : Type) where
  hash : Nat
  key : Option K
  data : D
  deriving DecidableEq, Repr

/- What a table is created with. The functions are those of the caller, whose promise for the comparison is
that it tells identical keys. -/
structure Functions (K D : Type) where
  hashSize : Nat
  positive : 0 < hashSize
  hashFunc : Option K → Nat
  keyCmp : Option K → Option K → Bool
  identical : ∀ key1 key2, keyCmp key1 key2 = true ↔ key1 = key2
  keyForData : D → Option K

abbrev Buckets (K D : Type) := Links Nat (HashNode K D)

variable (table : Functions K D)

def Functions.bucket (key : Option K) : Nat := table.hashFunc key % table.hashSize

def hashCreateTable : Buckets K D := .empty

def hashSearchInternal (buckets : Buckets K D) (key : Option K) : Option (Slot Nat × Option Nat) :=
  buckets.find (fun _ node => node.key.isSome && table.keyCmp node.key key) (.head (table.bucket key))

def hashRemoveKeyInternal (buckets : Buckets K D) (key : Option K) : Option (Option D × Buckets K D) := do
  let (nodePtr,found) ← hashSearchInternal table buckets key
  match found with
  | none => some (none,buckets)
  | some address =>
    let node ← buckets.cells address
    let unlinked ← buckets.store nodePtr node.next
    some (some node.item.data,unlinked.free address)

def hashRemoveKey (buckets : Buckets K D) (key : Option K) : Option (Option D × Buckets K D) :=
  hashRemoveKeyInternal table buckets key

def hashRemoveData (buckets : Buckets K D) : Option D → Option (Option D × Buckets K D)
  | none => some (none,buckets)
  | some data => hashRemoveKeyInternal table buckets (table.keyForData data)

/- This search also compares a key of NULL. -/
def hashFindKey (buckets : Buckets K D) (key : Option K) : Option (Option D) := do
  let (_,found) ← buckets.find (fun _ node => table.keyCmp node.key key) (.head (table.bucket key))
  match found with
  | none => some none
  | some address =>
    let node ← buckets.cells address
    some (some node.item.data)

def hashAddData (buckets : Buckets K D) (memory : Bool) : Option D → Option (Int × Buckets K D)
  | none => some (-1,buckets)
  | some data => do
    let key := table.keyForData data
    let found ← hashFindKey table buckets key
    if found.isSome = true then some (-3,buckets)
    else if memory = false then some (-4,buckets)
    else some (0,buckets.push (table.bucket key) ⟨table.hashFunc key,key,data⟩)

/- A callback that asks for removal, or not. What it answers may depend on what it has been given before. -/
abbrev Iterator (D : Type) := List D → D → Bool

def iterateBucket (iterator : Iterator D) : Nat → Slot Nat → Buckets K D → List (D × Bool) → Option (Buckets K D × List (D × Bool))
  | 0,_,_,_ => none
  | turns + 1,ptr,buckets,given => do
    match ← buckets.load ptr with
    | none => some (buckets,given)
    | some goner =>
      let node ← buckets.cells goner
      let data := node.item.data
      if iterator (given.map Prod.fst) data = true then
        let unlinked ← buckets.store ptr node.next
        iterateBucket iterator turns ptr (unlinked.free goner) (given ++ [(data,true)])
      else iterateBucket iterator turns (.next goner) buckets (given ++ [(data,false)])

def iterateFrom (iterator : Iterator D) : List Nat → Buckets K D → List (D × Bool) → Option (Buckets K D × List (D × Bool))
  | [],buckets,given => some (buckets,given)
  | i :: rest,buckets,given => do
    let (buckets,given) ← iterateBucket iterator (buckets.fresh + 1) (.head i) buckets given
    iterateFrom iterator rest buckets given

def hashIterateArgTable (buckets : Buckets K D) (iterator : A → Iterator D) (arg : A) : Option (Buckets K D × List (D × Bool)) :=
  iterateFrom (iterator arg) (List.range table.hashSize) buckets []

def hashIterateTable (buckets : Buckets K D) (iterator : Iterator D) : Option (Buckets K D × List (D × Bool)) :=
  iterateFrom iterator (List.range table.hashSize) buckets []

def extractBucket (i : Nat) : Nat → Buckets K D → List (Option D) → Option (Buckets K D × List (Option D))
  | 0,_,_ => none
  | turns + 1,buckets,passed =>
    match buckets.heads i with
    | none => some (buckets,passed)
    | some head => do
      let node ← buckets.cells head
      let (data,buckets) ← hashRemoveKey table buckets node.item.key
      extractBucket i turns buckets (passed ++ [data])

def extractFrom (turns : Nat) : List Nat → Buckets K D → List (Option D) → Option (Buckets K D × List (Option D))
  | [],buckets,passed => some (buckets,passed)
  | i :: rest,buckets,passed => do
    let (buckets,passed) ← extractBucket table i turns buckets passed
    extractFrom turns rest buckets passed

def hashExtract (turns : Nat) (buckets : Buckets K D) : Option (Buckets K D × List (Option D)) :=
  extractFrom table turns (List.range table.hashSize) buckets []

abbrev Chains (K D : Type) := Nat → List (Nat × HashNode K D)

structure Placed (chains : Chains K D) : Prop where
  place : ∀ i, ∀ entry ∈ chains i, table.bucket entry.2.key = i
  own : ∀ i, ∀ entry ∈ chains i, table.keyForData entry.2.data = entry.2.key
  distinct : ∀ i, ((chains i).map fun entry => entry.2.key).Nodup

structure Laid (buckets : Buckets K D) (chains : Chains K D) : Prop where
  filled : Filled buckets chains
  bounded : buckets.Bounded
  placed : Placed table chains

section
variable {table} {buckets : Buckets K D} {chains : Chains K D} {i : Nat} {entry : Nat × HashNode K D}
  {before after rest : List (Nat × HashNode K D)} {key : Option K} {data : D}

theorem Placed.keyApart (placed : Placed table chains) (split : chains i = before ++ entry :: after) :
    ∀ other ∈ before ++ after, other.2.key ≠ entry.2.key := by
  have distinct := placed.distinct i
  rw [split, List.map_append, List.map_cons] at distinct
  have away := (List.nodup_middle.mp distinct).notMem
  rw [← List.map_append] at away
  exact fun other member same => away (same ▸ List.mem_map_of_mem (f := fun entry => entry.2.key) member)

theorem Placed.sublist (placed : Placed table chains) {part : List (Nat × HashNode K D)} (sub : part.Sublist (chains i)) :
    Placed table (Function.update chains i part) := by
  have inside : ∀ j, ∀ entry ∈ Function.update chains i part j, entry ∈ chains j := by
    intro j entry member
    by_cases own : j = i
    · rw [own, Function.update_self] at member
      exact own ▸ sub.subset member
    · rwa [Function.update_of_ne own] at member
  refine ⟨fun j entry member => placed.place j entry (inside j entry member),
    fun j entry member => placed.own j entry (inside j entry member),fun j => ?_⟩
  by_cases own : j = i
  · rw [own, Function.update_self]
    exact (placed.distinct i).sublist (sub.map _)
  · rw [Function.update_of_ne own]
    exact placed.distinct j

theorem Placed.push (placed : Placed table chains) (absent : ∀ entry ∈ chains (table.bucket key), entry.2.key ≠ key)
    (own : table.keyForData data = key) (address : Nat) : Placed table (Function.update chains (table.bucket key)
      ((address,⟨table.hashFunc key,key,data⟩) :: chains (table.bucket key))) := by
  have here : ∀ (P : Nat → Nat × HashNode K D → Prop), (∀ j, ∀ entry ∈ chains j, P j entry) →
      P (table.bucket key) (address,⟨table.hashFunc key,key,data⟩) → ∀ j, ∀ entry ∈ Function.update chains (table.bucket key)
        ((address,⟨table.hashFunc key,key,data⟩) :: chains (table.bucket key)) j, P j entry := by
    intro P old new j entry member
    by_cases same : j = table.bucket key
    · subst same
      rw [Function.update_self] at member
      rcases List.mem_cons.mp member with rfl | there
      · exact new
      · exact old _ entry there
    · rw [Function.update_of_ne same] at member
      exact old j entry member
  refine ⟨here _ placed.place rfl,here (fun _ entry => table.keyForData entry.2.data = entry.2.key) placed.own own,fun j => ?_⟩
  by_cases same : j = table.bucket key
  · subst same
    rw [Function.update_self, List.map_cons, List.nodup_cons]
    refine ⟨fun member => ?_,placed.distinct _⟩
    obtain ⟨entry,there,is⟩ := List.mem_map.mp member
    exact absent entry there is
  · rw [Function.update_of_ne same]
    exact placed.distinct j

theorem createLaid : Laid table hashCreateTable fun _ => [] :=
  ⟨emptyFilled,fun _ _ => rfl,⟨nofun,nofun,fun _ => List.nodup_nil⟩⟩

theorem findsNode (laid : Laid table buckets chains) (key : Option K) (fits : HashNode K D → Bool)
    (tells : ∀ entry ∈ chains (table.bucket key), fits entry.2 = true ↔ entry.2.key = key) :
    (∃ before entry after, chains (table.bucket key) = before ++ entry :: after ∧ entry.2.key = key ∧
      buckets.find (fun _ => fits) (.head (table.bucket key)) =
        some ((Slot.head (table.bucket key)).after (before.map Prod.fst),some entry.1)) ∨
      (∀ entry ∈ chains (table.bucket key), entry.2.key ≠ key) ∧
        ∃ slot, buckets.find (fun _ => fits) (.head (table.bucket key)) = some (slot,none) := by
  have entries := laid.filled.entries (table.bucket key)
  by_cases present : ∃ entry ∈ chains (table.bucket key), entry.2.key = key
  · obtain ⟨entry,member,is⟩ := present
    obtain ⟨before,after,split⟩ := List.append_of_mem member
    have apart := laid.placed.keyApart split
    refine .inl ⟨before,entry,after,split,is,?_⟩
    rw [split] at entries
    refine entriesFound laid.bounded entries (fun other first => ?_) ((tells entry member).mpr is)
    have there : other ∈ chains (table.bucket key) := by simp [split,first]
    exact Bool.eq_false_iff.mpr fun fit =>
      apart other (List.mem_append_left _ first) (((tells other there).mp fit).trans is.symm)
  · have absent : ∀ entry ∈ chains (table.bucket key), entry.2.key ≠ key := fun entry member is => present ⟨entry,member,is⟩
    refine .inr ⟨absent,_,findEnd laid.bounded rfl entries.lists (entries.passes fun entry member => ?_)⟩
    exact Bool.eq_false_iff.mpr fun fit => absent entry member ((tells entry member).mp fit)

theorem findReturns (laid : Laid table buckets chains) (key : Option K) :
    (∃ entry ∈ chains (table.bucket key), entry.2.key = key ∧ hashFindKey table buckets key = some (some entry.2.data)) ∨
      (∀ entry ∈ chains (table.bucket key), entry.2.key ≠ key) ∧ hashFindKey table buckets key = some none := by
  rcases findsNode laid key (fun node => table.keyCmp node.key key) fun entry _ => table.identical entry.2.key key with
    ⟨before,entry,after,split,is,found⟩ | ⟨absent,slot,found⟩
  · have member : entry ∈ chains (table.bucket key) := by simp [split]
    obtain ⟨next,there⟩ := (laid.filled.entries _).cell member
    refine .inl ⟨entry,member,is,?_⟩
    rw [hashFindKey, found]
    simp only [Option.bind_eq_bind,Option.bind_some,there]
  · refine .inr ⟨absent,?_⟩
    rw [hashFindKey, found]
    rfl

theorem removeReturns (laid : Laid table buckets chains) (key : Option K) :
    (∃ before entry after buckets', chains (table.bucket key) = before ++ entry :: after ∧ entry.2.key = key ∧ key ≠ none ∧
      hashRemoveKey table buckets key = some (some entry.2.data,buckets') ∧
      Laid table buckets' (Function.update chains (table.bucket key) (before ++ after))) ∨
      (key = none ∨ ∀ entry ∈ chains (table.bucket key), entry.2.key ≠ key) ∧ hashRemoveKey table buckets key = some (none,buckets) := by
  by_cases null : key = none
  · subst null
    have entries := laid.filled.entries (table.bucket none)
    refine .inr ⟨.inl rfl,?_⟩
    have passes : ∀ entry ∈ chains (table.bucket none), (entry.2.key.isSome && table.keyCmp entry.2.key none) = false := by
      intro entry _
      cases is : entry.2.key with
      | none => rfl
      | some number =>
        have differ : table.keyCmp (some number) none = false :=
          Bool.eq_false_iff.mpr fun same => nomatch (table.identical _ _).mp same
        rw [differ, Bool.and_false]
    rw [hashRemoveKey, hashRemoveKeyInternal, hashSearchInternal, findEnd laid.bounded rfl entries.lists (entries.passes passes)]
    rfl
  · have tells : ∀ node : HashNode K D, (node.key.isSome && table.keyCmp node.key key) = true ↔ node.key = key := by
      intro node
      rw [Bool.and_eq_true, table.identical]
      exact ⟨And.right,fun is => ⟨is ▸ Option.isSome_iff_ne_none.mpr null,is⟩⟩
    rcases findsNode laid key (fun node => node.key.isSome && table.keyCmp node.key key) fun entry _ => tells entry.2 with
      ⟨before,entry,after,split,is,found⟩ | ⟨absent,slot,found⟩
    · have member : entry ∈ chains (table.bucket key) := by simp [split]
      obtain ⟨next,there⟩ := (laid.filled.entries _).cell member
      obtain ⟨unlinked,stored,filled,bounded,-⟩ := laid.filled.remove laid.bounded split there
      refine .inl ⟨before,entry,after,unlinked.free entry.1,split,is,null,?_,filled,bounded,laid.placed.sublist ?_⟩
      · rw [hashRemoveKey, hashRemoveKeyInternal, hashSearchInternal, found]
        simp only [Option.bind_eq_bind,Option.bind_some,there,stored]
      · rw [split]
        exact (List.sublist_cons_self _ _).append_left before
    · refine .inr ⟨.inr absent,?_⟩
      rw [hashRemoveKey, hashRemoveKeyInternal, hashSearchInternal, found]
      rfl

theorem addReturns (laid : Laid table buckets chains) (memory : Bool) (data : D) :
    (∃ entry ∈ chains (table.bucket (table.keyForData data)), entry.2.key = table.keyForData data ∧
      hashAddData table buckets memory (some data) = some (-3,buckets)) ∨
      (∀ entry ∈ chains (table.bucket (table.keyForData data)), entry.2.key ≠ table.keyForData data) ∧
        if memory = true then ∃ buckets' address, hashAddData table buckets memory (some data) = some (0,buckets') ∧
          Laid table buckets' (Function.update chains (table.bucket (table.keyForData data))
            ((address,⟨table.hashFunc (table.keyForData data),table.keyForData data,data⟩) ::
              chains (table.bucket (table.keyForData data))))
        else hashAddData table buckets memory (some data) = some (-4,buckets) := by
  rcases findReturns laid (table.keyForData data) with ⟨entry,member,is,found⟩ | ⟨absent,found⟩
  · refine .inl ⟨entry,member,is,?_⟩
    rw [hashAddData, found]
    rfl
  · refine .inr ⟨absent,?_⟩
    cases memory with
    | false =>
      rw [if_neg Bool.false_ne_true, hashAddData, found]
      rfl
    | true =>
      rw [if_pos rfl]
      obtain ⟨filled,bounded⟩ := laid.filled.push laid.bounded (table.bucket (table.keyForData data))
        ⟨table.hashFunc (table.keyForData data),table.keyForData data,data⟩
      refine ⟨_,buckets.fresh,?_,filled,bounded,laid.placed.push absent rfl _⟩
      rw [hashAddData, found]
      rfl

end
end LibProc.HashTable
