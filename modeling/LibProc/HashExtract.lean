import LibProc.HashMaps

/-! Emptying a table. The loop takes the head of a bucket out by its key, and the search for a removal passes
by a key of NULL, which an addition accepts: such a node stays at the head of its bucket for ever. -/
namespace LibProc.HashTable
open LinkedSlots

variable {K D : Type}

def accepted (code : Int) (data : Option D) : List D := if code = 0 then data.toList else []

def addAll (table : Functions K D) : Buckets K D → List (Bool × Option D) → Option (List D × Buckets K D)
  | buckets,[] => some ([],buckets)
  | buckets,(memory,data) :: rest => do
    let (code,buckets) ← hashAddData table buckets memory data
    let (later,buckets) ← addAll table buckets rest
    some (accepted code data ++ later,buckets)

variable {table : Functions K D} {buckets : Buckets K D} {chains : Chains K D} {i : Nat} {indices : List Nat}
  {entry : Nat × HashNode K D} {rest : List (Nat × HashNode K D)} {data : D} {stored : List D}

structure Holds (table : Functions K D) (buckets : Buckets K D) (chains : Chains K D) (stored : List D) : Prop where
  laid : Laid table buckets chains
  once : stored.Nodup
  exact_ : ∀ data, data ∈ stored ↔ ∃ i, ∃ entry ∈ chains i, entry.2.data = data

section

theorem Holds.add (holds : Holds table buckets chains stored) (memory : Bool) (data : Option D) :
    ∃ code buckets' chains', hashAddData table buckets memory data = some (code,buckets') ∧
      Holds table buckets' chains' (stored ++ accepted code data) := by
  have unchanged : Holds table buckets chains (stored ++ []) := by rwa [List.append_nil]
  cases data with
  | none => exact ⟨-1,buckets,chains,rfl,unchanged⟩
  | some data =>
    rcases addReturns holds.laid memory data with ⟨-,-,-,adds⟩ | ⟨absent,adds⟩
    · exact ⟨-3,buckets,chains,adds,unchanged⟩
    cases memory with
    | false =>
      have adds : hashAddData table buckets false (some data) = some (-4,buckets) := by simpa using adds
      exact ⟨-4,buckets,chains,adds,unchanged⟩
    | true =>
      obtain ⟨buckets',address,adds,laid⟩ := (if_pos rfl).mp adds
      refine ⟨0,buckets',_,adds,laid,?_,fun other => ?_⟩
      · refine holds.once.append (List.nodup_singleton data) (List.disjoint_singleton.mpr fun old => ?_)
        obtain ⟨j,entry,member,rfl⟩ := (holds.exact_ data).mp old
        have own := holds.laid.placed.own j entry member
        have place := holds.laid.placed.place j entry member
        exact absent entry (by rwa [own, place]) own.symm
      · rw [accepted, if_pos rfl, List.mem_append, holds.exact_, Option.toList_some, List.mem_singleton]
        constructor
        · rintro (⟨j,entry,member,same⟩ | rfl)
          · by_cases own : j = table.bucket (table.keyForData data)
            · exact ⟨j,entry,by rw [own, Function.update_self]; exact List.mem_cons_of_mem _ (own ▸ member),same⟩
            · exact ⟨j,entry,by rwa [Function.update_of_ne own],same⟩
          · exact ⟨_,_,by rw [Function.update_self]; exact List.mem_cons_self,rfl⟩
        · rintro ⟨j,entry,member,same⟩
          by_cases own : j = table.bucket (table.keyForData data)
          · rw [own, Function.update_self] at member
            rcases List.mem_cons.mp member with rfl | old
            · exact .inr same.symm
            · exact .inl ⟨_,entry,old,same⟩
          · rw [Function.update_of_ne own] at member
            exact .inl ⟨j,entry,member,same⟩

theorem addAllHolds (holds : Holds table buckets chains stored) (calls : List (Bool × Option D)) :
    ∃ added buckets' chains', addAll table buckets calls = some (added,buckets') ∧
      Holds table buckets' chains' (stored ++ added) := by
  induction calls generalizing buckets chains stored with
  | nil => exact ⟨[],buckets,chains,rfl,by rwa [List.append_nil]⟩
  | cons c calls ih =>
    obtain ⟨memory,data⟩ := c
    obtain ⟨code,next,middle,adds,holds'⟩ := holds.add memory data
    obtain ⟨added,buckets',chains',later,holds''⟩ := ih holds'
    refine ⟨accepted code data ++ added,buckets',chains',?_,by rwa [List.append_assoc] at holds''⟩
    rw [addAll, adds]
    simp only [Option.bind_eq_bind,Option.bind_some,later]

theorem removeHead (laid : Laid table buckets chains) (head : chains i = entry :: rest) (nonNull : entry.2.key ≠ none) :
    ∃ buckets', hashRemoveKey table buckets entry.2.key = some (some entry.2.data,buckets') ∧
      Laid table buckets' (Function.update chains i rest) := by
  have place : table.bucket entry.2.key = i := laid.placed.place i entry (by simp [head])
  have apart := laid.placed.keyApart (show chains i = [] ++ entry :: rest from head)
  rcases removeReturns laid entry.2.key with ⟨before,other,after,buckets',split,same,-,removes,laid'⟩ | ⟨null | absent,-⟩
  · rw [place] at split laid'
    rw [head] at split
    cases before with
    | nil =>
      obtain ⟨rfl,rfl⟩ := List.cons.inj split
      exact ⟨buckets',removes,laid'⟩
    | cons first before =>
      obtain ⟨-,later⟩ := List.cons.inj split
      exact absurd same (apart other (by simp [later]))
  · exact absurd null nonNull
  · exact absurd rfl (absent entry (by rw [place, head]; exact List.mem_cons_self))

theorem headOf (laid : Laid table buckets chains) (i : Nat) : buckets.heads i = ((chains i).map Prod.fst).head? :=
  listHead (laid.filled.entries i).lists

theorem extractBucketReturns (laid : Laid table buckets chains) (nonNull : ∀ entry ∈ chains i, entry.2.key ≠ none) (turns : Nat)
    (passed : List (Option D)) : ∃ buckets', extractBucket table i turns buckets passed =
        (if (chains i).length < turns then some (buckets',passed ++ (chains i).map fun entry => some entry.2.data) else none) ∧
      Laid table buckets' (Function.update chains i []) := by
  generalize is : chains i = entries at nonNull
  induction entries generalizing buckets chains turns passed with
  | nil =>
    refine ⟨buckets,?_,by rwa [← is, Function.update_eq_self]⟩
    cases turns with
    | zero => rfl
    | succ turns =>
      rw [extractBucket, headOf laid, is]
      simp
  | cons entry rest ih =>
    obtain ⟨next,there⟩ := (laid.filled.entries i).cell (show entry ∈ chains i by simp [is])
    obtain ⟨taken,removes,laid'⟩ := removeHead laid is (nonNull entry List.mem_cons_self)
    obtain ⟨buckets',loops,laid''⟩ := ih laid' (turns - 1) (passed ++ [some entry.2.data]) (Function.update_self _ _ _)
      fun other member => nonNull other (List.mem_cons_of_mem _ member)
    rw [Function.update_idem] at laid''
    refine ⟨buckets',?_,laid''⟩
    cases turns with
    | zero => rfl
    | succ turns =>
      rw [Nat.add_sub_cancel] at loops
      rw [extractBucket, headOf laid, is]
      simp only [List.map_cons,List.head?_cons,there,Option.bind_eq_bind,Option.bind_some,removes,loops,List.append_assoc,
        List.singleton_append,List.length_cons,Nat.add_lt_add_iff_right]

theorem extractBucketStuck (laid : Laid table buckets chains) (null : ∃ entry ∈ chains i, entry.2.key = none) (turns : Nat)
    (passed : List (Option D)) : extractBucket table i turns buckets passed = none := by
  induction turns generalizing buckets chains passed with
  | zero => rfl
  | succ turns ih =>
    cases is : chains i with
    | nil =>
      obtain ⟨entry,member,-⟩ := null
      rw [is] at member
      exact absurd member List.not_mem_nil
    | cons entry rest =>
      obtain ⟨next,there⟩ := (laid.filled.entries i).cell (show entry ∈ chains i by simp [is])
      rw [extractBucket, headOf laid, is]
      simp only [List.map_cons,List.head?_cons,there,Option.bind_eq_bind,Option.bind_some]
      by_cases here : entry.2.key = none
      · rcases removeReturns laid entry.2.key with ⟨-,-,-,-,-,-,nonNull,-⟩ | ⟨-,removes⟩
        · exact absurd here nonNull
        · simp only [removes,Option.bind_some]
          exact ih laid null _
      · obtain ⟨taken,removes,laid'⟩ := removeHead laid is here
        simp only [removes,Option.bind_some]
        refine ih laid' ?_ _
        obtain ⟨other,member,same⟩ := null
        rw [is] at member
        rcases List.mem_cons.mp member with rfl | later
        · exact absurd same here
        · exact ⟨other,by rwa [Function.update_self],same⟩

theorem extractFromReturns (laid : Laid table buckets chains) (nodup : indices.Nodup)
    (nonNull : ∀ i ∈ indices, ∀ entry ∈ chains i, entry.2.key ≠ none) (turns : Nat)
    (enough : ∀ i ∈ indices, (chains i).length < turns) (passed : List (Option D)) :
    ∃ buckets' chains', extractFrom table turns indices buckets passed = some (buckets',passed ++ (dataOf chains indices).map some) ∧
      Laid table buckets' chains' ∧ (∀ i ∈ indices, chains' i = []) ∧ ∀ j, j ∉ indices → chains' j = chains j := by
  induction indices generalizing buckets chains passed with
  | nil => exact ⟨buckets,chains,by simp [extractFrom,dataOf],laid,nofun,fun _ _ => rfl⟩
  | cons i rest ih =>
    obtain ⟨away,nodup⟩ := List.nodup_cons.mp nodup
    obtain ⟨first,loops,laid₁⟩ := extractBucketReturns laid (nonNull i List.mem_cons_self) turns passed
    rw [if_pos (enough i List.mem_cons_self)] at loops
    have others : ∀ j ∈ rest, Function.update chains i [] j = chains j :=
      fun j member => Function.update_of_ne (fun own : j = i => away (own ▸ member)) _ _
    obtain ⟨buckets',chains',later,laid₂,emptied,kept⟩ := ih laid₁ nodup
      (fun j member => others j member ▸ nonNull j (List.mem_cons_of_mem _ member))
      (fun j member => others j member ▸ enough j (List.mem_cons_of_mem _ member)) (passed ++ (chains i).map fun entry => some entry.2.data)
    have same : dataOf (Function.update chains i []) rest = dataOf chains rest :=
      List.flatMap_congr fun j member => by rw [others j member]
    refine ⟨buckets',chains',?_,laid₂,fun j member => ?_,fun j outside => ?_⟩
    · rw [extractFrom, loops]
      simp only [Option.bind_eq_bind,Option.bind_some,later,same]
      rw [show dataOf chains (i :: rest) = (chains i).map (fun entry => entry.2.data) ++ dataOf chains rest from rfl,
        List.map_append, List.map_map, List.append_assoc]
      rfl
    · rcases List.mem_cons.mp member with rfl | later
      · rw [kept j away, Function.update_self]
      · exact emptied j later
    · have parts : j ≠ i ∧ j ∉ rest := by rwa [List.mem_cons, not_or] at outside
      rw [kept j parts.2, Function.update_of_ne parts.1]

theorem extractFromStuck (laid : Laid table buckets chains) (nodup : indices.Nodup)
    (null : ∃ i ∈ indices, ∃ entry ∈ chains i, entry.2.key = none) (turns : Nat) (passed : List (Option D)) :
    extractFrom table turns indices buckets passed = none := by
  induction indices generalizing buckets chains passed with
  | nil =>
    obtain ⟨i,member,-⟩ := null
    exact absurd member List.not_mem_nil
  | cons i rest ih =>
    rw [extractFrom]
    by_cases here : ∃ entry ∈ chains i, entry.2.key = none
    · rw [extractBucketStuck laid here]
      rfl
    obtain ⟨away,nodup⟩ := List.nodup_cons.mp nodup
    obtain ⟨first,loops,laid'⟩ := extractBucketReturns laid (fun entry member key => here ⟨entry,member,key⟩) turns passed
    rw [loops]
    split
    · refine ih laid' nodup ?_ _
      obtain ⟨j,member,entry,inside,key⟩ := null
      rcases List.mem_cons.mp member with rfl | later
      · exact absurd ⟨entry,inside,key⟩ here
      · exact ⟨j,later,entry,by rwa [Function.update_of_ne fun own : j = i => away (own ▸ later)],key⟩
    · rfl

theorem createHolds : Holds table hashCreateTable (fun _ => []) ([] : List D) :=
  ⟨createLaid,List.nodup_nil,fun _ => ⟨nofun,fun ⟨_,_,member,_⟩ => absurd member List.not_mem_nil⟩⟩

theorem Holds.extractStuck (holds : Holds table buckets chains stored) (member : data ∈ stored) (null : table.keyForData data = none)
    (turns : Nat) : hashExtract table turns buckets = none := by
  obtain ⟨i,entry,inside,rfl⟩ := (holds.exact_ data).mp member
  have key : entry.2.key = none := by rw [← holds.laid.placed.own i entry inside, null]
  have index : i ∈ List.range table.hashSize := holds.laid.placed.place i entry inside ▸ bucketBelow _
  exact extractFromStuck holds.laid List.nodup_range ⟨i,index,entry,inside,key⟩ turns []

end

/- The loop ends, with nothing left in the table and each datum given to the extractor once, exactly when no datum of the table has
the key NULL. -/
theorem extractEndsIff (table : Functions K D) (calls : List (Bool × Option D)) :
    ∃ stored buckets, addAll table hashCreateTable calls = some (stored,buckets) ∧
      ((∃ turns buckets' passed, hashExtract table turns buckets = some (buckets',passed) ∧
          (∀ i < table.hashSize, buckets'.heads i = none) ∧ passed.Perm (stored.map some)) ↔
        ∀ data ∈ stored, table.keyForData data ≠ none) := by
  obtain ⟨stored,buckets,chains,adds,holds⟩ := addAllHolds (createHolds : Holds table _ _ _) calls
  rw [List.nil_append] at holds
  have placed := holds.laid.placed
  refine ⟨stored,buckets,adds,?_,fun nonNull => ?_⟩
  · rintro ⟨turns,buckets',passed,ends,-⟩ data member null
    rw [holds.extractStuck member null] at ends
    exact absurd ends (Option.some_ne_none _).symm
  · have keys : ∀ i ∈ List.range table.hashSize, ∀ entry ∈ chains i, entry.2.key ≠ none := fun i _ entry inside key =>
      nonNull entry.2.data ((holds.exact_ _).mpr ⟨i,entry,inside,rfl⟩) (by rw [placed.own i entry inside, key])
    have enough : ∀ i ∈ List.range table.hashSize, (chains i).length < buckets.fresh + 1 := by
      intro i _
      have size := holds.laid.bounded.length (holds.laid.filled.entries i).lists
      rw [List.length_map] at size
      omega
    obtain ⟨buckets',chains',ends,laid,emptied,-⟩ := extractFromReturns holds.laid List.nodup_range keys _ enough []
    refine ⟨_,buckets',_,ends,fun i below => ?_,?_⟩
    · rw [headOf laid, emptied i (List.mem_range.mpr below)]
      rfl
    · rw [List.nil_append]
      refine List.Perm.map some ((List.perm_ext_iff_of_nodup (placed.dataNodup List.nodup_range) holds.once).mpr fun data => ?_)
      rw [dataMem, holds.exact_]
      constructor
      · rintro ⟨i,-,found⟩
        exact ⟨i,found⟩
      · rintro ⟨i,entry,inside,same⟩
        exact ⟨i,placed.place i entry inside ▸ bucketBelow _,entry,inside,same⟩

/- A datum whose key is the number 0. -/
theorem extractNullStays : ∃ buckets, addAll numbers hashCreateTable [(true,some 0)] = some ([0],buckets) ∧
    ¬∃ turns buckets' passed, hashExtract numbers turns buckets = some (buckets',passed) := by
  obtain ⟨stored,buckets,chains,adds,holds⟩ := addAllHolds (createHolds : Holds numbers _ _ _) [(true,some 0)]
  have zero : (addAll numbers hashCreateTable [(true,some 0)]).map Prod.fst = some [0] := by decide
  rw [adds] at zero
  cases Option.some.inj zero
  refine ⟨buckets,adds,fun ⟨turns,buckets',passed,ends⟩ => ?_⟩
  rw [holds.extractStuck (show 0 ∈ [0] by decide) (by decide) turns] at ends
  exact absurd ends (Option.some_ne_none _).symm

end LibProc.HashTable
