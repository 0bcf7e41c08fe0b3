import LibProc.HashTable

/-! The hash table as a finite map from keys to data. The map is the abstract state; it says what each
call answers, and leaves open in which order an iteration goes over the data. -/
namespace LibProc.HashTable
open LinkedSlots

variable {K D A : Type}

inductive Call (K D A : Type) where
  | add (memory : Bool) (data : Option D)
  | removeKey (key : Option K)
  | removeData (data : Option D)
  | findKey (key : Option K)
  | iterate (iterator : Iterator D)
  | iterateArg (iterator : A → Iterator D) (arg : A)

inductive Answer (D : Type) where
  | code (res : Int)
  | data (found : Option D)
  | given (calls : List (D × Bool))
  deriving DecidableEq, Repr

section
variable (table : Functions K D)

def call (buckets : Buckets K D) : Call K D A → Option (Answer D × Buckets K D)
  | .add memory data => (hashAddData table buckets memory data).map fun r => (.code r.1,r.2)
  | .removeKey key => (hashRemoveKey table buckets key).map fun r => (.data r.1,r.2)
  | .removeData data => (hashRemoveData table buckets data).map fun r => (.data r.1,r.2)
  | .findKey key => (hashFindKey table buckets key).map fun found => (.data found,buckets)
  | .iterate iterator => (hashIterateTable table buckets iterator).map fun r => (.given r.2,r.1)
  | .iterateArg iterator arg => (hashIterateArgTable table buckets iterator arg).map fun r => (.given r.2,r.1)

def run : Buckets K D → List (Call K D A) → Option (List (Answer D) × Buckets K D)
  | buckets,[] => some ([],buckets)
  | buckets,c :: rest => do
    let (answer,buckets) ← call table buckets c
    let (answers,buckets) ← run buckets rest
    some (answer :: answers,buckets)

end

abbrev Map (K D : Type) := Option K → Option D

def choices (iterator : Iterator D) : List D → List D → List (D × Bool)
  | _,[] => []
  | before,data :: rest => (data,iterator before data) :: choices iterator (before ++ [data]) rest

/- Each datum of the map is given once, and those stay for which the callback does not ask for removal. -/
def Map.Iterates (m : Map K D) (iterator : Iterator D) (given : List (D × Bool)) (m' : Map K D) : Prop :=
  ∃ order : List D, order.Nodup ∧ (∀ data, data ∈ order ↔ ∃ key, m key = some data) ∧ given = choices iterator [] order ∧
    ∀ key data, m' key = some data ↔ m key = some data ∧ (data,false) ∈ given

def Map.Answers [DecidableEq K] (keyForData : D → Option K) (m : Map K D) : Call K D A → Answer D → Map K D → Prop
  | .add _ none,answer,m' => answer = .code (-1) ∧ m' = m
  | .add memory (some data),answer,m' =>
    if (m (keyForData data)).isSome = true then answer = .code (-3) ∧ m' = m
    else if memory = true then answer = .code 0 ∧ m' = Function.update m (keyForData data) (some data)
    else answer = .code (-4) ∧ m' = m
  | .removeKey key,answer,m' => answer = .data (m key) ∧ m' = Function.update m key none
  | .removeData none,answer,m' => answer = .data none ∧ m' = m
  | .removeData (some data),answer,m' => answer = .data (m (keyForData data)) ∧ m' = Function.update m (keyForData data) none
  | .findKey key,answer,m' => answer = .data (m key) ∧ m' = m
  | .iterate iterator,answer,m' => ∃ given, answer = .given given ∧ m.Iterates iterator given m'
  | .iterateArg iterator arg,answer,m' => ∃ given, answer = .given given ∧ m.Iterates (iterator arg) given m'

def Map.Run [DecidableEq K] (keyForData : D → Option K) : Map K D → List (Call K D A) → List (Answer D) → Map K D → Prop
  | m,[],answers,m' => answers = [] ∧ m' = m
  | m,c :: rest,answers,m' => ∃ answer later next, answers = answer :: later ∧ m.Answers keyForData c answer next ∧
      next.Run keyForData rest later m'

def Call.NonNull (keyForData : D → Option K) : Call K D A → Prop
  | .add _ (some data) => keyForData data ≠ none
  | _ => True

variable {table : Functions K D} {buckets : Buckets K D} {chains : Chains K D} {m : Map K D} {i : Nat}
  {before after rest : List (Nat × HashNode K D)} {key : Option K} {data : D} {iterator : Iterator D}

structure Represents (table : Functions K D) (buckets : Buckets K D) (chains : Chains K D) (m : Map K D) : Prop where
  laid : Laid table buckets chains
  holds : ∀ key data, m key = some data ↔ ∃ entry ∈ chains (table.bucket key), entry.2.key = key ∧ entry.2.data = data
  nonNull : ∀ i, ∀ entry ∈ chains i, entry.2.key ≠ none

section

theorem Represents.here (is : Represents table buckets chains m) {entry : Nat × HashNode K D} (member : entry ∈ chains i) :
    m entry.2.key = some entry.2.data :=
  (is.holds _ _).mpr ⟨entry,(is.laid.placed.place i entry member).symm ▸ member,rfl,rfl⟩

theorem Represents.absent (is : Represents table buckets chains m) (none_ : ∀ entry ∈ chains (table.bucket key), entry.2.key ≠ key) :
    m key = none := by
  cases there : m key with
  | none => rfl
  | some data =>
    obtain ⟨entry,member,same,-⟩ := (is.holds key data).mp there
    exact absurd same (none_ entry member)

theorem createRepresents (table : Functions K D) : Represents table hashCreateTable (fun _ => []) fun _ => none :=
  ⟨createLaid,fun _ _ => ⟨nofun,fun ⟨_,member,_⟩ => nomatch member⟩,nofun⟩

theorem findRefines (is : Represents table buckets chains m) (key : Option K) : hashFindKey table buckets key = some (m key) := by
  rcases findReturns is.laid key with ⟨entry,member,same,found⟩ | ⟨none_,found⟩
  · rw [found, ← same, is.here member]
  · rw [found, is.absent none_]

variable [DecidableEq K]

theorem addRefines (is : Represents table buckets chains m) (memory : Bool) (data : D) (nonNull : table.keyForData data ≠ none) :
    ∃ code buckets' chains' m', hashAddData table buckets memory (some data) = some (code,buckets') ∧
      m.Answers table.keyForData (.add memory (some data) : Call K D A) (.code code) m' ∧ Represents table buckets' chains' m' := by
  simp only [Map.Answers]
  rcases addReturns is.laid memory data with ⟨entry,member,same,adds⟩ | ⟨none_,adds⟩
  · have present : (m (table.keyForData data)).isSome = true := by rw [← same, is.here member]; rfl
    simp only [adds,present,if_true]
    exact ⟨_,buckets,chains,m,rfl,⟨rfl,rfl⟩,is⟩
  have absent : ¬(m (table.keyForData data)).isSome = true := by rw [is.absent none_]; exact Bool.false_ne_true
  simp only [if_neg absent]
  cases memory with
  | false =>
    simp only [Bool.false_eq_true,if_false] at adds ⊢
    rw [adds]
    exact ⟨_,buckets,chains,m,rfl,⟨rfl,rfl⟩,is⟩
  | true =>
    simp only [if_true] at adds ⊢
    obtain ⟨buckets',address,adds,laid⟩ := adds
    rw [adds]
    refine ⟨_,buckets',_,_,rfl,⟨rfl,rfl⟩,laid,fun key other => ?_,fun j entry member => ?_⟩
    · by_cases own : key = table.keyForData data
      · subst own
        rw [Function.update_self, Function.update_self, Option.some.injEq]
        constructor
        · rintro rfl
          exact ⟨_,List.mem_cons_self,rfl,rfl⟩
        · rintro ⟨entry,member,same,rfl⟩
          rcases List.mem_cons.mp member with rfl | old
          · rfl
          · exact absurd same (none_ entry old)
      · rw [Function.update_of_ne own, is.holds]
        by_cases bucket : table.bucket key = table.bucket (table.keyForData data)
        · rw [bucket, Function.update_self]
          constructor
          · rintro ⟨entry,member,same⟩
            exact ⟨entry,List.mem_cons_of_mem _ member,same⟩
          · rintro ⟨entry,member,same,value⟩
            rcases List.mem_cons.mp member with rfl | old
            · exact absurd same.symm own
            · exact ⟨entry,old,same,value⟩
        · rw [Function.update_of_ne bucket]
    · by_cases own : j = table.bucket (table.keyForData data)
      · rw [own, Function.update_self] at member
        rcases List.mem_cons.mp member with rfl | old
        · exact nonNull
        · exact is.nonNull _ entry old
      · rw [Function.update_of_ne own] at member
        exact is.nonNull j entry member

theorem removeRefines (is : Represents table buckets chains m) (key : Option K) : ∃ buckets' chains',
    hashRemoveKey table buckets key = some (m key,buckets') ∧ Represents table buckets' chains' (Function.update m key none) := by
  rcases removeReturns is.laid key with ⟨before,entry,after,buckets',split,same,-,removes,laid⟩ | ⟨none_,removes⟩
  · subst same
    have member : entry ∈ chains (table.bucket entry.2.key) := by simp [split]
    have apart := is.laid.placed.keyApart split
    have left : ∀ j, ∀ other, other ∈ Function.update chains (table.bucket entry.2.key) (before ++ after) j ↔
        other ∈ chains j ∧ other.2.key ≠ entry.2.key := by
      intro j other
      by_cases own : j = table.bucket entry.2.key
      · subst own
        rw [Function.update_self, split]
        constructor
        · intro inside
          refine ⟨?_,apart other inside⟩
          rcases List.mem_append.mp inside with first | last
          · exact List.mem_append_left _ first
          · exact List.mem_append_right _ (List.mem_cons_of_mem _ last)
        · rintro ⟨inside,differ⟩
          rcases List.mem_append.mp inside with first | last
          · exact List.mem_append_left _ first
          · rcases List.mem_cons.mp last with rfl | last
            · exact absurd rfl differ
            · exact List.mem_append_right _ last
      · rw [Function.update_of_ne own]
        refine ⟨fun inside => ⟨inside,fun same => own ?_⟩,And.left⟩
        rw [← is.laid.placed.place j other inside, same]
    rw [is.here member]
    refine ⟨buckets',_,removes,laid,fun key data => ?_,fun j other inside => is.nonNull j other ((left j other).mp inside).1⟩
    simp only [left]
    by_cases own : key = entry.2.key
    · subst own
      rw [Function.update_self]
      exact ⟨nofun,fun ⟨_,⟨_,differ⟩,same,_⟩ => absurd same differ⟩
    · rw [Function.update_of_ne own, is.holds]
      constructor
      · rintro ⟨other,inside,rfl,value⟩
        exact ⟨other,⟨inside,own⟩,rfl,value⟩
      · rintro ⟨other,⟨inside,_⟩,same⟩
        exact ⟨other,inside,same⟩
  · have absent : m key = none := by
      rcases none_ with rfl | none_
      · cases there : m none with
        | none => rfl
        | some data =>
          obtain ⟨entry,member,same,-⟩ := (is.holds none data).mp there
          exact absurd same (is.nonNull _ entry member)
      · exact is.absent none_
    rw [absent]
    refine ⟨buckets,chains,removes,?_⟩
    rw [← absent, Function.update_eq_self]
    exact is

end

section
variable {indices : List Nat}

theorem choicesAppend (iterator : Iterator D) (seen first second : List D) :
    choices iterator seen (first ++ second) = choices iterator seen first ++ choices iterator (seen ++ first) second := by
  induction first generalizing seen with
  | nil => rw [List.append_nil]; rfl
  | cons data rest ih => rw [List.cons_append, choices, ih, choices, List.cons_append, List.append_assoc]; rfl

@[simp] theorem choicesData (iterator : Iterator D) (seen order : List D) : (choices iterator seen order).map Prod.fst = order := by
  induction order generalizing seen with
  | nil => rfl
  | cons data rest ih => rw [choices, List.map_cons, ih]

theorem choicesMem {seen order : List D} {answer : Bool} (member : (data,answer) ∈ choices iterator seen order) : data ∈ order := by
  rw [← choicesData iterator seen order]
  exact List.mem_map_of_mem member

theorem iterateBucketReturns (iterator : Iterator D) (laid : Laid table buckets chains) (split : chains i = before ++ rest)
    (distinct : (rest.map fun entry => entry.2.data).Nodup) (turns : Nat) (enough : rest.length < turns) (given : List (D × Bool)) :
    ∃ buckets' kept, iterateBucket iterator turns ((Slot.head i).after (before.map Prod.fst)) buckets given =
        some (buckets',given ++ choices iterator (given.map Prod.fst) (rest.map fun entry => entry.2.data)) ∧
      Laid table buckets' (Function.update chains i (before ++ kept)) ∧ ∀ entry, entry ∈ kept ↔ entry ∈ rest ∧
        (entry.2.data,false) ∈ choices iterator (given.map Prod.fst) (rest.map fun entry => entry.2.data) := by
  induction rest generalizing buckets chains before turns given with
  | nil =>
    obtain ⟨more,rfl⟩ := Nat.exists_eq_add_of_lt enough
    have lists := (laid.filled.entries i).lists
    rw [split, List.append_nil] at lists
    have here := loadAfter (show buckets.load (.head i) = some _ from rfl) lists
    refine ⟨buckets,[],?_,by rw [← split, Function.update_eq_self]; exact laid,by simp⟩
    rw [iterateBucket, here]
    simp [choices]
  | cons entry rest ih =>
    obtain ⟨more,rfl⟩ : ∃ more, turns = more + 1 := ⟨turns - 1,by omega⟩
    rw [List.map_cons, List.nodup_cons] at distinct
    have lists := (laid.filled.entries i).lists
    rw [split, List.map_append, List.map_cons] at lists
    obtain ⟨mid,reached,at_,-⟩ := segAppend.mp lists
    have here := loadAfter (show buckets.load (.head i) = some _ from rfl) reached
    obtain ⟨next,there⟩ := (laid.filled.entries i).cell (show entry ∈ chains i by simp [split])
    have others : ∀ other ∈ rest, other.2.data ≠ entry.2.data :=
      fun other member same => distinct.1 (same ▸ List.mem_map_of_mem (f := fun entry => entry.2.data) member)
    have apart : ∀ answer, (entry.2.data,answer) ∉ choices iterator (given.map Prod.fst ++ [entry.2.data])
        (rest.map fun entry => entry.2.data) := fun answer member => distinct.1 (choicesMem member)
    rw [iterateBucket, here, at_]
    simp only [Option.bind_eq_bind,Option.bind_some,there,List.map_cons,choices]
    cases asks : iterator (given.map Prod.fst) entry.2.data with
    | true =>
      obtain ⟨unlinked,stored,filled,bounded,-⟩ := laid.filled.remove laid.bounded split there
      have sub : (before ++ rest).Sublist (chains i) := split ▸ (List.sublist_cons_self _ _).append_left before
      obtain ⟨buckets',kept,loops,laid',which⟩ := ih ⟨filled,bounded,laid.placed.sublist sub⟩ (Function.update_self _ _ _)
        distinct.2 more (by simpa using enough) (given ++ [(entry.2.data,true)])
      rw [List.map_append, List.map_cons, List.map_nil] at loops which
      rw [Function.update_idem] at laid'
      refine ⟨buckets',kept,?_,laid',fun other => (which other).trans ?_⟩
      · simp only [if_true,stored,Option.bind_some,loops,List.append_assoc,List.singleton_append]
      · rw [List.mem_cons, List.mem_cons]
        constructor
        · exact fun ⟨member,answer⟩ => ⟨.inr member,.inr answer⟩
        · rintro ⟨own | member,same | answer⟩
          · exact Bool.noConfusion (congrArg Prod.snd same)
          · exact absurd (own ▸ answer) (apart false)
          · exact Bool.noConfusion (congrArg Prod.snd same)
          · exact ⟨member,answer⟩
    | false =>
      have split' : chains i = (before ++ [entry]) ++ rest := by rw [split, List.append_assoc]; rfl
      obtain ⟨buckets',kept,loops,laid',which⟩ := ih laid split' distinct.2 more (by simpa using enough)
        (given ++ [(entry.2.data,false)])
      rw [List.map_append, List.map_cons, List.map_nil] at loops which
      rw [List.map_append, List.map_singleton, afterConcat] at loops
      refine ⟨buckets',entry :: kept,?_,by rw [List.append_assoc] at laid'; exact laid',fun other => ?_⟩
      · simp only [Bool.false_eq_true,if_false,loops,List.append_assoc,List.singleton_append]
      · rw [List.mem_cons, List.mem_cons, List.mem_cons, which]
        constructor
        · rintro (rfl | ⟨member,answer⟩)
          · exact ⟨.inl rfl,.inl rfl⟩
          · exact ⟨.inr member,.inr answer⟩
        · rintro ⟨own | member,same | answer⟩
          · exact .inl own
          · exact .inl own
          · exact absurd (congrArg Prod.fst same) (others other member)
          · exact .inr ⟨member,answer⟩

def dataOf (chains : Chains K D) (indices : List Nat) : List D := indices.flatMap fun i => (chains i).map fun entry => entry.2.data

theorem Placed.sameData (placed : Placed table chains) {j : Nat} {entry other : Nat × HashNode K D} (here : entry ∈ chains i)
    (there : other ∈ chains j) (same : entry.2.data = other.2.data) : i = j ∧ entry = other := by
  have keys : entry.2.key = other.2.key := by rw [← placed.own i entry here, ← placed.own j other there, same]
  have index : i = j := by rw [← placed.place i entry here, ← placed.place j other there, keys]
  subst index
  exact ⟨rfl,List.inj_on_of_nodup_map (placed.distinct i) here there keys⟩

theorem Placed.nodupData (placed : Placed table chains) (i : Nat) : ((chains i).map fun entry => entry.2.data).Nodup :=
  List.Nodup.map_on (fun _ here _ there same => (placed.sameData here there same).2) ((placed.distinct i).of_map _)

theorem dataMem : data ∈ dataOf chains indices ↔ ∃ i ∈ indices, ∃ entry ∈ chains i, entry.2.data = data := by
  simp [dataOf]

theorem Placed.dataNodup (placed : Placed table chains) (nodup : indices.Nodup) : (dataOf chains indices).Nodup := by
  refine List.nodup_flatMap.mpr ⟨fun i _ => placed.nodupData i,nodup.pairwise_of_forall_ne fun i _ j _ differ => ?_⟩
  intro data here there
  obtain ⟨entry,member,same⟩ := List.mem_map.mp here
  obtain ⟨other,member',same'⟩ := List.mem_map.mp there
  exact differ (placed.sameData member member' (same.trans same'.symm)).1

theorem iterateFromReturns (iterator : Iterator D) (laid : Laid table buckets chains) (nodup : indices.Nodup) (given : List (D × Bool)) :
    ∃ buckets' chains', iterateFrom iterator indices buckets given =
        some (buckets',given ++ choices iterator (given.map Prod.fst) (dataOf chains indices)) ∧ Laid table buckets' chains' ∧
      ∀ j entry, entry ∈ chains' j ↔ entry ∈ chains j ∧
        (j ∈ indices → (entry.2.data,false) ∈ choices iterator (given.map Prod.fst) (dataOf chains indices)) := by
  induction indices generalizing buckets chains given with
  | nil => exact ⟨buckets,chains,by simp [iterateFrom,dataOf,choices],laid,by simp⟩
  | cons i rest ih =>
    have away := (List.nodup_cons.mp nodup).1
    have fits : (chains i).length < buckets.fresh + 1 := by
      have size := laid.bounded.length (laid.filled.entries i).lists
      rw [List.length_map] at size
      omega
    obtain ⟨first,kept,loops,laid₁,which⟩ := iterateBucketReturns iterator laid (show chains i = [] ++ chains i from rfl)
      (laid.placed.nodupData i) _ fits given
    have same : dataOf (Function.update chains i ([] ++ kept)) rest = dataOf chains rest :=
      List.flatMap_congr fun j member => by rw [Function.update_of_ne fun own : j = i => away (own ▸ member)]
    have whole := laid.placed.dataNodup nodup
    obtain ⟨buckets',chains',later,laid',which'⟩ := ih laid₁ (List.nodup_cons.mp nodup).2
      (given ++ choices iterator (given.map Prod.fst) ((chains i).map fun entry => entry.2.data))
    rw [List.map_append, choicesData, same] at later which'
    have order : dataOf chains (i :: rest) = (chains i).map (fun entry => entry.2.data) ++ dataOf chains rest := rfl
    rw [order, choicesAppend]
    refine ⟨buckets',chains',?_,laid',fun j entry => ?_⟩
    · rw [iterateFrom]
      simp only [Slot.after,List.map_nil] at loops
      simp only [Option.bind_eq_bind,loops,Option.bind_some,later,List.append_assoc]
    rw [order] at whole
    have apart := List.disjoint_of_nodup_append whole
    rw [which', List.mem_append]
    by_cases own : j = i
    · subst own
      rw [Function.update_self, List.nil_append, which]
      constructor
      · rintro ⟨⟨member,answer⟩,-⟩
        exact ⟨member,fun _ => .inl answer⟩
      · rintro ⟨member,answer⟩
        refine ⟨⟨member,(answer List.mem_cons_self).resolve_right fun later => ?_⟩,fun inside => absurd inside away⟩
        exact apart (List.mem_map_of_mem member) (choicesMem later)
    · rw [Function.update_of_ne own]
      refine and_congr_right fun member => ?_
      constructor
      · exact fun answer inside => .inr (answer ((List.mem_cons.mp inside).resolve_left own))
      · intro answer inside
        refine (answer (List.mem_cons_of_mem _ inside)).resolve_left fun earlier => ?_
        exact apart (choicesMem earlier) (dataMem.mpr ⟨j,inside,entry,member,rfl⟩)

theorem bucketBelow (key : Option K) : table.bucket key ∈ List.range table.hashSize :=
  List.mem_range.mpr (Nat.mod_lt _ table.positive)

theorem iterateRefines (is : Represents table buckets chains m) (iterator : Iterator D) : ∃ buckets' chains' given m',
    hashIterateTable table buckets iterator = some (buckets',given) ∧ m.Iterates iterator given m' ∧
      Represents table buckets' chains' m' := by
  classical
  obtain ⟨buckets',chains',loops,laid,which⟩ := iterateFromReturns iterator is.laid List.nodup_range []
  rw [List.map_nil, List.nil_append] at loops
  rw [List.map_nil] at which
  generalize ordered : dataOf chains (List.range table.hashSize) = order at loops which
  have inside : ∀ i, ∀ entry ∈ chains i, i ∈ List.range table.hashSize := by
    intro i entry member
    rw [← is.laid.placed.place i entry member]
    exact bucketBelow _
  have left : ∀ i, ∀ entry, entry ∈ chains' i ↔ entry ∈ chains i ∧ (entry.2.data,false) ∈ choices iterator [] order := by
    intro i entry
    rw [which]
    exact and_congr_right fun member => forall_prop_of_true (inside i entry member)
  have stays : ∀ key data, ((m key).filter fun data => decide ((data,false) ∈ choices iterator [] order)) = some data ↔
      m key = some data ∧ (data,false) ∈ choices iterator [] order := by
    intro key data
    rw [Option.filter_eq_some_iff, decide_eq_true_iff]
  refine ⟨buckets',chains',_,_,loops,⟨order,ordered ▸ is.laid.placed.dataNodup List.nodup_range,fun data => ?_,rfl,stays⟩,laid,
    fun key data => ?_,fun i entry member => is.nonNull i entry ((left i entry).mp member).1⟩
  · rw [← ordered, dataMem]
    constructor
    · rintro ⟨i,-,entry,member,rfl⟩
      exact ⟨_,is.here member⟩
    · rintro ⟨key,there⟩
      obtain ⟨entry,member,-,same⟩ := (is.holds key data).mp there
      exact ⟨_,bucketBelow key,entry,member,same⟩
  · rw [stays, is.holds]
    constructor
    · rintro ⟨⟨entry,member,same,rfl⟩,answer⟩
      exact ⟨entry,(left _ entry).mpr ⟨member,answer⟩,same,rfl⟩
    · rintro ⟨entry,member,same,rfl⟩
      obtain ⟨member,answer⟩ := (left _ entry).mp member
      exact ⟨⟨entry,member,same,rfl⟩,answer⟩

end

section
variable [DecidableEq K] {c : Call K D A} {calls : List (Call K D A)}

theorem callRefines (is : Represents table buckets chains m) (nonNull : c.NonNull table.keyForData) :
    ∃ answer buckets' chains' m', call table buckets c = some (answer,buckets') ∧ m.Answers table.keyForData c answer m' ∧
      Represents table buckets' chains' m' := by
  cases c with
  | add memory data =>
    cases data with
    | none => exact ⟨_,buckets,chains,m,rfl,⟨rfl,rfl⟩,is⟩
    | some data =>
      obtain ⟨code,buckets',chains',m',adds,answers,is'⟩ := addRefines (A := A) is memory data nonNull
      exact ⟨_,buckets',chains',m',by rw [call, adds]; rfl,answers,is'⟩
  | removeKey key =>
    obtain ⟨buckets',chains',removes,is'⟩ := removeRefines is key
    exact ⟨_,buckets',chains',_,by rw [call, removes]; rfl,⟨rfl,rfl⟩,is'⟩
  | removeData data =>
    cases data with
    | none => exact ⟨_,buckets,chains,m,rfl,⟨rfl,rfl⟩,is⟩
    | some data =>
      obtain ⟨buckets',chains',removes,is'⟩ := removeRefines is (table.keyForData data)
      have asData : hashRemoveData table buckets (some data) = some (m (table.keyForData data),buckets') := removes
      exact ⟨_,buckets',chains',_,by rw [call, asData]; rfl,⟨rfl,rfl⟩,is'⟩
  | findKey key => exact ⟨_,buckets,chains,m,by rw [call, findRefines is]; rfl,⟨rfl,rfl⟩,is⟩
  | iterate iterator =>
    obtain ⟨buckets',chains',given,m',loops,iterates,is'⟩ := iterateRefines is iterator
    exact ⟨_,buckets',chains',m',by rw [call, loops]; rfl,⟨given,rfl,iterates⟩,is'⟩
  | iterateArg iterator arg =>
    obtain ⟨buckets',chains',given,m',loops,iterates,is'⟩ := iterateRefines is (iterator arg)
    have withArg : hashIterateArgTable table buckets iterator arg = some (buckets',given) := loops
    exact ⟨_,buckets',chains',m',by rw [call, withArg]; rfl,⟨given,rfl,iterates⟩,is'⟩

theorem runRefines (is : Represents table buckets chains m) (nonNull : ∀ c ∈ calls, c.NonNull table.keyForData) :
    ∃ answers buckets' chains' m', run table buckets calls = some (answers,buckets') ∧
      m.Run table.keyForData calls answers m' ∧ Represents table buckets' chains' m' := by
  induction calls generalizing buckets chains m with
  | nil => exact ⟨[],buckets,chains,m,rfl,⟨rfl,rfl⟩,is⟩
  | cons c rest ih =>
    obtain ⟨answer,next,laid,middle,calls,answers,is'⟩ := callRefines is (nonNull c List.mem_cons_self)
    obtain ⟨later,buckets',chains',m',runs,run',is''⟩ := ih is' fun c member => nonNull c (List.mem_cons_of_mem _ member)
    refine ⟨answer :: later,buckets',chains',m',?_,⟨answer,later,middle,rfl,answers,run'⟩,is''⟩
    rw [run, calls]
    simp only [Option.bind_eq_bind,Option.bind_some,runs]

end

/- Whatever is done with a table, each call answers as the map does, and what it leaves is the map. -/
theorem tableIsMap [DecidableEq K] (table : Functions K D) (calls : List (Call K D A))
    (nonNull : ∀ c ∈ calls, c.NonNull table.keyForData) : ∃ answers buckets m,
      run table hashCreateTable calls = some (answers,buckets) ∧ Map.Run table.keyForData (fun _ => none) calls answers m ∧
      ∀ key, hashFindKey table buckets key = some (m key) := by
  obtain ⟨answers,buckets,chains,m,runs,answered,is⟩ := runRefines (createRepresents table) nonNull
  exact ⟨answers,buckets,m,runs,answered,findRefines is⟩

def numbers : Functions Nat Nat where
  hashSize := 2
  positive := by decide
  hashFunc key := key.getD 0
  keyCmp key1 key2 := key1 == key2
  identical _ _ := beq_iff_eq
  keyForData data := if data = 0 then none else some data

def numbersCalls : List (Call Nat Nat Nat) :=
  [.add true (some 1),.add true (some 3),.add true (some 3),.iterateArg (fun arg _ data => data == arg) 3,.findKey (some 1)]

theorem tableIsMapNumbers : ∃ answers buckets m,
    run numbers hashCreateTable numbersCalls = some (answers,buckets) ∧
      Map.Run numbers.keyForData (fun _ => none) numbersCalls answers m ∧ ∀ key, hashFindKey numbers buckets key = some (m key) :=
  tableIsMap numbers numbersCalls fun c member => by
    simp only [numbersCalls,List.mem_cons,List.not_mem_nil,or_false] at member
    rcases member with rfl | rfl | rfl | rfl | rfl <;> simp [Call.NonNull,numbers]

example : (run numbers hashCreateTable numbersCalls).map Prod.fst =
    some [.code 0,.code 0,.code (-3),.given [(3,true),(1,false)],.data (some 1)] := by decide

end LibProc.HashTable
