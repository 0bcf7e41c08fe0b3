import LibProc.Runs
import LibProc.SortedBuckets
import LibProc.Xdr
import Mathlib.Data.Nat.Digits.Lemmas

/-! A dictionary is a finite map from keys to values. The map is the abstract state, with
the answers its operations give; a dictionary that started zeroed represents one, and each
call of xdr.c answers as the map does. The nodes are laid out by the keys alone, so that
two dictionaries of one map are equal, and encode alike. -/
namespace LibProc.XdrDict
open XdrBytes Runs
open SortedBuckets (Linear Bucketed)

variable {V : Type}

inductive Call (V : Type) where
  | add (malloc : Bool) (key : Key) (value : V)
  | remove (key : Key)
  | removeAll
  | lookup (key : Key)

inductive Answer (V : Type) where
  | code (res : Int)
  | value (found : Option V)
  deriving DecidableEq, Repr

def call (table : Dictionary V) : Call V → Answer V × Dictionary V
  | .add malloc key value =>
    let r := dictAdd malloc table key value
    (.code r.1,r.2)
  | .remove key =>
    let r := dictRemove table key
    (.value r.1,r.2)
  | .removeAll =>
    let r := dictRemoveAll table
    (.code r.1,r.2.2)
  | .lookup key => (.value (dictLookup table key),table)

/- The finite map a dictionary stands for. An add that finds no memory changes nothing. -/
abbrev Map (V : Type) := Key → Option V

def Map.call (m : Map V) : Call V → Answer V × Map V
  | .add malloc key value =>
    if (m key).isSome then (.code (-1),m)
    else if malloc then (.code 0,Function.update m key (some value))
    else (.code (-2),m)
  | .remove key => (.value (m key),Function.update m key none)
  | .removeAll => (.code 0,fun _ => none)
  | .lookup key => (.value (m key),m)

/- Every node in the bucket of its key, every bucket strictly increasing, and the nodes counted. -/
structure Laid (table : Dictionary V) : Prop where
  size : table.node.length = hashLen
  placed : ∀ b, ∀ x ∈ bucketOf table b, dictBucket x.1 = b
  increasing : ∀ b, (bucketOf table b).Pairwise fun x y => strLess x.1 y.1 = true
  counted : table.length = BitVec.ofNat 32 (entries table).length

theorem strLessLinear : Linear strLess := by
  refine ⟨fun a => ?_,fun a => ?_,fun a => ?_⟩
  · induction a with
    | nil => rfl
    | cons x as ih => rw [strLess, if_pos rfl, ih]
  · induction a with
    | nil =>
      intro b c first second
      cases c with
      | nil => cases b <;> cases second
      | cons => rfl
    | cons x as ih =>
      intro b c first second
      cases b with
      | nil => cases first
      | cons y bs =>
        cases c with
        | nil => cases second
        | cons z cs =>
          simp only [strLess] at first second ⊢
          by_cases xy : x = y
          · subst xy
            by_cases xz : x = z
            · rw [if_pos xz] at second ⊢
              rw [if_pos rfl] at first
              exact ih bs cs first second
            · rw [if_neg xz] at second ⊢
              exact second
          · rw [if_neg xy] at first
            have low := of_decide_eq_true first
            by_cases yz : y = z
            · subst yz
              rw [if_neg xy]
              exact first
            · rw [if_neg yz] at second
              have high := of_decide_eq_true second
              have apart : x ≠ z := fun same => by
                subst same
                omega
              rw [if_neg apart]
              exact decide_eq_true (Nat.lt_trans low high)
  · induction a with
    | nil =>
      intro b apart
      cases b with
      | nil => exact absurd rfl apart
      | cons => exact .inl rfl
    | cons x as ih =>
      intro b apart
      cases b with
      | nil => exact .inr rfl
      | cons y bs =>
        simp only [strLess]
        by_cases same : x = y
        · subst same
          rw [if_pos rfl, if_pos rfl]
          exact ih bs fun tails => apart (by rw [tails])
        · rw [if_neg same, if_neg (Ne.symm same)]
          have differ : x.toNat ≠ y.toNat := fun eq => same (BitVec.eq_of_toNat_eq eq)
          rcases Nat.lt_or_gt_of_ne differ with less | more
          · exact .inl (decide_eq_true less)
          · exact .inr (decide_eq_true more)

theorem insertNodeEq (key : Key) (value : V) (chain : List (Key × V)) :
    insertNode key value chain = SortedBuckets.insert strLess key value chain := by
  induction chain with
  | nil => rfl
  | cons x rest ih =>
    obtain ⟨k,v⟩ := x
    rw [insertNode, SortedBuckets.insert, ih]

theorem removeNodeEq (key : Key) (chain : List (Key × V)) : removeNode key chain = SortedBuckets.erase key chain := by
  induction chain with
  | nil => rfl
  | cons x rest ih =>
    obtain ⟨k,v⟩ := x
    simp only [removeNode,SortedBuckets.erase,ih,beq_iff_eq]

theorem dictBucketBound (key : Key) : dictBucket key < hashLen := Nat.mod_lt _ (by decide)

theorem Laid.bucketed {table : Dictionary V} (laid : Laid table) : Bucketed strLess dictBucket table.node :=
  ⟨laid.increasing,laid.placed,fun key => laid.size ▸ dictBucketBound key⟩

theorem laidOf {table : Dictionary V} (good : Bucketed strLess dictBucket table.node) (size : table.node.length = hashLen)
    (counted : table.length = BitVec.ofNat 32 (entries table).length) : Laid table :=
  ⟨size,good.placed,good.ordered,counted⟩

theorem bucketOfZeroed (b : Nat) : bucketOf (zeroed : Dictionary V) b = [] := by
  rw [bucketOf, zeroed]
  simp only [List.getD_eq_getElem?_getD,List.getElem?_replicate]
  split <;> rfl

theorem laidZeroed : Laid (zeroed : Dictionary V) := by
  refine ⟨List.length_replicate,fun b x member => ?_,fun b => ?_,?_⟩
  · rw [bucketOfZeroed] at member
    cases member
  · rw [bucketOfZeroed]
    exact .nil
  · rfl

theorem dictLookupZeroed (key : Key) : dictLookup (zeroed : Dictionary V) key = none := by
  rw [dictLookup, bucketOfZeroed, List.lookup_nil]

def Represents (table : Dictionary V) (m : Map V) : Prop := Laid table ∧ dictLookup table = m

section
variable {table : Dictionary V} {m : Map V}

theorem addFresh (laid : Laid table) {key : Key} (absent : dictLookup table key = none) (value : V) :
    (dictAdd true table key value).1 = 0 ∧
      Represents (dictAdd true table key value).2 (Function.update (dictLookup table) key (some value)) := by
  obtain ⟨good,here,others,count⟩ := SortedBuckets.insertTable strLessLinear laid.bucketed absent value
  have body : dictAdd true table key value = (0,⟨table.length + 1,
      table.node.set (dictBucket key) (SortedBuckets.insert strLess key value (table.node.getD (dictBucket key) []))⟩) := by
    rw [dictAdd, absent, Option.isSome_none, if_neg (by simp), if_pos rfl, insertNodeEq, bucketOf]
  rw [body]
  refine ⟨rfl,laidOf good ?_ ?_,funext fun other => ?_⟩
  · rw [List.length_set, laid.size]
  · rw [entries, count, laid.counted, entries, BitVec.ofNat_add]
    rfl
  · by_cases same : other = key
    · subst same
      rw [Function.update_self]
      exact here
    · rw [Function.update_of_ne same]
      exact others other same

theorem removeFound (laid : Laid table) {key : Key} {value : V} (found : dictLookup table key = some value) :
    (dictRemove table key).1 = some value ∧
      Represents (dictRemove table key).2 (Function.update (dictLookup table) key none) := by
  obtain ⟨good,here,others,count⟩ := SortedBuckets.eraseTable strLessLinear laid.bucketed found
  have body : dictRemove table key = (some value,⟨table.length - 1,
      table.node.set (dictBucket key) (SortedBuckets.erase key (table.node.getD (dictBucket key) []))⟩) := by
    simp only [dictRemove,found,removeNodeEq,bucketOf]
  rw [body]
  refine ⟨rfl,laidOf good ?_ ?_,funext fun other => ?_⟩
  · rw [List.length_set, laid.size]
  · rw [entries, laid.counted, entries, ← count, BitVec.ofNat_add]
    exact BitVec.add_sub_cancel _ _
  · by_cases same : other = key
    · subst same
      rw [Function.update_self]
      exact here
    · rw [Function.update_of_ne same]
      exact others other same

theorem removeAllEmpties (laid : Laid table) : (dictRemoveAll table).2.2 = zeroed := by
  rw [dictRemoveAll, zeroed, List.map_const', laid.size]

theorem callRefines (is : Represents table m) (c : Call V) :
    (call table c).1 = (m.call c).1 ∧ Represents (call table c).2 (m.call c).2 := by
  obtain ⟨laid,rfl⟩ := is
  cases c with
  | add malloc key value =>
    simp only [call,Map.call]
    cases found : dictLookup table key with
    | some old =>
      rw [dictAdd, found, Option.isSome_some, if_pos rfl, if_pos rfl]
      exact ⟨rfl,laid,rfl⟩
    | none =>
      rw [Option.isSome_none, if_neg (by simp)]
      cases malloc with
      | false =>
        rw [dictAdd, found, Option.isSome_none, if_neg (by simp), if_neg (by simp), if_neg (by simp)]
        exact ⟨rfl,laid,rfl⟩
      | true =>
        obtain ⟨ok,kept⟩ := addFresh laid found value
        rw [if_pos rfl, ok]
        exact ⟨rfl,kept⟩
  | remove key =>
    simp only [call,Map.call]
    cases found : dictLookup table key with
    | none =>
      have idle : dictRemove table key = (none,table) := by simp only [dictRemove,found]
      rw [idle, ← found, Function.update_eq_self]
      exact ⟨rfl,laid,rfl⟩
    | some value =>
      obtain ⟨gone,kept⟩ := removeFound laid found
      rw [gone]
      exact ⟨rfl,kept⟩
  | removeAll =>
    simp only [call,Map.call]
    rw [removeAllEmpties laid]
    exact ⟨rfl,laidZeroed,funext dictLookupZeroed⟩
  | lookup key => exact ⟨rfl,laid,rfl⟩

theorem representsCard (is : Represents table m) : (entries table).length = {key | m key ≠ none}.ncard := by
  obtain ⟨laid,rfl⟩ := is
  exact (SortedBuckets.flattenCard strLessLinear laid.bucketed).symm

theorem representsUnique {other : Dictionary V} (first : Represents table m) (second : Represents other m) :
    table = other := by
  have nodes : table.node = other.node :=
    SortedBuckets.tableEq strLessLinear first.1.bucketed second.1.bucketed
      (first.1.size.trans second.1.size.symm) (congrFun (first.2.trans second.2.symm))
  have lengths : table.length = other.length := by
    rw [first.1.counted, second.1.counted, entries, entries, nodes]
  cases table
  cases other
  simp only at nodes lengths
  rw [nodes, lengths]

end

theorem historyRefines (calls : List (Call V)) :
    (answers call zeroed calls).1 = (answers Map.call (fun _ => none) calls).1 ∧
      Represents (answers call zeroed calls).2 (answers Map.call (fun _ => none) calls).2 :=
  answersSimulate (fun _ _ c is => callRefines is c) ⟨laidZeroed,funext dictLookupZeroed⟩ calls

def numberKey (i : Nat) : Key := (Nat.digits 255 i).map fun d => BitVec.ofNat 8 (d + 1)

theorem numberKeyInjective : Function.Injective numberKey := by
  have back : ∀ i, (numberKey i).map (fun b => b.toNat - 1) = Nat.digits 255 i := by
    intro i
    rw [numberKey, List.map_map]
    refine (List.map_congr_left fun d member => ?_).trans (List.map_id _)
    have small : d < 255 := Nat.digits_lt_base (by decide) member
    simp only [Function.comp_apply,BitVec.toNat_ofNat,id_eq]
    omega
  intro i j same
  have digits := back i
  rw [same, back j] at digits
  exact (Nat.digits_inj_iff.mp digits).symm

theorem numberKeyClean (i : Nat) : 0 ∉ numberKey i := by
  intro member
  obtain ⟨d,inside,zero⟩ := List.mem_map.mp member
  have small : d < 255 := Nat.digits_lt_base (by decide) inside
  have value := congrArg BitVec.toNat zero
  rw [BitVec.toNat_ofNat] at value
  simp at value
  omega

def numbered (value : V) (n : Nat) : List (Call V) := (List.range n).map fun i => .add true (numberKey i) value

theorem numberedMap (value : V) (n : Nat) (key : Key) :
    (answers Map.call (fun _ => none) (numbered value n)).2 key = if ∃ i, i < n ∧ numberKey i = key then some value
      else none := by
  induction n generalizing key with
  | zero => simp [numbered,answers]
  | succ n ih =>
    have before : ∀ key, (answers Map.call (fun _ => none) ((List.range n).map fun i => .add true (numberKey i) value)).2
        key = if ∃ i, i < n ∧ numberKey i = key then some value else none := ih
    rw [numbered, List.range_succ, List.map_append, answersAppend]
    generalize (answers Map.call (fun _ => none) ((List.range n).map fun i => .add true (numberKey i) value)).2 = m at before
    have absent : m (numberKey n) = none := by
      rw [before, if_neg]
      rintro ⟨i,below,same⟩
      have := numberKeyInjective same
      omega
    have body : (answers Map.call m [.add true (numberKey n) value]).2 =
        Function.update m (numberKey n) (some value) := by
      simp only [answers,Map.call,absent,Option.isSome_none,Bool.false_eq_true,if_false,if_true]
    simp only [List.map_cons,List.map_nil]
    rw [body]
    by_cases same : key = numberKey n
    · subst same
      rw [Function.update_self, if_pos ⟨n,by omega,rfl⟩]
    · rw [Function.update_of_ne same, before]
      refine if_congr ⟨?_,?_⟩ rfl rfl
      · rintro ⟨i,below,is⟩
        exact ⟨i,by omega,is⟩
      · rintro ⟨i,below,is⟩
        rcases Nat.lt_succ_iff_lt_or_eq.mp below with less | last
        · exact ⟨i,less,is⟩
        · subst last
          exact absurd is.symm same

theorem numberedCount (value : V) (n : Nat) : (entries (answers call zeroed (numbered value n)).2).length = n := by
  rw [representsCard (historyRefines (numbered value n)).2]
  have keys : {key | (answers Map.call (fun _ => none) (numbered value n)).2 key ≠ none} =
      numberKey '' (Finset.range n : Set Nat) := by
    ext key
    simp only [Set.mem_ofPred_eq,numberedMap,Set.mem_image,Finset.coe_range,Set.mem_Iio]
    by_cases there : ∃ i, i < n ∧ numberKey i = key
    · simp [there]
    · simp [there]
  rw [keys, Set.ncard_image_of_injective _ numberKeyInjective, Set.ncard_coe_finset, Finset.card_range]

/- For every sequence of calls on a zeroed dictionary. -/
theorem dictionaryIsMap (calls : List (Call V)) :
    let after := (answers call zeroed calls).2
    let m := (answers Map.call (fun _ => none) calls).2
    (answers call zeroed calls).1 = (answers Map.call (fun _ => none) calls).1 ∧
      (∀ key, dictLookup after key = m key) ∧ (∀ b, ∀ x ∈ bucketOf after b, dictBucket x.1 = b) ∧
      (∀ b, (bucketOf after b).Pairwise fun x y => strLess x.1 y.1 = true) ∧
      (entries after).length = {key | m key ≠ none}.ncard ∧
      after.length = BitVec.ofNat 32 {key | m key ≠ none}.ncard := by
  obtain ⟨same,is⟩ := historyRefines calls
  have card := representsCard is
  refine ⟨same,congrFun is.2,is.1.placed,is.1.increasing,card,?_⟩
  rw [is.1.counted, card]

/- Without memory for the node an absent key is not added, and 2^32 entries are counted as none. -/
theorem dictionaryNotMap :
    (dictLookup (zeroed : Dictionary Unit) [97] = none ∧ dictAdd false (zeroed : Dictionary Unit) [97] () = (-2,zeroed)) ∧
      ∃ calls : List (Call Unit), (∀ c ∈ calls, ∃ key, c = .add true key () ∧ 0 ∉ key) ∧
        (answers call zeroed calls).2.length.toNat ≠ (entries (answers call zeroed calls).2).length := by
  refine ⟨⟨rfl,rfl⟩,numbered () (2 ^ 32),fun c member => ?_,?_⟩
  · obtain ⟨i,-,rfl⟩ := List.mem_map.mp member
    exact ⟨numberKey i,rfl,numberKeyClean i⟩
  · rw [(historyRefines _).2.1.counted, numberedCount]
    decide

/- Two histories that end in one map: the same dictionary, and so the same encoding. -/
theorem dictionaryCanonical (first second : List (Call Xdr.Val))
    (same : ∀ key, dictLookup (answers call zeroed first).2 key = dictLookup (answers call zeroed second).2 key)
    (enc : Xdr.Encoder) (dst : Xdr.Dst) (used max : Nat) (len : Option (BitVec 32)) (buf : List Byte) :
    Xdr.dictionaryEncoder enc (.dict (answers call zeroed first).2) dst used max len buf =
      Xdr.dictionaryEncoder enc (.dict (answers call zeroed second).2) dst used max len buf := by
  have left : Represents (answers call zeroed first).2 (dictLookup (answers call zeroed second).2) :=
    ⟨(historyRefines first).2.1,funext same⟩
  rw [representsUnique left ⟨(historyRefines second).2.1,rfl⟩]

theorem canonicalTwoOrders :
    ∃ first second : List (Call Xdr.Val), (∀ key,
        dictLookup (answers call zeroed first).2 key = dictLookup (answers call zeroed second).2 key) ∧
      first.length = 2 ∧ second.length = 4 ∧
      Xdr.dictionaryEncoder Xdr.encodeUint32 (.dict (answers call zeroed first).2) (.at 0) 0 28 none (List.replicate 28 0) =
        Xdr.dictionaryEncoder Xdr.encodeUint32 (.dict (answers call zeroed second).2) (.at 0) 0 28 none
          (List.replicate 28 0) := by
  have same : ∀ key, dictLookup (answers call zeroed
      [.add true [97] (Xdr.Val.word 1),.add true [98] (.word 2)]).2 key = dictLookup (answers call zeroed
      [.add true [98] (.word 3),.remove [98],.add true [98] (.word 2),.add true [97] (.word 1)]).2 key := by
    intro key
    rw [(historyRefines _).2.2, (historyRefines _).2.2]
    by_cases a : key = [97#8]
    · subst a
      simp [answers,Map.call,Function.update]
    · by_cases b : key = [98#8]
      · subst b
        simp [answers,Map.call,Function.update]
      · simp [answers,Map.call,Function.update,a,b]
  exact ⟨_,_,same,rfl,rfl,dictionaryCanonical _ _ same _ _ _ _ _ _⟩

end LibProc.XdrDict
