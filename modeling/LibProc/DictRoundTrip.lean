import LibProc.Dictionaries
import LibProc.XdrRoundTrip

/-! Dictionaries of scalars and unions read back. The encoder walks the buckets, the
decoder adds the entries in the order they come; that the two end in one dictionary is
the finite map of `Dictionaries`. Every allocation of the decoder succeeds here, and the
entries are fewer than the uint32_t on the wire can count. -/
namespace LibProc.Xdr
open XdrBytes XdrDict Runs

/- Strings shorter than 2^31 bytes; the allocator refuses a type without a size. -/
def entryRules : Rules where
  field _ _ _ _ := True
  string n := n < 2 ^ 31
  definition d := d.inMemorySize ≠ 0
  nullObject := False
  nullBytes := False

def Trips (env : Env) (fuel : Nat) (d : StructDefinition) (v : Val) (e : List Byte) : Prop :=
  Encodes (enterEncoder env fuel d) v none e ∧
    Decodes (enterDecoder env fuel d) (.struct (zerosOf d.fields)) none e v

def fixedEntry : Entry → Bool
  | .scalar _ => true
  | .union => true
  | _ => false

abbrev EntryTrips (env : Env) (fuel : Nat) (entry : Entry) : Val → List Byte → Prop :=
  entryWire env entryRules (Trips env fuel) entry

section Encoding

theorem decodeUint32AsEncoderEncodes (w : BitVec 32) (len : Option (BitVec 32)) :
    Encodes decodeUint32AsEncoder (.word w) len (beBytes w) := by
  intro pos used max buf fits room
  rw [beBytesLength] at fits room ⊢
  simp only [decodeUint32AsEncoder]
  rw [if_neg (by omega), putAt (by rw [beBytesLength]; omega)]
  rfl

theorem entryEncodes {env : Env} {fuel : Nat} {entry : Entry} (fixed : fixedEntry entry = true) {v : Val} {e : List Byte}
    (wire : EntryTrips env fuel entry v e) : Encodes (encodeEntry env (enterEncoder env fuel) entry) v none e := by
  cases entry with
  | scalar s =>
    cases s with
    | uint32 =>
      cases wire with
      | uint32 w => exact decodeUint32AsEncoderEncodes w none
    | int32 => exact scalarEncodes wire none
    | int64 => exact scalarEncodes wire none
    | uint64 => exact scalarEncodes wire none
    | float => exact scalarEncodes wire none
    | double => exact scalarEncodes wire none
  | union => exact unionEncodes (fun d v e _ trips => trips.1) wire none
  | stringArr => cases fixed
  | byteArr => cases fixed

theorem keyShort {n : Nat} (short : n < 2 ^ 31) : n + pad n < 2 ^ 32 := by
  have small := padSmall n
  omega

theorem keyEncodes {key : Key} {e : List Byte} (wire : StringWire entryRules (.chars key) e) :
    Encodes encodeKey (.chars key) none e :=
  fun pos used max buf fits room => stringValueEncodes (fun _ short => keyShort short) wire none pos used max buf fits room

theorem dictionaryEncodeOneAt {enc : Encoder} {v : Val} {e : List Byte} (encodes : Encodes enc v none e)
    {encLen pos max : Nat} {buf : List Byte} (fits : e.length ≤ max) (room : pos + e.length ≤ buf.length) :
    dictionaryEncodeOne enc ⟨encLen,.at pos,max,0,buf⟩ v =
      .ok ⟨encLen + e.length,.at (pos + e.length),max - e.length,0,splice buf pos e⟩ := by
  have left : sizeSub max e.length = max - e.length := if_pos fits
  simp only [dictionaryEncodeOne]
  rw [if_pos (by simp), encodes pos 0 max buf fits room]
  simp only [Except.bind,bind,DictionaryParams.take,lt_self_iff_false,if_false,Dst.advance,left]

theorem nodesEncode {enc : Encoder} {wire : Val → List Byte → Prop} (encodes : ∀ v e, wire v e → Encodes enc v none e)
    {nodes : List (Key × Val)} {es : List (List Byte)} (each : List.Forall₂ (NodeWire entryRules wire) nodes es)
    {encLen pos max : Nat} {buf : List Byte} (fits : es.flatten.length ≤ max)
    (room : pos + es.flatten.length ≤ buf.length) :
    nodes.foldlM (dictionaryEncoderItr enc) ⟨encLen,.at pos,max,0,buf⟩ =
      .ok ⟨encLen + es.flatten.length,.at (pos + es.flatten.length),max - es.flatten.length,0,splice buf pos es.flatten⟩ := by
  induction each generalizing encLen pos max buf with
  | nil =>
    simp only [List.foldlM_nil,List.flatten_nil,List.length_nil,Nat.add_zero,Nat.sub_zero]
    rw [spliceNil]
    rfl
  | @cons node e nodes es first rest ih =>
    obtain ⟨key,value,keyed,valued,rfl⟩ := first
    simp only [List.flatten_cons,List.length_append] at fits room ⊢
    have length1 : (splice buf pos key).length = buf.length := spliceLength (by omega)
    have length2 : (splice (splice buf pos key) (pos + key.length) value).length = buf.length := by
      rw [spliceLength (by omega), length1]
    rw [List.foldlM_cons]
    simp only [dictionaryEncoderItr]
    rw [dictionaryEncodeOneAt (keyEncodes keyed) (by omega) (by omega)]
    simp only [Except.bind,bind]
    rw [dictionaryEncodeOneAt (encodes _ _ valued) (by omega) (by omega)]
    have more : List.foldlM (dictionaryEncoderItr enc) _ nodes = _ :=
      @ih (encLen + key.length + value.length) (pos + key.length + value.length) (max - key.length - value.length)
        (splice (splice buf pos key) (pos + key.length) value) (by omega) (by omega)
    simp only
    rw [more, spliceAppend (by omega), spliceAppend (by omega), ← List.append_assoc]
    simp only [Except.ok.injEq,DictionaryParams.mk.injEq,Dst.at.injEq,and_true]
    omega

theorem dictionaryEncodes {enc : Encoder} {wire : Val → List Byte → Prop}
    (encodes : ∀ v e, wire v e → Encodes enc v none e) {v : Val} {e : List Byte} (dict : DictWire entryRules wire v e)
    (len : Option (BitVec 32)) : Encodes (dictionaryEncoder enc) v len e := by
  obtain ⟨table,es,counted,each⟩ := dict
  intro pos used max buf fits room
  rw [List.length_append, beBytesLength] at fits room ⊢
  have left : sizeSub max 4 = max - 4 := if_pos (by omega)
  have length1 : (splice buf pos (beBytes table.length)).length = buf.length :=
    spliceLength (by rw [beBytesLength]; omega)
  have both := spliceAppend (b := es.flatten) (show pos + (beBytes table.length).length ≤ buf.length by
    rw [beBytesLength]; omega)
  rw [beBytesLength] at both
  simp only [dictionaryEncoder]
  rw [encodeWordAt (by omega) (by omega)]
  simp only [Except.bind,bind,DictionaryParams.take,lt_self_iff_false,if_false,Dst.advance,left,Nat.zero_add]
  rw [nodesEncode encodes each (by omega) (by omega)]
  simp only
  rw [both]

end Encoding

def addNodes (table : Dictionary Val) (nodes : List (Key × Val)) : Dictionary Val :=
  nodes.foldl (fun table node => (dictAdd true table node.1 node.2).2) table

theorem addNodesMap {table : Dictionary Val} (laid : Laid table) {nodes : List (Key × Val)}
    (distinct : (nodes.map Prod.fst).Nodup) (fresh : ∀ node ∈ nodes, dictLookup table node.1 = none) :
    Laid (addNodes table nodes) ∧
      ∀ key, dictLookup (addNodes table nodes) key = (nodes.lookup key).or (dictLookup table key) := by
  induction nodes generalizing table with
  | nil => exact ⟨laid,fun key => rfl⟩
  | cons node rest ih =>
    obtain ⟨name,value⟩ := node
    rw [List.map_cons, List.nodup_cons] at distinct
    have absent : dictLookup table name = none := fresh (name,value) List.mem_cons_self
    obtain ⟨-,kept,now⟩ := addFresh laid absent value
    have apart : ∀ node ∈ rest, dictLookup (dictAdd true table name value).2 node.1 = none := by
      intro node member
      have other : node.1 ≠ name := fun same => distinct.1 (List.mem_map.mpr ⟨node,member,same⟩)
      rw [now, Function.update_of_ne other]
      exact fresh node (List.mem_cons_of_mem _ member)
    obtain ⟨laidAfter,after⟩ := ih kept distinct.2 apart
    refine ⟨laidAfter,fun key => ?_⟩
    have here := after key
    rw [now] at here
    refine here.trans ?_
    rw [List.lookup_cons]
    by_cases same : key = name
    · subst same
      have nowhere : rest.lookup key = none := SortedBuckets.lookupAbsent.mpr fun node member is =>
        distinct.1 (List.mem_map.mpr ⟨node,member,is⟩)
      rw [nowhere, Function.update_self, beq_self_eq_true]
      rfl
    · rw [Function.update_of_ne same, beq_eq_false_iff_ne.mpr same]

theorem entriesLookup {table : Dictionary Val} (laid : Laid table) (key : Key) :
    (entries table).lookup key = dictLookup table key := by
  refine Option.ext fun value => ?_
  rw [entries, SortedBuckets.lookupMem (SortedBuckets.keysNodup strLessLinear laid.bucketed)]
  exact SortedBuckets.memFlatten strLessLinear laid.bucketed

section Decoding
variable {env : Env} (allocates : ∀ p, env.alloc p = true)
include allocates

theorem entryDecodes {fuel : Nat} {entry : Entry} (fixed : fixedEntry entry = true) {v : Val} {e : List Byte}
    (wire : EntryTrips env fuel entry v e) :
    Decodes (decodeEntry env (enterDecoder env fuel) entry) (entryZero entry) none e v := by
  cases entry with
  | scalar s => exact ⟨v,.refl v,scalarReads wire _ none⟩
  | union =>
    exact unionDecodes allocates (fun _ (sized : entryRules.definition _) => sized) (fun d v e _ trips => trips.2)
      wire (zeroFits .union) none
  | stringArr => cases fixed
  | byteArr => cases fixed

theorem nodesDecode {dec : Decoder} (sized : Bool) {zero : Val} {wire : Val → List Byte → Prop}
    (decodes : ∀ v e, wire v e → Decodes dec zero none e v) {nodes : List (Key × Val)} {es : List (List Byte)}
    (each : List.Forall₂ (NodeWire entryRules wire) nodes es) :
    ∃ nodes', List.Forall₂ (fun a b : Key × Val => a.1 = b.1 ∧ Equal a.2 b.2) nodes nodes' ∧
      ∀ src rest max path table decLen i, src.drop decLen = es.flatten ++ rest → decLen + es.flatten.length ≤ max →
        dictionaryDecodeLoop env dec sized zero src max path nodes.length table decLen i =
          .ok (0,decLen + es.flatten.length,addNodes table nodes') := by
  induction each with
  | nil => exact ⟨[],.nil,fun src rest max path table decLen i here fits => rfl⟩
  | @cons node e nodes es first more ih =>
    obtain ⟨key,value,keyed,valued,rfl⟩ := first
    obtain ⟨v,same,reads⟩ := decodes _ _ valued
    obtain ⟨nodes',equal,loop⟩ := ih
    refine ⟨(node.1,v) :: nodes',.cons ⟨rfl,same⟩ equal,?_⟩
    intro src rest max path table decLen i here fits
    cases keyed with
    | chars _ clean short =>
      simp only [List.flatten_cons,List.length_append,List.append_assoc] at here fits ⊢
      generalize stringBytes : stringWire node.1 = key at here fits ⊢
      have left : sizeSub max decLen = max - decLen := if_pos (by omega)
      have left' : sizeSub max (decLen + key.length) = max - (decLen + key.length) := if_pos (by omega)
      have atValue : src.drop (decLen + key.length) = value ++ (es.flatten ++ rest) := by
        rw [← List.drop_drop, here, List.drop_left]
      have atNext : src.drop (decLen + key.length + value.length) = es.flatten ++ rest := by
        rw [← List.drop_drop, atValue, List.drop_left]
      have keyReads : Reads (decodeStringArray env) .null none key (.chars node.1) :=
        stringBytes ▸ stringReads allocates (keyShort short) .null none
      simp only [List.length_cons,dictionaryDecodeLoop]
      rw [here, left, keyReads _ _ _ _ (by omega)]
      simp only [Except.bind,bind,allocates]
      rw [if_neg (by omega), if_neg (by simp), atValue, left', reads _ _ _ _ (by omega)]
      simp only
      rw [if_neg (by omega), loop src rest max path _ _ _ atNext (by omega), strlenClean clean]
      simp only [addNodes,List.foldl_cons,Except.ok.injEq,Prod.mk.injEq,and_true,true_and]
      omega

omit allocates in
theorem lookupEqual {nodes nodes' : List (Key × Val)}
    (same : List.Forall₂ (fun a b : Key × Val => a.1 = b.1 ∧ Equal a.2 b.2) nodes nodes') (key : Key) :
    Option.Rel Equal (nodes.lookup key) (nodes'.lookup key) := by
  induction same with
  | nil => exact .none
  | @cons a b nodes nodes' first rest ih =>
    obtain ⟨name,value⟩ := a
    obtain ⟨name',value'⟩ := b
    obtain ⟨rfl,equal⟩ := first
    rw [List.lookup_cons, List.lookup_cons]
    cases key == name with
    | true => exact .some equal
    | false => exact ih

theorem dictionaryReads {dec : Decoder} (sized : Bool) {zero : Val} {wire : Val → List Byte → Prop}
    (decodes : ∀ v e, wire v e → Decodes dec zero none e v) {table : Dictionary Val} (laid : Laid table)
    (few : (entries table).length < 2 ^ 32) {e : List Byte} (dict : DictWire entryRules wire (.dict table) e)
    (len : Option (BitVec 32)) :
    ∃ table', Laid table' ∧ (∀ key, Option.Rel Equal (dictLookup table key) (dictLookup table' key)) ∧
      Reads (dictionaryDecoder env dec sized zero) (.dict zeroed) len e (.dict table') := by
  obtain ⟨_,es,counted,each⟩ := dict
  obtain ⟨nodes',equal,loop⟩ := nodesDecode allocates sized decodes each
  have keys : (entries table).map Prod.fst = nodes'.map Prod.fst := by
    clear counted each loop
    generalize entries table = nodes at equal
    induction equal with
    | nil => rfl
    | cons first _ ih => rw [List.map_cons, List.map_cons, first.1, ih]
  have distinct : (nodes'.map Prod.fst).Nodup := keys ▸ SortedBuckets.keysNodup strLessLinear laid.bucketed
  obtain ⟨laid',map'⟩ := addNodesMap laidZeroed distinct fun node _ => dictLookupZeroed node.1
  refine ⟨addNodes zeroed nodes',laid',fun key => ?_,?_⟩
  · rw [map' key, dictLookupZeroed, Option.or_none, ← entriesLookup laid]
    exact lookupEqual equal key
  · intro rest inc max path fits
    rw [List.length_append, beBytesLength] at fits ⊢
    have skip : (beBytes table.length ++ es.flatten ++ rest).drop 4 = es.flatten ++ rest := rfl
    have size : table.length.toNat = (entries table).length := by
      rw [counted, BitVec.toNat_ofNat, Nat.mod_eq_of_lt few]
    have read := loop (beBytes table.length ++ es.flatten ++ rest) rest max path zeroed 4 0 skip fits
    simp only [dictionaryDecoder]
    rw [List.append_assoc, decodeWordReads (by omega), ← List.append_assoc]
    simp only [Except.bind,bind]
    rw [size, read]
    simp only [lt_self_iff_false,if_false]

end Decoding

def Typed (env : Env) (fuel : Nat) (entry : Entry) (table : Dictionary Val) : Prop :=
  ∀ key value, dictLookup table key = some value →
    0 ∉ key ∧ key.length < 2 ^ 31 ∧ ∃ e, EntryTrips env fuel entry value e

/- The encoding of a dictionary of typed values, and what the two tables do with it: into
any buffer with room for it, and from exactly its bytes into an empty dictionary. -/
def DictionaryTrips (env : Env) (fuel : Nat) (entry : Entry) (table : Dictionary Val) : Prop :=
  ∃ e, DictWire entryRules (EntryTrips env fuel entry) (.dict table) e ∧
    (∀ pos max used len buf, e.length ≤ max → pos + e.length ≤ buf.length →
      encoderOf env (enterEncoder env fuel) (.dict entry) (.dict table) (.at pos) used max len buf =
        .ok ⟨0,e.length,splice buf pos e⟩) ∧
    ∀ inc len path, ∃ table', (∀ key, Option.Rel Equal (dictLookup table key) (dictLookup table' key)) ∧
      decoderOf env (enterDecoder env fuel) (.dict entry) e (.dict zeroed) inc e.length len path =
        .ok ⟨0,e.length,.dict table'⟩

theorem nodesWired {wire : Val → List Byte → Prop} {nodes : List (Key × Val)}
    (each : ∀ node ∈ nodes, 0 ∉ node.1 ∧ node.1.length < 2 ^ 31 ∧ ∃ e, wire node.2 e) :
    ∃ es, List.Forall₂ (NodeWire entryRules wire) nodes es := by
  induction nodes with
  | nil => exact ⟨[],.nil⟩
  | cons node rest ih =>
    obtain ⟨es,tail⟩ := ih fun other member => each other (List.mem_cons_of_mem _ member)
    obtain ⟨clean,short,e,value⟩ := each node List.mem_cons_self
    exact ⟨_,.cons ⟨_,e,.chars node.1 clean short,value,rfl⟩ tail⟩

/- Dictionaries of scalars and unions round-trip. -/
theorem dictionaryRoundTrips {env : Env} (allocates : ∀ p, env.alloc p = true) (fuel : Nat) {entry : Entry}
    (fixed : fixedEntry entry = true) (calls : List (Call Val))
    (few : (entries (answers call zeroed calls).2).length < 2 ^ 32)
    (typed : Typed env fuel entry (answers call zeroed calls).2) :
    DictionaryTrips env fuel entry (answers call zeroed calls).2 := by
  have laid := (historyRefines calls).2.1
  generalize (answers call zeroed calls).2 = table at few typed laid
  obtain ⟨es,each⟩ := nodesWired fun (node : Key × Val) (member : node ∈ entries table) =>
    typed node.1 node.2 ((SortedBuckets.memFlatten strLessLinear laid.bucketed).mp member)
  have dict : DictWire entryRules (EntryTrips env fuel entry) (.dict table) _ := .dict table es laid.counted each
  refine ⟨_,dict,fun pos max used len buf fits room => ?_,fun inc len path => ?_⟩
  · exact dictionaryEncodes (fun _ _ wire => entryEncodes fixed wire) dict len pos used max buf fits room
  · obtain ⟨table',-,same,reads⟩ := dictionaryReads allocates (entrySized entry)
      (fun _ _ wire => entryDecodes allocates fixed wire) laid few dict len
    have read := reads [] inc _ path le_rfl
    rw [List.append_nil] at read
    exact ⟨table',same,read⟩

theorem typedOne {env : Env} {fuel : Nat} {entry : Entry} {key : Key} {value : Val} {e : List Byte}
    (clean : 0 ∉ key) (short : key.length < 2 ^ 31) (wire : EntryTrips env fuel entry value e) :
    Typed env fuel entry (answers call zeroed [.add true key value]).2 := by
  intro name found is
  rw [(historyRefines _).2.2] at is
  have body : (answers Map.call (fun _ => none) [.add true key value]).2 =
      Function.update (fun _ => none) key (some value) := by
    simp only [answers,Map.call,Option.isSome_none,Bool.false_eq_true,if_false,if_true]
  rw [body] at is
  by_cases same : name = key
  · subst same
    rw [Function.update_self] at is
    rw [← Option.some.inj is]
    exact ⟨clean,short,e,wire⟩
  · rw [Function.update_of_ne same] at is
    cases is

theorem unionDictionaryRoundTrips :
    DictionaryTrips sampleEnv 1 .union (answers call zeroed [.add true [97] (.union 7 (.struct [.word 9]))]).2 := by
  have inner : objectWire sampleEnv plainRules 1 ⟨4,.struct,.cons (.scalar .uint32) 0 0 .nil⟩ (.struct [.word 9])
      (beBytes 9 ++ []) :=
    .inl ⟨_,rfl,_,_,_,_,rfl,rfl,⟨rfl,by simp [hasLength]⟩,.uint32 9,rfl,rfl⟩
  have trips : EntryTrips sampleEnv 1 .union (.union 7 (.struct [.word 9])) (beBytes 7 ++ (beBytes 9 ++ [])) :=
    .union 7 _ _ _ rfl (show 4 ≠ 0 by decide) ⟨objectEncodes le_rfl ⟨by decide,rfl⟩ inner,
      objectDecodes (fun _ => rfl) le_rfl ⟨by decide,rfl⟩ inner⟩
  exact dictionaryRoundTrips (fun _ => rfl) 1 rfl _ (by decide) (typedOne (by decide) (by decide) trips)

theorem wrappedDictionaryIsLost {env : Env} {fuel : Nat} {entry : Entry} {table : Dictionary Val}
    (wraps : (entries table).length % 2 ^ 32 = 0) {key : Key} {value : Val} (there : dictLookup table key = some value) :
    ¬ DictionaryTrips env fuel entry table := by
  rintro ⟨e,⟨_,es,counted,each⟩,-,decodes⟩
  obtain ⟨table',same,read⟩ := decodes 0 none []
  have none : table.length = 0 := by
    rw [counted]
    apply BitVec.eq_of_toNat_eq
    rw [BitVec.toNat_ofNat, wraps]
    rfl
  rw [none] at read
  simp only [decoderOf,dictionaryDecoder] at read
  rw [decodeWordReads (by rw [List.length_append, beBytesLength]; omega)] at read
  have stops : .ok ⟨0,4,.dict zeroed⟩ = Except.ok (ε := Stop) (Decoded.mk 0 _ (.dict table')) := read
  simp only [Except.ok.injEq,Decoded.mk.injEq,Val.dict.injEq] at stops
  have lost := same key
  rw [there, ← stops.2.2, dictLookupZeroed] at lost
  cases lost

def starvedEnv : Env := {sampleEnv with alloc := fun p => p ≠ [1,0]}

/- Without memory for the value the decoder returns -3, and of 2^32 entries it reads none. -/
theorem dictionaryIsLost :
    (∃ calls : List (Call Val), Typed starvedEnv 0 (.scalar .int32) (answers call zeroed calls).2 ∧
      ¬ DictionaryTrips starvedEnv 0 (.scalar .int32) (answers call zeroed calls).2) ∧
    ∃ calls : List (Call Val), Typed sampleEnv 0 (.scalar .int32) (answers call zeroed calls).2 ∧
      ¬ DictionaryTrips sampleEnv 0 (.scalar .int32) (answers call zeroed calls).2 := by
  refine ⟨⟨[.add true [97] (.word 5)],typedOne (by decide) (by decide) (.int32 5),?_⟩,
    ⟨numbered (.word 0) (2 ^ 32),fun key value found => ?_,?_⟩⟩
  · rintro ⟨e,⟨_,es,counted,each⟩,-,decodes⟩
    obtain ⟨table',-,read⟩ := decodes 0 none []
    have nodes : entries (answers call zeroed [.add true [97] (Val.word 5)]).2 = [([97],.word 5)] := rfl
    rw [nodes] at each
    cases each with
    | cons first rest =>
      obtain ⟨key,value,keyed,valued,rfl⟩ := first
      cases keyed
      cases valued
      cases rest
      have refused : .ok ⟨-3,0,.dict zeroed⟩ = Except.ok (ε := Stop) (Decoded.mk 0 _ (.dict table')) := read
      simp at refused
  · rw [(historyRefines _).2.2, numberedMap] at found
    by_cases numbered : ∃ i, i < 2 ^ 32 ∧ numberKey i = key
    · rw [if_pos numbered] at found
      obtain ⟨i,below,rfl⟩ := numbered
      rw [← Option.some.inj found]
      refine ⟨numberKeyClean i,?_,_,.int32 0⟩
      have digits : (Nat.digits 255 i).length ≤ 5 := (Nat.digits_length_le_iff (by decide) i).mpr (by omega)
      rw [numberKey, List.length_map]
      omega
    · rw [if_neg numbered] at found
      cases found
  · have there : dictLookup (answers call zeroed (numbered (Val.word 0) (2 ^ 32))).2 (numberKey 0) = some (.word 0) := by
      rw [(historyRefines _).2.2, numberedMap, if_pos ⟨0,by decide,rfl⟩]
    refine wrappedDictionaryIsLost ?_ there
    rw [numberedCount, Nat.mod_self]

end LibProc.Xdr
