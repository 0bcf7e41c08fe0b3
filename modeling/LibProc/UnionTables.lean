import LibProc.XdrRoundTrip

/-! xdr_union_arr_functions. XDR_encode_union_array and XDR_decode_union_array carry a list of unions
of any registered types. The table names XDR_encode_union and XDR_decode_union, which take
the pointer of the field for the union itself, so no list goes through it. -/
namespace LibProc.Xdr
open XdrBytes XdrDict

def encodeUnionArray (env : Env) (enter : StructDefinition → Encoder) : Encoder := encodeArray (encodeUnion env enter)
def decodeUnionArray (env : Env) (enter : StructDefinition → Decoder) : Decoder :=
  decodeArray env (decodeUnion env enter) (uninitOf .union)

/- What XDR_encode_union finds at a field that points to an array: the low half of the pointer is the
type, and the data pointer is read behind the pointer. -/
def unionAt (env : Env) (pointer behind : Val) : Val := .union (env.address pointer) behind

structure Stretch where
  pos : Nat
  max : Nat
  buf : List Byte
  inside : pos + max ≤ buf.length

def CarriesUnions (enc : Encoder) (dec : Decoder) (us : List Val) (len : BitVec 32) (src dst : Val) (room : Stretch) : Prop :=
  ∃ r, enc src (.at room.pos) 0 room.max (some len) room.buf = .ok r ∧ 0 ≤ r.res ∧
    ∃ d us', dec (r.buf.drop room.pos) dst 0 room.max (some len) [] = .ok d ∧ 0 ≤ d.res ∧ d.inc = r.used ∧
      d.dst = .array us' ∧ List.Forall₂ Equal us us'

section
variable {env : Env} {rules : Rules} {enter : StructDefinition → Val → List Byte → Prop} {into : StructDefinition → Encoder}
  {from_ : StructDefinition → Decoder} {us : List Val} {es : List (List Byte)} {len : BitVec 32}

theorem unionsRead (allocates : ∀ p, env.alloc p = true) (sized : ∀ d, rules.definition d → d.inMemorySize ≠ 0)
    (inner : ∀ d v e, rules.definition d → enter d v e → Decodes (from_ d) (.struct (zerosOf d.fields)) none e v)
    (wires : List.Forall₂ (UnionWire env rules enter) us es) :
    ∃ us', List.Forall₂ Equal us us' ∧
      List.Forall₂ (fun u e => Reads (decodeUnion env from_) (uninitOf .union) none e u) us' es := by
  induction wires with
  | nil => exact ⟨[],.nil,.nil⟩
  | cons first rest ih =>
    obtain ⟨us',same,reads⟩ := ih
    obtain ⟨u',equal,read⟩ := unionDecodes allocates sized inner first (zeroFits .union) none
    exact ⟨u' :: us',.cons equal same,.cons read reads⟩

theorem unionArraysRoundTrip (allocates : ∀ p, env.alloc p = true) (sized : ∀ d, rules.definition d → d.inMemorySize ≠ 0)
    (encodes : ∀ d v e, rules.definition d → enter d v e → Encodes (into d) v none e)
    (decodes : ∀ d v e, rules.definition d → enter d v e → Decodes (from_ d) (.struct (zerosOf d.fields)) none e v)
    (wires : List.Forall₂ (UnionWire env rules enter) us es) (counted : len.toInt = us.length) (dst : Val) (room : Stretch)
    (wide : es.flatten.length ≤ room.max) :
    CarriesUnions (encodeUnionArray env into) (decodeUnionArray env from_) us len (.array us) dst room := by
  have inside := room.inside
  have wire : ArrayWire (UnionWire env rules enter) len.toInt (.array us) es.flatten := .array us es (by omega) wires
  have encoded := arrayEncodes (fun v e w => unionEncodes encodes w none) wire room.pos 0 room.max room.buf wide (by omega)
  obtain ⟨us',same,reads⟩ := unionsRead allocates sized decodes wires
  have loop : arrayDecodeLoop (decodeUnion env from_) (uninitOf .union) ((splice room.buf room.pos es.flatten).drop room.pos)
      room.max [] us'.length [] 0 = _ := arrayLoopReads reads (spliceDrop (by omega)) (by omega)
  refine ⟨_,encoded,le_rfl,⟨0,es.flatten.length,.array us'⟩,us',?_,le_rfl,rfl,rfl,same⟩
  simp only [decodeUnionArray,decodeArray,arrayDecoder,allocates,counted,same.length_eq,Int.toNat_natCast]
  rw [if_neg (by simp), loop]
  simp only [Except.bind,bind,Nat.zero_add,List.nil_append]
  rw [if_neg (by omega)]

theorem decodeUnionLeaves {src : List Byte} {dst : Val} {inc max : Nat} {len : Option (BitVec 32)} {path : List Nat}
    {d : Decoded} (done : decodeUnion env from_ src dst inc max len path = .ok d) : ∃ type data, d.dst = .union type data := by
  cases dst with
  | union old garbage =>
    simp only [decodeUnion] at done
    cases head : decodeWord src max with
    | error stop =>
      rw [head] at done
      cases done
    | ok word =>
      rw [head] at done
      simp only [Except.bind,bind] at done
      split at done
      · cases done
        exact ⟨_,_,rfl⟩
      split at done
      · cases done
        exact ⟨_,_,rfl⟩
      split at done
      · cases done
        exact ⟨_,_,rfl⟩
      split at done
      · cases done
      split at done
      · split at done
        · cases done
        · cases done
          exact ⟨_,_,rfl⟩
      · cases done
        exact ⟨_,_,rfl⟩
  | _ => cases done

theorem unionTableRefuses {pointer behind : Val} (unknown : env.definitionForType (env.address pointer) = none) (room : Stretch)
    (wide : 4 ≤ room.max) : ∃ r, encoderOf env into .unionArr (unionAt env pointer behind) (.at room.pos) 0 room.max
      (some len) room.buf = .ok r ∧ r.res = -1 := by
  have inside := room.inside
  simp only [encoderOf,unionAt,encodeUnion]
  rw [encodeWordAt wide (by omega)]
  simp only [Except.bind,bind,unknown]
  exact ⟨_,rfl,rfl⟩

end

/- The list itself may be of any unions, at any address, with anything behind the two fields. -/
theorem unionTableNeverCarries (env : Env) (into : StructDefinition → Encoder) (from_ : StructDefinition → Decoder)
    (us : List Val) (len : BitVec 32) (pointer behind pointer' behind' : Val) (room : Stretch) :
    ¬CarriesUnions (encoderOf env into .unionArr) (decoderOf env from_ .unionArr) us len (unionAt env pointer behind)
      (unionAt env pointer' behind') room := by
  rintro ⟨r,-,-,d,us',decoded,-,-,is,-⟩
  rw [decoderOf] at decoded
  obtain ⟨type,data,left⟩ := decodeUnionLeaves decoded
  rw [left] at is
  cases is

/- One union of the registered type, in an array at an address whose low half is 0. -/
theorem oneUnionLost :
    (∃ r, encoderOf sampleEnv (enterEncoder sampleEnv 1) .unionArr (unionAt sampleEnv (.array [.union 7 (.struct [.word 5])]) .null)
      (.at 0) 0 8 (some 1) (List.replicate 8 0) = .ok r ∧ r.res = -1) ∧
    ¬CarriesUnions (encoderOf sampleEnv (enterEncoder sampleEnv 1) .unionArr)
      (decoderOf sampleEnv (enterDecoder sampleEnv 1) .unionArr) [.union 7 (.struct [.word 5])] 1
      (unionAt sampleEnv (.array [.union 7 (.struct [.word 5])]) .null) (unionAt sampleEnv .null .null)
      ⟨0,8,List.replicate 8 0,by decide⟩ := by
  refine ⟨⟨_,rfl,rfl⟩,?_⟩
  rintro ⟨r,encoded,good,-⟩
  cases encoded
  exact absurd good (by decide)

end LibProc.Xdr
