import LibProc.XdrRoundTrip
import LibProc.XdrSizing

/-! The tables of scalar arrays. Each pairs an encoder and a decoder of its elements; where
the two agree every list comes back, and the table of doubles pairs the encoder of a
float with the decoder of a double. -/
namespace LibProc.Xdr
open XdrBytes XdrDict

inductive ArrayTable where
  | float | double | char | int32 | uint32 | int64 | uint64
  deriving DecidableEq, Repr

def ArrayTable.scalar : ArrayTable → Scalar
  | .float => .float
  | .double => .double
  | .char => .int32
  | .int32 => .int32
  | .uint32 => .uint32
  | .int64 => .int64
  | .uint64 => .uint64

def ArrayTable.arrFunctions (t : ArrayTable) : TypeFunctions := .array t.scalar

/- An element in memory. XDR_scan_char and XDR_print_field_char keep a character in an int32_t. -/
def ArrayTable.Element : ArrayTable → Val → Prop
  | .char,v => ∃ c : BitVec 8, v = .word (c.signExtend 32)
  | t,v => ∃ e, ScalarWire t.scalar v e

theorem ArrayTable.Element.wire {t : ArrayTable} {v : Val} (element : t.Element v) : ∃ e, ScalarWire t.scalar v e := by
  cases t with
  | char =>
    obtain ⟨c,rfl⟩ := element
    exact ⟨_,.int32 _⟩
  | _ => exact element

def ArrayRoundTrips (env : Env) (into : StructDefinition → Encoder) (from_ : StructDefinition → Decoder) (t : ArrayTable)
    (vs : List Val) (len : BitVec 32) (path : List Nat) : Prop :=
  ∀ src pos used max buf, elements vs.length src = some vs → vs.length * width t.scalar ≤ max → pos + max ≤ buf.length →
    ∃ r, encoderOf env into t.arrFunctions src (.at pos) used max (some len) buf = .ok r ∧ 0 ≤ r.res ∧
      r.used ≤ max ∧ ∀ dst inc room, r.used ≤ room → room ≤ max → ∃ d,
        decoderOf env from_ t.arrFunctions (r.buf.drop pos) dst inc room (some len) path = .ok d ∧ 0 ≤ d.res ∧
          d.dst = .array vs ∧ d.inc = r.used

section Runs
variable {env : Env} {into : StructDefinition → Encoder} {from_ : StructDefinition → Decoder} {t : ArrayTable}
  {vs : List Val} {len : BitVec 32}

theorem encodeElements {src : Val} (content : elements vs.length src = some vs) (counted : len.toInt = vs.length)
    (dst : Dst) (used max : Nat) (buf : List Byte) :
    encoderOf env into t.arrFunctions src dst used max (some len) buf =
      arrayEncodeLoop (encodeElement t.scalar) max vs.length vs dst 0 0 buf := by
  simp only [ArrayTable.arrFunctions,encoderOf,encodeArray,arrayEncoder,counted,Int.toNat_natCast,content]

theorem decodeElements (counted : len.toInt = vs.length) (src : List Byte) (dst : Val) (inc max : Nat)
    (path : List Nat) : decoderOf env from_ t.arrFunctions src dst inc max (some len) path =
      arrayDecoder env (decodeScalar t.scalar) .null src dst 0 max vs.length path := by
  simp only [ArrayTable.arrFunctions,decoderOf,decodeArray,counted]

theorem elementWires (each : ∀ v ∈ vs, t.Element v) : ∃ es, List.Forall₂ (ScalarWire t.scalar) vs es := by
  induction vs with
  | nil => exact ⟨[],.nil⟩
  | cons v vs ih =>
    obtain ⟨e,wire⟩ := (each v List.mem_cons_self).wire
    obtain ⟨es,wires⟩ := ih fun w member => each w (List.mem_cons_of_mem _ member)
    exact ⟨e :: es,.cons wire wires⟩

theorem agreeingRoundTrips (agree : encodeElement t.scalar = encodeScalar t.scalar ∨ vs = []) (each : ∀ v ∈ vs, t.Element v)
    (counted : len.toInt = vs.length) {path : List Nat} (allocates : env.alloc path = true) :
    ArrayRoundTrips env into from_ t vs len path := by
  intro src pos used max buf content wide bounds
  obtain ⟨es,wires⟩ := elementWires each
  have size : es.flatten.length = vs.length * width t.scalar := flattenWidth wires
  have encodes : List.Forall₂ (fun v e => Encodes (encodeElement t.scalar) v none e) vs es := by
    rcases agree with same | rfl
    · rw [same]
      exact wires.imp fun v e wire => scalarEncodes wire none
    · cases wires
      exact .nil
  have loop := arrayLoopEncodes encodes (show 0 + es.flatten.length ≤ max by omega)
    (show pos + 0 + es.flatten.length ≤ buf.length by omega)
  rw [Nat.zero_add, Nat.add_zero] at loop
  refine ⟨_,(encodeElements content counted _ _ _ _).trans loop,le_rfl,?_,fun dst inc room enough _ => ?_⟩
  · show es.flatten.length ≤ max
    omega
  dsimp only at enough
  have reads : arrayDecodeLoop (decodeScalar t.scalar) .null ((splice buf pos es.flatten).drop pos) room path
      vs.length [] 0 = _ :=
    arrayLoopReads (wires.imp fun v e wire => scalarReads wire .null none) (spliceDrop (by omega)) (by omega)
  refine ⟨⟨0,es.flatten.length,.array vs⟩,?_,le_rfl,rfl,rfl⟩
  rw [decodeElements counted]
  simp only [arrayDecoder,allocates,Int.toNat_natCast]
  rw [if_neg (by simp), reads]
  simp only [Except.bind,bind,Nat.zero_add,List.nil_append]
  rw [if_neg (by omega)]

theorem decodeDoubleInc {src : List Byte} {dst : Val} {inc max : Nat} {len : Option (BitVec 32)} {path : List Nat}
    {r : Decoded} (done : decodeDouble src dst inc max len path = .ok r) (good : 0 ≤ r.res) : r.inc = 8 := by
  simp only [decodeDouble] at done
  split at done
  · cases done
    cases good
  · cases bytes : get 8 src with
    | error stop =>
      rw [bytes] at done
      cases done
    | ok bs =>
      rw [bytes] at done
      cases done
      rfl

theorem doublesConsumed {uninit : Val} {src : List Byte} {max : Nat} {path : List Nat} {count decLen : Nat}
    {done all : List Val} {res : Int} {total : Nat} (good : 0 ≤ res)
    (ends : arrayDecodeLoop decodeDouble uninit src max path count done decLen = .ok (res,total,all)) :
    total = decLen + count * 8 := by
  induction count generalizing done decLen with
  | zero =>
    simp only [arrayDecodeLoop,Except.ok.injEq,Prod.mk.injEq] at ends
    omega
  | succ count ih =>
    simp only [arrayDecodeLoop] at ends
    cases one : decodeDouble (src.drop decLen) uninit 0 (sizeSub max decLen) none (done.length :: path) with
    | error stop =>
      rw [one] at ends
      cases ends
    | ok r =>
      rw [one] at ends
      simp only [Except.bind,bind] at ends
      split at ends
      · simp only [Except.ok.injEq,Prod.mk.injEq] at ends
        omega
      · have eight := decodeDoubleInc one (by omega)
        have more := ih ends
        omega

theorem arrayDecoderAllocates {dec : Decoder} {uninit : Val} {src : List Byte} {dst : Val} {used max : Nat} {n : Int}
    {path : List Nat} {d : Decoded} (done : arrayDecoder env dec uninit src dst used max n path = .ok d)
    (good : 0 ≤ d.res) : env.alloc path = true := by
  by_contra fails
  rw [arrayDecoder, if_pos (by simpa using fails)] at done
  cases done
  cases good

theorem arrayDecoderDoubles {uninit : Val} {src : List Byte} {dst : Val} {used max n : Nat} {path : List Nat} {d : Decoded}
    (done : arrayDecoder env decodeDouble uninit src dst used max n path = .ok d) (good : 0 ≤ d.res) : d.inc = n * 8 := by
  have allocates := arrayDecoderAllocates done good
  rw [arrayDecoder, if_neg (by simp [allocates]), Int.toNat_natCast] at done
  cases loop : arrayDecodeLoop decodeDouble uninit src max path n [] 0 with
  | error stop =>
    rw [loop] at done
    cases done
  | ok result =>
    obtain ⟨res,total,all⟩ := result
    rw [loop] at done
    simp only [Except.bind,bind] at done
    split at done
    · cases done
      dsimp only at good
      omega
    · cases done
      rw [doublesConsumed (by omega) loop, Nat.zero_add]

theorem doublesEncode {es : List (List Byte)} (wires : List.Forall₂ (ScalarWire .double) vs es) :
    ∃ es', List.Forall₂ (fun v e => Encodes encodeFloat v none e) vs es' ∧ es'.flatten.length = vs.length * 4 := by
  induction wires with
  | nil => exact ⟨[],.nil,rfl⟩
  | @cons v e vs es first rest ih =>
    obtain ⟨es',encodes,size⟩ := ih
    cases first with
    | double d =>
      refine ⟨(hostBytes64 d).take 4 :: es',.cons (copyNumberEncodes rfl (show 4 ≤ 8 by decide) none) encodes,?_⟩
      rw [List.flatten_cons, List.length_append, size, List.length_cons, Nat.succ_mul, Nat.add_comm]
      rfl

theorem doublesLost (each : ∀ v ∈ vs, ArrayTable.double.Element v) (some_ : vs ≠ []) (counted : len.toInt = vs.length)
    {path : List Nat} : ¬ArrayRoundTrips env into from_ .double vs len path := by
  intro trips
  obtain ⟨es,wires⟩ := elementWires each
  obtain ⟨es',encodes,size⟩ := doublesEncode wires
  have positive := List.length_pos_iff.mpr some_
  have loop := arrayLoopEncodes encodes (show 0 + es'.flatten.length ≤ vs.length * 8 by omega)
    (show 0 + 0 + es'.flatten.length ≤ (List.replicate (vs.length * 8) (0 : Byte)).length by
      rw [List.length_replicate]
      omega)
  have same : elements vs.length (.array vs) = some vs := rfl
  obtain ⟨r,encoded,-,-,decodes⟩ := trips (.array vs) 0 0 (vs.length * 8) (List.replicate (vs.length * 8) 0) same le_rfl (by simp)
  have four : r.used = vs.length * 4 := by
    rw [encodeElements same counted] at encoded
    cases encoded.symm.trans loop
    rw [Nat.zero_add, size]
  obtain ⟨d,decoded,good,-,inc⟩ := decodes .null 0 (vs.length * 8) (by omega) le_rfl
  rw [decodeElements counted] at decoded
  have eight := arrayDecoderDoubles decoded good
  omega

theorem roundTripAllocates (counted : len.toInt = vs.length) {path : List Nat}
    (trips : ArrayRoundTrips env into from_ t vs len path) : env.alloc path = true := by
  obtain ⟨r,-,-,inside,decodes⟩ := trips (.array vs) 0 0 (vs.length * width t.scalar)
    (List.replicate (vs.length * width t.scalar) 0) rfl le_rfl (by simp)
  obtain ⟨d,decoded,good,-⟩ := decodes .null 0 (vs.length * width t.scalar) inside le_rfl
  rw [decodeElements counted] at decoded
  exact arrayDecoderAllocates decoded good

end Runs

/- A table's lists come back just when the array can be allocated and, in the table of doubles, when
the list is empty. -/
theorem arrayRoundTripsIff {env : Env} {into : StructDefinition → Encoder} {from_ : StructDefinition → Decoder}
    {t : ArrayTable} {vs : List Val} {len : BitVec 32} (each : ∀ v ∈ vs, t.Element v) (counted : len.toInt = vs.length)
    (path : List Nat) :
    ArrayRoundTrips env into from_ t vs len path ↔ env.alloc path = true ∧ (t ≠ .double ∨ vs = []) := by
  constructor
  · intro trips
    refine ⟨roundTripAllocates counted trips,?_⟩
    by_contra both
    obtain ⟨is,some_⟩ := not_or.mp both
    rw [not_not] at is
    subst is
    exact doublesLost each some_ counted trips
  · rintro ⟨allocates,fine⟩
    refine agreeingRoundTrips ?_ each counted allocates
    rcases fine with other | none
    · left
      cases t <;> first | rfl | exact absurd rfl other
    · exact .inr none

theorem twoCharsRoundTrip : ArrayRoundTrips sampleEnv (enterEncoder sampleEnv 0) (enterDecoder sampleEnv 0) .char
    [.word 104,.word 0xffffffe9] 2 [] := by
  have each : ∀ v ∈ [Val.word 104,.word 0xffffffe9], ArrayTable.char.Element v := by
    intro v member
    rcases List.mem_pair.mp member with rfl | rfl
    · exact ⟨104,rfl⟩
    · exact ⟨0xe9,rfl⟩
  exact (arrayRoundTripsIff each rfl []).mpr ⟨rfl,.inl (by decide)⟩

/- 1.5 and its low half: the encoder leaves the low half, and the decoder asks for both. -/
theorem oneDoubleLost : ¬ArrayRoundTrips sampleEnv (enterEncoder sampleEnv 0) (enterDecoder sampleEnv 0) .double
    [.dword 0x3ff8000000000000] 1 [] := by
  refine doublesLost (fun v member => ?_) (List.cons_ne_nil _ _) rfl
  rw [List.mem_singleton.mp member]
  exact ⟨_,.double _⟩

end LibProc.Xdr
