import LibProc.XdrValues
import Mathlib.Data.List.TakeWhile

/-! What an encoder writes, its decoder reads back. `Encodes` and `Decodes` are stated for
one encoder or decoder and one encoding, in any buffer with room; they compose along
arrays, fields and unions, and the nesting of unions is closed by induction. -/
namespace LibProc.Xdr
open XdrBytes XdrDict

section Encoding

def Encodes (enc : Encoder) (v : Val) (len : Option (BitVec 32)) (e : List Byte) : Prop :=
  ∀ pos used max buf, e.length ≤ max → pos + e.length ≤ buf.length →
    enc v (.at pos) used max len buf = .ok ⟨0,e.length,splice buf pos e⟩

theorem putAt {bs buf : List Byte} {pos : Nat} (room : pos + bs.length ≤ buf.length) :
    put bs (.at pos) buf = .ok (splice buf pos bs) := by
  unfold put
  by_cases none : bs = []
  · subst none
    rw [if_pos rfl, spliceNil]
  · rw [if_neg none]
    simp only
    rw [if_pos room]

theorem encodeWordAt {w : BitVec 32} {pos max : Nat} {buf : List Byte} (fits : 4 ≤ max) (room : pos + 4 ≤ buf.length) :
    encodeWord w (.at pos) max buf = .ok ⟨0,4,splice buf pos (beBytes w)⟩ := by
  simp only [encodeWord]
  rw [if_neg (by simp), if_neg (by omega), putAt room]
  rfl

theorem encodeUint32Encodes (w : BitVec 32) (len : Option (BitVec 32)) : Encodes encodeUint32 (.word w) len (beBytes w) :=
  fun _ _ _ _ fits room => encodeWordAt fits room

theorem encodeInt64Encodes (d : BitVec 64) (len : Option (BitVec 32)) :
    Encodes encodeInt64 (.dword d) len (beBytes64 d) := by
  intro pos used max buf fits room
  have width : (beBytes64 d).length = 8 := rfl
  rw [width] at fits room ⊢
  have room' : pos + 4 + 4 ≤ (splice buf pos (beBytes (high d))).length := by
    rw [spliceLength (by rw [beBytesLength]; omega)]
    omega
  have rest : sizeSub max 4 = max - 4 := if_pos (by omega)
  simp only [encodeInt64]
  rw [if_neg (by simp), if_neg (by omega), encodeWordAt (by omega) (by omega)]
  simp only [Except.bind,bind,Dst.advance]
  rw [rest, if_neg (by omega), encodeWordAt (by omega) room']
  simp only
  rw [if_neg (by omega), beBytes64, ← spliceAppend (by rw [beBytesLength]; omega), beBytesLength]

theorem copyNumberEncodes {v : Val} {bs : List Byte} {width : Nat} (number : numberBytes v = some bs)
    (wide : width ≤ bs.length) (len : Option (BitVec 32)) : Encodes (copyNumber width) v len (bs.take width) := by
  intro pos used max buf fits room
  have size : (bs.take width).length = width := by
    rw [List.length_take]
    omega
  rw [size] at fits
  simp only [copyNumber,number]
  rw [if_neg (by omega), if_neg (by omega), putAt room, size]
  rfl

theorem scalarEncodes {s : Scalar} {v : Val} {e : List Byte} (wire : ScalarWire s v e) (len : Option (BitVec 32)) :
    Encodes (encodeScalar s) v len e := by
  cases wire with
  | int32 w => exact encodeUint32Encodes w len
  | uint32 w => exact encodeUint32Encodes w len
  | int64 d => exact encodeInt64Encodes d len
  | uint64 d => exact encodeInt64Encodes d len
  | float w => exact copyNumberEncodes (v := .word w) rfl (by rfl) len
  | double d => exact copyNumberEncodes (v := .dword d) rfl (by rfl) len

theorem strlenClean {s : List Byte} (clean : 0 ∉ s) : strlen s = s := by
  unfold strlen
  rw [List.takeWhile_eq_self_iff]
  intro b mem
  have : b ≠ 0 := fun zero => clean (zero ▸ mem)
  simpa using this

@[simp] theorem stringWireLength (s : List Byte) : (stringWire s).length = 4 + s.length + pad s.length := by
  simp [stringWire,zeros]
  omega

theorem padSmall (n : Nat) : pad n < 4 := by
  unfold pad
  omega

theorem stringEncodes {v : Val} {s : List Byte} (content : stringBytes v = some s)
    (short : s.length + pad s.length < 2 ^ 32) (len : Option (BitVec 32)) :
    Encodes encodeStringArray v len (stringWire s) := by
  intro pos used max buf fits room
  have size := stringWireLength s
  have count : (BitVec.ofNat 32 s.length).toNat = s.length := by
    rw [BitVec.toNat_ofNat, Nat.mod_eq_of_lt (by omega)]
  rw [size] at fits room ⊢
  have room1 : pos + 4 ≤ buf.length := by omega
  have length1 : (splice buf pos (beBytes (BitVec.ofNat 32 s.length))).length = buf.length :=
    spliceLength (by rw [beBytesLength]; omega)
  simp only [encodeStringArray,content]
  rw [encodeWordAt (by omega) room1]
  simp only [Except.bind,bind,Dst.advance,count]
  have whole : (s.length + pad s.length) % 2 ^ 32 = s.length + pad s.length := Nat.mod_eq_of_lt short
  rw [whole, if_neg (by omega), if_neg (by omega), List.take_length, putAt (by omega)]
  have length2 : (splice (splice buf pos (beBytes (BitVec.ofNat 32 s.length))) (pos + 4) s).length = buf.length := by
    rw [spliceLength (by omega), length1]
  have zeroed : pos + 4 + s.length + (List.replicate (pad s.length) (0 : Byte)).length ≤ buf.length := by
    rw [List.length_replicate]
    omega
  simp only
  rw [putAt (by omega)]
  simp only
  have join1 := spliceAppend (b := s) (show pos + (beBytes (BitVec.ofNat 32 s.length)).length ≤ buf.length by
    rw [beBytesLength]; omega)
  have join2 := spliceAppend (b := zeros (pad s.length))
    (show pos + (beBytes (BitVec.ofNat 32 s.length) ++ s).length ≤ buf.length by
      rw [List.length_append, beBytesLength]; omega)
  rw [beBytesLength] at join1
  rw [List.length_append, beBytesLength, ← Nat.add_assoc] at join2
  rw [join1, stringWire, ← join2]
  simp only [zeros]
  congr 2
  omega

theorem stringValueEncodes {rules : Rules} (bound : ∀ n, rules.string n → n + pad n < 2 ^ 32) {v : Val} {e : List Byte}
    (wire : StringWire rules v e) (len : Option (BitVec 32)) : Encodes encodeStringArray v len e := by
  cases wire with
  | null => exact stringEncodes rfl (by decide) len
  | chars s clean short =>
    refine stringEncodes ?_ (bound s.length short) len
    simp only [stringBytes,strlenClean clean]

theorem arrayLoopEncodes {enc : Encoder} {vs : List Val} {es : List (List Byte)}
    (each : List.Forall₂ (fun v e => Encodes enc v none e) vs es) {pos max encLen : Nat} {buf : List Byte}
    (fits : encLen + es.flatten.length ≤ max) (room : pos + encLen + es.flatten.length ≤ buf.length) :
    arrayEncodeLoop enc max vs.length vs (.at pos) 0 encLen buf =
      .ok ⟨0,encLen + es.flatten.length,splice buf (pos + encLen) es.flatten⟩ := by
  induction each generalizing encLen buf with
  | nil =>
    simp only [arrayEncodeLoop,List.length_nil,List.flatten_nil]
    rw [spliceNil, Nat.add_zero]
  | @cons v e vs es first rest ih =>
    simp only [List.flatten_cons,List.length_append] at fits room
    have left : sizeSub max encLen = max - encLen := if_pos (by omega)
    have one := first (pos + encLen) 0 (max - encLen) buf (by omega) (by omega)
    have length1 : (splice buf (pos + encLen) e).length = buf.length := spliceLength (by omega)
    have fits' : encLen + e.length + es.flatten.length ≤ max := by omega
    have room' : pos + (encLen + e.length) + es.flatten.length ≤ (splice buf (pos + encLen) e).length := by omega
    have more := ih fits' room'
    simp only [arrayEncodeLoop,List.length_cons]
    rw [if_pos (by simp), Dst.advance, left, one]
    simp only [Except.bind,bind]
    rw [if_neg (by omega), more, ← Nat.add_assoc, spliceAppend (by omega), List.flatten_cons, List.length_append]
    rw [Nat.add_assoc]

theorem arrayEncodes {enc : Encoder} {wire : Val → List Byte → Prop}
    (each : ∀ v e, wire v e → Encodes enc v none e) {len : BitVec 32} {v : Val} {e : List Byte}
    (array : ArrayWire wire len.toInt v e) : Encodes (encodeArray enc) v (some len) e := by
  intro pos used max buf fits room
  simp only [encodeArray,arrayEncoder]
  cases array with
  | array vs es counted forall_ =>
    simp only [elements,counted]
    have loop := arrayLoopEncodes (forall_.imp fun v e => each v e) (show 0 + es.flatten.length ≤ max by omega)
      (show pos + 0 + es.flatten.length ≤ buf.length by omega)
    rw [loop, Nat.zero_add, Nat.add_zero]
  | null none =>
    simp only [none,elements,List.replicate_zero,arrayEncodeLoop,List.length_nil]
    rw [spliceNil]

theorem encodeUnionAt {env : Env} {into : StructDefinition → Encoder} {type : BitVec 32} {data : Val}
    {d : StructDefinition} (registered : env.definitionForType type = some d) {pos max : Nat} {buf : List Byte}
    (fits : 4 ≤ max) (room : pos + 4 ≤ buf.length) (used : Nat) (len : Option (BitVec 32)) :
    encodeUnion env into (.union type data) (.at pos) used max len buf = (do
      let r ← into d data (.at (pos + 4)) 0 (max - 4) none (splice buf pos (beBytes type))
      .ok ⟨if r.res < 0 then -1 else 0,4 + r.used,r.buf⟩) := by
  have left : sizeSub max 4 = max - 4 := if_pos fits
  simp only [encodeUnion]
  rw [encodeWordAt fits room]
  simp only [Except.bind,bind,registered]
  simp only [ne_eq,reduceCtorEq,not_false_eq_true,le_refl,and_self,if_true,Dst.advance,left,lt_self_iff_false,false_or]

theorem unionEncodes {env : Env} {rules : Rules} {enter : StructDefinition → Val → List Byte → Prop}
    {into : StructDefinition → Encoder}
    (inner : ∀ d v e, rules.definition d → enter d v e → Encodes (into d) v none e) {v : Val} {e : List Byte}
    (wire : UnionWire env rules enter v e) (len : Option (BitVec 32)) : Encodes (encodeUnion env into) v len e := by
  intro pos used max buf fits room
  obtain ⟨type,data,definition,body,registered,admitted,wired⟩ := wire
  rw [List.length_append, beBytesLength] at fits room ⊢
  have first : pos + (beBytes type).length ≤ buf.length := by
    rw [beBytesLength]
    omega
  have length1 := spliceLength first
  have done := inner definition data body admitted wired (pos + 4) 0 (max - 4) (splice buf pos (beBytes type))
    (by omega) (by omega)
  have both := spliceAppend (b := body) first
  rw [beBytesLength] at both
  rw [encodeUnionAt registered (by omega) (by omega), done]
  simp only [Except.bind,bind,lt_self_iff_false,if_false]
  rw [both]

def plainTable : TypeFunctions → Bool
  | .scalar _ => true
  | .array s => s ≠ .double
  | .stringArr => true
  | .union => true
  | .struct _ => true
  | _ => false

def hasLength : TypeFunctions → Bool
  | .array _ => true
  | _ => false

/- An array comes after the number that counts it, and a string is short enough for its
padded length to be a uint32. -/
def plainRules : Rules where
  field funcs i lenOffset cells := plainTable funcs = true ∧
    (hasLength funcs = true → lenOffset < i ∧ ∃ w, cells[lenOffset]? = some (.word w) ∧ 0 ≤ w.toInt)
  string n := n + pad n < 2 ^ 32
  definition d := d.inMemorySize ≠ 0 ∧ d.coder = .struct
  nullObject := False
  nullBytes := False

section Fields
variable {env : Env} {enter : StructDefinition → Val → List Byte → Prop} {into : StructDefinition → Encoder}

def FieldsEncode (env : Env) (into : StructDefinition → Encoder) (cells : List Val) (fields : FieldList)
    (vs : List Val) (e : List Byte) : Prop :=
  ∀ pos max used len buf, used + e.length ≤ max → pos + used + e.length ≤ buf.length →
    structEncodeLoop env cells max (encodersOf env into fields) vs (.at pos) 0 used len buf =
      .ok ⟨0,used + e.length,splice buf (pos + used) e⟩

theorem FieldsEncode.cons {cells vs : List Val} {funcs : TypeFunctions} {lenOffset structId : Nat} {rest : FieldList}
    {v : Val} {a b : List Byte}
    (first : Encodes (encoderOf env into funcs) v (some (wordAt env cells[lenOffset]?)) a)
    (more : FieldsEncode env into cells rest vs b) :
    FieldsEncode env into cells (.cons funcs lenOffset structId rest) (v :: vs) (a ++ b) := by
  intro pos max used len buf fits room
  rw [List.length_append] at fits room ⊢
  have left : sizeSub max used = max - used := if_pos (by omega)
  have one := first (pos + used) len (max - used) buf (by omega) (by omega)
  have length1 : (splice buf (pos + used) a).length = buf.length := spliceLength (by omega)
  have others := more pos max (used + a.length) a.length (splice buf (pos + used) a) (by omega) (by omega)
  simp only [encodersOf,structEncodeLoop]
  rw [if_neg (by simp), Dst.advance, left, one]
  simp only [Except.bind,bind]
  rw [others, ← Nat.add_assoc, spliceAppend (by omega), Nat.add_assoc]

theorem FieldsEncode.struct {cells : List Val} {fields : FieldList} {e : List Byte} (len : Option (BitVec 32))
    (all : FieldsEncode env into cells fields cells e) :
    Encodes (structEncoder env (encodersOf env into fields)) (.struct cells) len e := by
  intro pos used max buf fits room
  have loop := all pos max 0 0 buf (by omega) (by omega)
  simp only [structEncoder]
  rw [loop, Nat.zero_add, Nat.add_zero]

mutual
theorem tableEncodes (inner : ∀ d v e, plainRules.definition d → enter d v e → Encodes (into d) v none e) :
    ∀ (funcs : TypeFunctions) (len : BitVec 32) (v : Val) (e : List Byte), plainTable funcs = true →
      wireOf env plainRules enter funcs len v e → Encodes (encoderOf env into funcs) v (some len) e
  | .scalar s,len,v,e,_,wire => scalarEncodes wire _
  | .array s,len,v,e,plain,wire => by
    have same : encodeElement s = encodeScalar s := by
      cases s <;> first | rfl | simp [plainTable] at plain
    simp only [encoderOf,same]
    exact arrayEncodes (fun v e scalar => scalarEncodes scalar none) wire
  | .stringArr,len,v,e,_,wire => stringValueEncodes (fun _ short => short) wire _
  | .union,len,v,e,_,wire => unionEncodes inner wire _
  | .struct fields,len,v,e,_,wire => by
    obtain ⟨cells,rfl,wires⟩ := wire
    simp only [encoderOf]
    exact FieldsEncode.struct _ (fieldsEncode inner fields 0 cells cells e wires)
theorem fieldsEncode (inner : ∀ d v e, plainRules.definition d → enter d v e → Encodes (into d) v none e) :
    ∀ (fields : FieldList) (i : Nat) (cells vs : List Val) (e : List Byte),
      wiresOf env plainRules enter cells fields i vs e → FieldsEncode env into cells fields vs e
  | .nil,i,cells,vs,e,wires => by
    obtain ⟨rfl,rfl⟩ := wires
    intro pos max used len buf fits room
    simp only [encodersOf,structEncodeLoop,List.length_nil]
    rw [spliceNil, Nat.add_zero]
  | .cons funcs lenOffset structId rest,i,cells,vs,e,wires => by
    obtain ⟨v,vs',a,b,rfl,rfl,admitted,first,more⟩ := wires
    exact FieldsEncode.cons (tableEncodes inner funcs _ v a admitted.1 first)
      (fieldsEncode inner rest (i + 1) cells vs' b more)
end

end Fields

theorem objectEncodes {env : Env} {depth fuel : Nat} (deep : depth ≤ fuel) {d : StructDefinition} {v : Val} {e : List Byte}
    (admitted : plainRules.definition d) (wire : objectWire env plainRules depth d v e) :
    Encodes (enterEncoder env fuel d) v none e := by
  induction depth generalizing fuel d v e with
  | zero => exact wire.elim
  | succ depth ih =>
    obtain ⟨fuel,rfl⟩ : ∃ n, fuel = n + 1 := ⟨fuel - 1,by omega⟩
    simp only [objectWire,admitted.2] at wire
    simp only [enterEncoder,admitted.2]
    rcases wire with ⟨cells,rfl,wires⟩ | ⟨impossible,_⟩
    · refine FieldsEncode.struct none (fieldsEncode ?_ d.fields 0 cells cells e wires)
      intro d' v' e' ok inner
      exact ih (by omega) ok inner
    · exact impossible.elim

end Encoding

/- Equality of values; a NULL string or array counts as an empty one. -/
inductive Equal : Val → Val → Prop where
  | refl (v : Val) : Equal v v
  | nullString : Equal .null (.chars [])
  | nullArray : Equal .null (.array [])
  | union (type : BitVec 32) {data data' : Val} (same : Equal data data') : Equal (.union type data) (.union type data')
  | struct {cells cells' : List Val} (same : List.Forall₂ Equal cells cells') : Equal (.struct cells) (.struct cells')

theorem Equal.word {w : BitVec 32} {v : Val} (same : Equal (.word w) v) : v = .word w := by
  cases same
  rfl

section Decoding

def Reads (dec : Decoder) (dst : Val) (len : Option (BitVec 32)) (e : List Byte) (v : Val) : Prop :=
  ∀ rest inc max path, e.length ≤ max → dec (e ++ rest) dst inc max len path = .ok ⟨0,e.length,v⟩

def Decodes (dec : Decoder) (dst : Val) (len : Option (BitVec 32)) (e : List Byte) (v : Val) : Prop :=
  ∃ v', Equal v v' ∧ Reads dec dst len e v'

theorem getFirst {n : Nat} {a b : List Byte} (size : a.length = n) : get n (a ++ b) = .ok a := by
  unfold get
  rw [List.length_append, if_pos (by omega), List.take_append_of_le_length size.ge, List.take_of_length_le size.le]

theorem decodeWordReads {w : BitVec 32} {rest : List Byte} {max : Nat} (fits : 4 ≤ max) :
    decodeWord (beBytes w ++ rest) max = .ok (some w) := by
  unfold decodeWord
  rw [if_neg (by omega), getFirst (beBytesLength w)]
  simp only [Except.bind,bind,beWordBytes]

theorem decodeUint32Reads (w : BitVec 32) (dst : Val) (len : Option (BitVec 32)) :
    Reads decodeUint32 dst len (beBytes w) (.word w) := by
  intro rest inc max path fits
  simp only [decodeUint32]
  rw [decodeWordReads fits]
  rfl

theorem decodeInt64Reads (d : BitVec 64) (dst : Val) (len : Option (BitVec 32)) :
    Reads decodeInt64 dst len (beBytes64 d) (.dword d) := by
  intro rest inc max path fits
  have width : (beBytes64 d).length = 8 := rfl
  rw [width] at fits ⊢
  have left : sizeSub max 4 = max - 4 := if_pos (by omega)
  have skip : (beBytes64 d ++ rest).drop 4 = beBytes (low d) ++ rest := rfl
  have front : beBytes64 d ++ rest = beBytes (high d) ++ (beBytes (low d) ++ rest) := by
    rw [beBytes64, List.append_assoc]
  simp only [decodeInt64]
  rw [if_neg (by omega), skip, front, decodeWordReads (by omega)]
  simp only [Except.bind,bind]
  rw [left, decodeWordReads (by omega)]
  simp only [joinHalves]

theorem decodeFloatReads (w : BitVec 32) (dst : Val) (len : Option (BitVec 32)) :
    Reads decodeFloat dst len (hostBytes w) (.word w) := by
  intro rest inc max path fits
  have width : (hostBytes w).length = 4 := rfl
  rw [width] at fits ⊢
  simp only [decodeFloat]
  rw [if_neg (by omega), getFirst (hostBytesLength w)]
  simp only [Except.bind,bind,hostWordBytes]

theorem decodeDoubleReads (d : BitVec 64) (dst : Val) (len : Option (BitVec 32)) :
    Reads decodeDouble dst len (hostBytes64 d) (.dword d) := by
  intro rest inc max path fits
  have width : (hostBytes64 d).length = 8 := rfl
  rw [width] at fits ⊢
  simp only [decodeDouble]
  rw [if_neg (by omega), getFirst width]
  simp only [Except.bind,bind,hostWordBytes64]

theorem scalarReads {s : Scalar} {v : Val} {e : List Byte} (wire : ScalarWire s v e) (dst : Val)
    (len : Option (BitVec 32)) : Reads (decodeScalar s) dst len e v := by
  cases wire with
  | int32 w => exact decodeUint32Reads w dst len
  | uint32 w => exact decodeUint32Reads w dst len
  | int64 d => exact decodeInt64Reads d dst len
  | uint64 d => exact decodeInt64Reads d dst len
  | float w => exact decodeFloatReads w dst len
  | double d => exact decodeDoubleReads d dst len

theorem arrayLoopReads {dec : Decoder} {uninit : Val} {vs : List Val} {es : List (List Byte)}
    (each : List.Forall₂ (fun v e => Reads dec uninit none e v) vs es) {src rest : List Byte} {max decLen : Nat}
    {path : List Nat} {done : List Val} (here : src.drop decLen = es.flatten ++ rest)
    (fits : decLen + es.flatten.length ≤ max) :
    arrayDecodeLoop dec uninit src max path vs.length done decLen =
      .ok (0,decLen + es.flatten.length,done ++ vs) := by
  induction each generalizing decLen done with
  | nil => simp [arrayDecodeLoop]
  | @cons v e vs es first more ih =>
    simp only [List.flatten_cons,List.length_append,List.append_assoc] at fits here ⊢
    have left : sizeSub max decLen = max - decLen := if_pos (by omega)
    have next : src.drop (decLen + e.length) = es.flatten ++ rest := by
      rw [← List.drop_drop, here, List.drop_left]
    have fits' : decLen + e.length + es.flatten.length ≤ max := by omega
    have others : arrayDecodeLoop dec uninit src max path vs.length (done ++ [v]) (decLen + e.length) = _ := ih next fits'
    simp only [arrayDecodeLoop,List.length_cons]
    rw [here, left, first _ _ _ _ (by omega)]
    simp only [Except.bind,bind]
    rw [if_neg (by omega), others, List.append_assoc, Nat.add_assoc]
    rfl

section Allocating
variable {env : Env} (allocates : ∀ p, env.alloc p = true)
include allocates

theorem stringReads {s : List Byte} (short : s.length + pad s.length < 2 ^ 32) (dst : Val) (len : Option (BitVec 32)) :
    Reads (decodeStringArray env) dst len (stringWire s) (.chars s) := by
  intro rest inc max path fits
  have small := padSmall s.length
  have even : 2 ^ 32 ≠ s.length + 1 + pad s.length := by
    unfold pad
    omega
  have count : (BitVec.ofNat 32 s.length).toNat = s.length := by
    rw [BitVec.toNat_ofNat, Nat.mod_eq_of_lt (by omega)]
  have whole : (s.length + pad s.length) % 2 ^ 32 = s.length + pad s.length := Nat.mod_eq_of_lt short
  have front : stringWire s ++ rest =
      beBytes (BitVec.ofNat 32 s.length) ++ (s ++ (zeros (pad s.length) ++ rest)) := by
    simp only [stringWire,List.append_assoc]
  have body : (stringWire s ++ rest).drop 4 = s ++ (zeros (pad s.length) ++ rest) := by
    rw [front]
    rfl
  rw [stringWireLength] at fits ⊢
  simp only [decodeStringArray]
  rw [body, front, decodeWordReads (by omega)]
  simp only [Except.bind,bind,count,allocates]
  rw [if_neg (by omega), if_neg (by simp), if_neg (by unfold pad at short; omega), getFirst rfl, whole]
  simp only [Nat.add_assoc]

theorem stringDecodes {v : Val} {e : List Byte} (wire : StringWire plainRules v e) (dst : Val)
    (len : Option (BitVec 32)) : Decodes (decodeStringArray env) dst len e v := by
  cases wire with
  | null => exact ⟨.chars [],.nullString,stringReads allocates (by decide) dst len⟩
  | chars s clean short => exact ⟨.chars s,.refl _,stringReads allocates short dst len⟩

theorem arrayDecodes {dec : Decoder} {uninit : Val} {wire : Val → List Byte → Prop}
    (each : ∀ v e, wire v e → Reads dec uninit none e v) {len : BitVec 32} {v : Val} {e : List Byte}
    (array : ArrayWire wire len.toInt v e) (dst : Val) : Decodes (decodeArray env dec uninit) dst (some len) e v := by
  cases array with
  | array vs es counted forall_ =>
    refine ⟨.array vs,.refl _,?_⟩
    intro rest inc max path fits
    have loop : arrayDecodeLoop dec uninit (es.flatten ++ rest) max path vs.length [] 0 = _ :=
      arrayLoopReads (forall_.imp fun v e => each v e) rfl (show 0 + es.flatten.length ≤ max by omega)
    simp only [decodeArray,arrayDecoder,allocates,counted]
    rw [if_neg (by simp), loop]
    simp only [Except.bind,bind,Nat.zero_add,List.nil_append]
    rw [if_neg (by omega)]
  | null none =>
    refine ⟨.array [],.nullArray,?_⟩
    intro rest inc max path fits
    simp only [decodeArray,arrayDecoder,allocates,none,arrayDecodeLoop]
    rfl

theorem unionDecodes {rules : Rules} {enter : StructDefinition → Val → List Byte → Prop}
    {from_ : StructDefinition → Decoder} (sized : ∀ d, rules.definition d → d.inMemorySize ≠ 0)
    (inner : ∀ d v e, rules.definition d → enter d v e →
      Decodes (from_ d) (.struct (zerosOf d.fields)) none e v)
    {v : Val} {e : List Byte} (wire : UnionWire env rules enter v e) {dst : Val} (there : Fits .union dst)
    (len : Option (BitVec 32)) : Decodes (decodeUnion env from_) dst len e v := by
  obtain ⟨type,data,definition,body,registered,admitted,wired⟩ := wire
  obtain ⟨old,garbage,rfl⟩ := there
  obtain ⟨data',same,reads⟩ := inner definition data body admitted wired
  refine ⟨.union type data',.union type same,?_⟩
  intro rest inc max path fits
  rw [List.length_append, beBytesLength] at fits ⊢
  have left : sizeSub max 4 = max - 4 := if_pos (by omega)
  have skip : (beBytes type ++ body ++ rest).drop 4 = body ++ rest := rfl
  simp only [decodeUnion]
  rw [skip, List.append_assoc, decodeWordReads (by omega)]
  simp only [Except.bind,bind,registered]
  rw [if_neg (by simp [sized definition admitted,allocates]), left, reads _ _ _ _ (by omega)]
  simp only
  rw [if_neg (by omega)]

def FieldsDecode (env : Env) (from_ : StructDefinition → Decoder) (fields : FieldList) (pre vs : List Val)
    (e : List Byte) : Prop :=
  ∀ done there others, List.Forall₂ Equal pre done → FitsAll fields there → ∃ vs', List.Forall₂ Equal vs vs' ∧
    ∀ more src rest max path used, src.drop used = e ++ rest → used + e.length ≤ max →
      structDecodeLoop env src max path (decodersOf env from_ fields ++ more) done (there ++ others) used =
        structDecodeLoop env src max path more (done ++ vs') others (used + e.length)

omit allocates in
theorem wordDecoded {pre done : List Val} (same : List.Forall₂ Equal pre done) {i : Nat} {w : BitVec 32}
    (word : pre[i]? = some (.word w)) : done[i]? = some (.word w) := by
  induction same generalizing i with
  | nil => simp at word
  | cons first _ ih =>
    cases i with
    | zero =>
      simp only [List.getElem?_cons_zero,Option.some.injEq] at word ⊢
      subst word
      exact first.word
    | succ i =>
      simp only [List.getElem?_cons_succ] at word ⊢
      exact ih word

omit allocates in
theorem FieldsDecode.cons {from_ : StructDefinition → Decoder} {funcs : TypeFunctions} {lenOffset structId : Nat}
    {rest : FieldList} {pre vs : List Val} {v : Val} {a b : List Byte} {len : BitVec 32}
    (counted : hasLength funcs = true → ∃ w, pre[lenOffset]? = some (.word w) ∧ w = len)
    (first : ∀ dst len', Fits funcs dst → (hasLength funcs = true → len' = some len) →
      Decodes (decoderOf env from_ funcs) dst len' a v)
    (more : FieldsDecode env from_ rest (pre ++ [v]) vs b) :
    FieldsDecode env from_ (.cons funcs lenOffset structId rest) pre (v :: vs) (a ++ b) := by
  intro done there others same fits
  obtain ⟨dst,there,rfl,fit,fits⟩ := fits
  have lenSame : hasLength funcs = true →
      some (wordAt env (done ++ dst :: (there ++ others))[lenOffset]?) = some len := by
    intro has
    obtain ⟨w,word,rfl⟩ := counted has
    have known := wordDecoded same word
    obtain ⟨inside,_⟩ := List.getElem?_eq_some_iff.mp known
    rw [List.getElem?_append_left inside, known, wordAt]
  obtain ⟨v',equal,reads⟩ := first dst (some (wordAt env (done ++ dst :: (there ++ others))[lenOffset]?)) fit lenSame
  obtain ⟨vs',equals,loop⟩ := more (done ++ [v']) there others (List.rel_append same (.cons equal .nil)) fits
  refine ⟨v' :: vs',.cons equal equals,?_⟩
  intro after src tail max path used here fits
  rw [List.append_assoc] at here
  rw [List.length_append] at fits ⊢
  have left : sizeSub max used = max - used := if_pos (by omega)
  have next : src.drop (used + a.length) = b ++ tail := by
    rw [← List.drop_drop, here, List.drop_left]
  simp only [decodersOf,structDecodeLoop,List.cons_append]
  rw [here, left, reads _ _ _ _ (by omega)]
  simp only [Except.bind,bind]
  rw [if_neg (by omega), loop after src tail max path (used + a.length) next (by omega), List.append_assoc, Nat.add_assoc]
  rfl

omit allocates in
theorem FieldsDecode.struct {from_ : StructDefinition → Decoder} {fields : FieldList} {cells : List Val}
    {e : List Byte} (all : FieldsDecode env from_ fields [] cells e) {there : List Val} (fits : FitsAll fields there)
    (len : Option (BitVec 32)) :
    Decodes (structDecoder env (decodersOf env from_ fields)) (.struct there) len e (.struct cells) := by
  obtain ⟨cells',equal,loop⟩ := all [] there [] .nil fits
  refine ⟨.struct cells',.struct equal,?_⟩
  intro rest inc max path fits
  have done := loop [] (e ++ rest) rest max path 0 rfl (by omega)
  rw [List.append_nil, List.append_nil] at done
  simp only [structDecoder]
  rw [done]
  simp only [structDecodeLoop,Except.bind,bind,Nat.zero_add,List.nil_append,List.append_nil]
  rw [if_neg (by omega)]

end Allocating

section
variable {env : Env} {enter : StructDefinition → Val → List Byte → Prop} {from_ : StructDefinition → Decoder}

mutual
theorem tableDecodes (allocates : ∀ p, env.alloc p = true)
    (inner : ∀ d v e, plainRules.definition d → enter d v e → Decodes (from_ d) (.struct (zerosOf d.fields)) none e v) :
    ∀ (funcs : TypeFunctions) (len : BitVec 32) (v : Val) (e : List Byte), plainTable funcs = true →
      wireOf env plainRules enter funcs len v e → ∀ dst len', Fits funcs dst →
      (hasLength funcs = true → len' = some len) → Decodes (decoderOf env from_ funcs) dst len' e v
  | .scalar s,len,v,e,_,wire => fun dst len' _ _ => ⟨v,.refl v,scalarReads wire dst len'⟩
  | .array s,len,v,e,plain,wire => fun dst len' _ same => by
    rw [same rfl]
    simp only [decoderOf]
    exact arrayDecodes allocates (fun v e scalar => scalarReads scalar _ none) wire dst
  | .stringArr,len,v,e,_,wire => fun dst len' _ _ => stringDecodes allocates wire dst len'
  | .union,len,v,e,_,wire => fun dst len' there _ =>
      unionDecodes allocates (fun _ (ok : plainRules.definition _) => ok.1) inner wire there len'
  | .struct fields,len,v,e,_,wire => fun dst len' there _ => by
    obtain ⟨cells,rfl,wires⟩ := wire
    obtain ⟨there,rfl,fits⟩ := there
    simp only [decoderOf]
    exact FieldsDecode.struct (fieldsDecode allocates inner fields cells [] cells e rfl wires) fits len'
theorem fieldsDecode (allocates : ∀ p, env.alloc p = true)
    (inner : ∀ d v e, plainRules.definition d → enter d v e → Decodes (from_ d) (.struct (zerosOf d.fields)) none e v) :
    ∀ (fields : FieldList) (cells pre vs : List Val) (e : List Byte), cells = pre ++ vs →
      wiresOf env plainRules enter cells fields pre.length vs e → FieldsDecode env from_ fields pre vs e
  | .nil,cells,pre,vs,e,_,wires => by
    obtain ⟨rfl,rfl⟩ := wires
    intro done there others same empty
    have nothing : there = [] := empty
    subst nothing
    refine ⟨[],.nil,?_⟩
    intro more src rest max path used here fits
    simp only [decodersOf,List.length_nil,Nat.add_zero,List.nil_append,List.append_nil]
  | .cons funcs lenOffset structId rest,cells,pre,vs,e,whole,wires => by
    obtain ⟨v,vs',a,b,rfl,rfl,admitted,first,more⟩ := wires
    have others := fieldsDecode allocates inner rest cells (pre ++ [v]) vs' b (by simp [whole]) (by simpa using more)
    refine FieldsDecode.cons ?_ (tableDecodes allocates inner funcs _ v a admitted.1 first) others
    intro has
    obtain ⟨before,w,word,_⟩ := admitted.2 has
    have known : pre[lenOffset]? = some (.word w) := by
      rw [whole, List.getElem?_append_left before] at word
      exact word
    refine ⟨w,known,?_⟩
    rw [word, wordAt]
end

end

theorem objectDecodes {env : Env} (allocates : ∀ p, env.alloc p = true) {depth fuel : Nat} (deep : depth ≤ fuel)
    {d : StructDefinition} {v : Val} {e : List Byte} (admitted : plainRules.definition d)
    (wire : objectWire env plainRules depth d v e) :
    Decodes (enterDecoder env fuel d) (.struct (zerosOf d.fields)) none e v := by
  induction depth generalizing fuel d v e with
  | zero => exact wire.elim
  | succ depth ih =>
    obtain ⟨fuel,rfl⟩ : ∃ n, fuel = n + 1 := ⟨fuel - 1,by omega⟩
    simp only [objectWire,admitted.2] at wire
    simp only [enterDecoder,admitted.2]
    rcases wire with ⟨cells,rfl,wires⟩ | ⟨impossible,_⟩
    · refine FieldsDecode.struct (fieldsDecode allocates ?_ d.fields cells [] cells e rfl wires) (zerosFit d.fields) none
      intro d' v' e' ok inner
      exact ih (by omega) ok inner
    · exact impossible.elim

end Decoding

def RoundTrips (env : Env) (fuel : Nat) (fields : FieldList) (cells : List Val) (e : List Byte) : Prop :=
  (∀ buf, buf.length = e.length →
    xdrStructEncoder env fuel fields (.struct cells) (.at 0) e.length buf = .ok ⟨0,e.length,e⟩) ∧
  ∀ there, FitsAll fields there → ∃ cells', List.Forall₂ Equal cells cells' ∧
    xdrStructDecoder env fuel fields e (.struct there) e.length = .ok ⟨0,e.length,.struct cells'⟩

theorem valueRoundTrips {env : Env} (allocates : ∀ p, env.alloc p = true) {depth fuel : Nat} (deep : depth ≤ fuel)
    {fields : FieldList} {cells : List Val} {e : List Byte} (value : Value env plainRules depth fields cells e) :
    RoundTrips env fuel fields cells e := by
  constructor
  · intro buf size
    have all := fieldsEncode (fun d v e ok inner => objectEncodes deep ok inner) fields 0 cells cells e value
    have written := FieldsEncode.struct none all 0 0 e.length buf le_rfl (by omega)
    rw [xdrStructEncoder, written, spliceWhole size.symm]
  · intro there fits
    have all := fieldsDecode allocates (fun d v e ok inner => objectDecodes allocates deep ok inner)
      fields cells [] cells e rfl value
    obtain ⟨v,same,reads⟩ := FieldsDecode.struct all fits none
    have read := reads [] 0 e.length [] le_rfl
    rw [List.append_nil] at read
    cases same with
    | refl => exact ⟨cells,List.forall₂_same.mpr fun v _ => .refl v,read⟩
    | struct equal => exact ⟨_,equal,read⟩

def sampleFields : FieldList :=
  .cons (.scalar .int32) 0 0 (.cons (.array .int32) 0 0 (.cons .stringArr 0 0 (.cons .union 0 0
    (.cons (.struct (.cons (.scalar .double) 0 0 .nil)) 0 0 .nil))))

def sampleCells : List Val :=
  [.word 2,.array [.word 5,.word 6],.chars [104,105],.union 7 (.struct [.word 9]),.struct [.dword 1]]

def sampleBytes : List Byte :=
  beBytes 2 ++ ([beBytes 5,beBytes 6].flatten ++ (stringWire [104,105] ++
    ((beBytes 7 ++ (beBytes 9 ++ [])) ++ ((hostBytes64 1 ++ []) ++ []))))

theorem sampleValue : Value sampleEnv plainRules 1 sampleFields sampleCells sampleBytes := by
  refine ⟨_,_,_,_,rfl,rfl,⟨rfl,by simp [hasLength]⟩,.int32 2,?_⟩
  refine ⟨_,_,_,_,rfl,rfl,⟨rfl,fun _ => ⟨by decide,2,rfl,by decide⟩⟩,?_,?_⟩
  · exact .array [.word 5,.word 6] [beBytes 5,beBytes 6] rfl (.cons (.int32 5) (.cons (.int32 6) .nil))
  refine ⟨_,_,_,_,rfl,rfl,⟨rfl,by simp [hasLength]⟩,.chars _ (by decide) (show 2 + pad 2 < 2 ^ 32 by decide),?_⟩
  refine ⟨_,_,_,_,rfl,rfl,⟨rfl,by simp [hasLength]⟩,?_,?_⟩
  · refine .union 7 _ _ _ rfl ⟨by decide,rfl⟩ (.inl ⟨_,rfl,?_⟩)
    exact ⟨_,_,_,_,rfl,rfl,⟨rfl,by simp [hasLength]⟩,.uint32 9,rfl,rfl⟩
  refine ⟨_,_,_,_,rfl,rfl,⟨rfl,by simp [hasLength]⟩,⟨_,rfl,?_⟩,rfl,rfl⟩
  exact ⟨_,_,_,_,rfl,rfl,⟨rfl,by simp [hasLength]⟩,.double 1,rfl,rfl⟩

theorem sampleRoundTrips : RoundTrips sampleEnv 1 sampleFields sampleCells sampleBytes :=
  valueRoundTrips (fun _ => rfl) le_rfl sampleValue

theorem wrappedStringEncodes {s buf : List Byte} {max used : Nat} (clean : 0 ∉ s) (wraps : s.length % 2 ^ 32 = 0)
    (fits : 4 ≤ max) (room : 4 ≤ buf.length) (len : Option (BitVec 32)) :
    encodeStringArray (.chars s) (.at 0) used max len buf = .ok ⟨0,4,splice buf 0 (beBytes 0)⟩ := by
  have count : BitVec.ofNat 32 s.length = 0 := by
    apply BitVec.eq_of_toNat_eq
    rw [BitVec.toNat_ofNat, wraps]
    rfl
  simp only [encodeStringArray,stringBytes,strlenClean clean,count]
  rw [encodeWordAt fits (by omega)]
  simp only [Except.bind,bind]
  rw [if_neg (by omega), if_neg (by simpa [pad] using fits)]
  simp [put,pad]

def stringField : FieldList := .cons .stringArr 0 0 .nil

theorem wrappedStringIsLost {env : Env} {fuel : Nat} {s : List Byte} (clean : 0 ∉ s) (wraps : s.length % 2 ^ 32 = 0)
    (long : 0 < s.length) : ¬ RoundTrips env fuel stringField [.chars s] (stringWire s ++ []) := by
  intro trips
  have size : (stringWire s ++ []).length = 4 + s.length + pad s.length := by
    rw [List.append_nil, stringWireLength]
  have room : (zeros (stringWire s ++ []).length).length = (stringWire s ++ []).length := List.length_replicate
  have claimed := trips.1 _ room
  have short : encodeStringArray (.chars s) (.at 0) 0 (stringWire s ++ []).length
      (some (wordAt env [Val.chars s][0]?)) (zeros (stringWire s ++ []).length) = _ :=
    wrappedStringEncodes clean wraps (by omega) (by omega) _
  simp only [xdrStructEncoder,stringField,encodersOf,encoderOf,structEncoder,structEncodeLoop] at claimed
  rw [if_neg (by simp)] at claimed
  simp only [Dst.advance,sizeSub,Nat.zero_le,if_true,Nat.sub_zero] at claimed
  rw [short] at claimed
  simp only [Except.bind,bind,Except.ok.injEq,Encoded.mk.injEq] at claimed
  omega

def anyStringRules : Rules := {plainRules with string := fun _ => True}

def hugeString : List Byte := List.replicate (2 ^ 32) 1

theorem hugeStringIsLost :
    Value sampleEnv anyStringRules 0 stringField [.chars hugeString] (stringWire hugeString ++ []) ∧
      ¬ RoundTrips sampleEnv 0 stringField [.chars hugeString] (stringWire hugeString ++ []) := by
  have clean : 0 ∉ hugeString := by
    intro mem
    exact absurd (List.eq_of_mem_replicate mem) (by decide)
  have size : hugeString.length = 2 ^ 32 := List.length_replicate
  refine ⟨⟨_,_,_,_,rfl,rfl,⟨rfl,by simp [hasLength]⟩,.chars _ clean trivial,rfl,rfl⟩,?_⟩
  exact wrappedStringIsLost clean (by rw [size, Nat.mod_self]) (by rw [size]; decide)

end LibProc.Xdr
