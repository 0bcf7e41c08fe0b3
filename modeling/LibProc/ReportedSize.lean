import LibProc.XdrResize

/-! The size XDR_struct_encoder reports. After the first field that does not fit, encoding
goes on without a destination through every level of nesting, so the size comes out the
same whatever room there is. An opaque length is padded in an int: where the sum leaves
the int, nothing is said about any size. -/
namespace LibProc.Xdr
open XdrBytes XdrDict

section Values

def Holds (s : Scalar) (v : Val) : Prop := integer s = true ∧ ∃ e, ScalarWire s v e

/- Memory laid out for a field. A pointer to an array or to opaque bytes may be NULL and may lead
to more than the length says; `admits` is what is asked of an opaque length. -/
mutual
def Shaped (env : Env) (admits : Int → Prop) (enter : StructDefinition → Val → Prop) :
    TypeFunctions → BitVec 32 → Val → Prop
  | .scalar s,_,v => Holds s v
  | .array s,len,v => integer s = true ∧
      (v = .null ∨ ∃ vs, v = .array vs ∧ len.toInt.toNat ≤ vs.length ∧ ∀ w ∈ vs, Holds s w)
  | .byteArr,len,v => admits len.toInt ∧ (v = .null ∨ ∃ s, v = .chars s ∧ len.toInt.toNat ≤ s.length)
  | .union,_,v => ∃ type data definition, v = .union type data ∧ env.definitionForType type = some definition ∧
      enter definition data
  | .struct fields,_,v => ∃ cells, v = .struct cells ∧ ShapedAll env admits enter cells fields cells
  | _,_,_ => False
def ShapedAll (env : Env) (admits : Int → Prop) (enter : StructDefinition → Val → Prop) (cells : List Val) :
    FieldList → List Val → Prop
  | .nil,_ => True
  | .cons funcs lenOffset _ rest,vs => ∃ v vs', vs = v :: vs' ∧
      Shaped env admits enter funcs (wordAt env cells[lenOffset]?) v ∧ ShapedAll env admits enter cells rest vs'
end

def ShapedObject (env : Env) (admits : Int → Prop) : Nat → StructDefinition → Val → Prop
  | 0,_,_ => False
  | depth + 1,definition,v => definition.coder = .struct ∧ ∃ cells, v = .struct cells ∧
      ShapedAll env admits (ShapedObject env admits depth) cells definition.fields cells

mutual
def fullSize (env : Env) (enter : StructDefinition → Val → Nat) : TypeFunctions → BitVec 32 → Val → Nat
  | .scalar s,_,_ => width s
  | .array s,len,_ => len.toInt.toNat * width s
  | .byteArr,len,_ => paddedSize len.toInt.toNat
  | .union,_,.union type data => 4 + (env.definitionForType type).elim 0 fun definition => enter definition data
  | .struct fields,_,.struct cells => fullSizes env enter cells fields cells
  | _,_,_ => 0
def fullSizes (env : Env) (enter : StructDefinition → Val → Nat) (cells : List Val) : FieldList → List Val → Nat
  | .cons funcs lenOffset _ rest,v :: vs =>
    fullSize env enter funcs (wordAt env cells[lenOffset]?) v + fullSizes env enter cells rest vs
  | _,_ => 0
end

def objectSize (env : Env) : Nat → StructDefinition → Val → Nat
  | 0,_,_ => 0
  | depth + 1,definition,v => fullSize env (objectSize env depth) (.struct definition.fields) 0 v

end Values

def Inside (pos max : Nat) (buf buf' : List Byte) : Prop :=
  buf'.length = buf.length ∧ ∀ i, i < pos ∨ pos + max ≤ i → buf'[i]? = buf[i]?

section Regions
variable {pos max : Nat} {buf buf' : List Byte}

theorem insideSame : Inside pos max buf buf := ⟨rfl,fun _ _ => rfl⟩

theorem Inside.grow {pos' max' : Nat} (small : Inside pos' max' buf buf') (starts : pos ≤ pos')
    (stops : pos' + max' ≤ pos + max) : Inside pos max buf buf' := by
  refine ⟨small.1,fun i outside => small.2 i ?_⟩
  omega

theorem Inside.trans {buf'' : List Byte} (first : Inside pos max buf buf') (second : Inside pos max buf' buf'') :
    Inside pos max buf buf'' :=
  ⟨second.1.trans first.1,fun i outside => (second.2 i outside).trans (first.2 i outside)⟩

theorem Inside.after {n m : Nat} {buf'' : List Byte} (first : Inside pos n buf buf') (second : Inside (pos + n) m buf' buf'') :
    Inside pos (n + m) buf buf'' :=
  (first.grow le_rfl (by omega)).trans (second.grow (by omega) (by omega))

theorem spliceInside {bs : List Byte} (room : pos + bs.length ≤ buf.length) :
    Inside pos bs.length buf (splice buf pos bs) := by
  refine ⟨spliceLength room,fun i outside => ?_⟩
  have start : (buf.take pos).length = pos := by rw [List.length_take]; omega
  rw [splice, List.append_assoc]
  rcases outside with before | behind
  · rw [List.getElem?_append_left (by omega), List.getElem?_take_of_lt before]
  · rw [List.getElem?_append_right (by omega), List.getElem?_append_right (by omega), List.getElem?_drop, start]
    congr 1
    omega

end Regions

structure Steady (enc : Encoder) (v : Val) (len : Option (BitVec 32)) (n : Nat) (ok : Prop) : Prop where
  sized : ok → ∀ used max buf, ∃ res, enc v .null used max len buf = .ok ⟨res,n,buf⟩
  placed : ok → ∀ pos used max buf, pos + max ≤ buf.length → ∃ res buf' k,
    enc v (.at pos) used max len buf = .ok ⟨res,n,buf'⟩ ∧ Inside pos k buf buf' ∧ k ≤ max ∧ (0 ≤ res → k = n)
  overflows : ¬ok → ∀ used max buf, enc v .null used max len buf = .error .undefined

theorem Steady.congr {enc : Encoder} {v : Val} {len : Option (BitVec 32)} {n : Nat} {ok ok' : Prop}
    (same : ok ↔ ok') (one : Steady enc v len n ok) : Steady enc v len n ok' := by
  rw [← propext same]
  exact one

section Leaves

theorem integerSteady {s : Scalar} {v : Val} (holds : Holds s v) (len : Option (BitVec 32)) :
    Steady (encodeScalar s) v len (width s) True := by
  obtain ⟨whole,e,wire⟩ := holds
  have resizes := integerResizes whole wire len
  have size := scalarWireLength wire
  refine ⟨fun _ used max buf => ?_,fun _ pos used max buf bounds => ?_,fun never => (never trivial).elim⟩
  · rw [← size]
    exact resizes.sized max used buf
  · by_cases room : e.length ≤ max
    · refine ⟨0,splice buf pos e,e.length,?_,spliceInside (by omega),room,fun _ => size⟩
      rw [← size]
      exact resizes.written pos used max buf (roomLoose.mpr room) bounds
    · have short : max < width s := by omega
      cases wire with
      | int32 w => exact ⟨-2,buf,0,encodeWordShort short,insideSame,Nat.zero_le _,fun ok => absurd ok (by decide)⟩
      | uint32 w => exact ⟨-2,buf,0,encodeWordShort short,insideSame,Nat.zero_le _,fun ok => absurd ok (by decide)⟩
      | int64 d =>
        exact ⟨-1,buf,0,encodeInt64Short short used len,insideSame,Nat.zero_le _,fun ok => absurd ok (by decide)⟩
      | uint64 d =>
        exact ⟨-1,buf,0,encodeInt64Short short used len,insideSame,Nat.zero_le _,fun ok => absurd ok (by decide)⟩
      | float w => contradiction
      | double d => contradiction

theorem nullSteady {s : Scalar} (whole : integer s = true) (len : Option (BitVec 32)) :
    Steady (encodeScalar s) .null len (width s) True := by
  have call : ∀ dst used max buf, encodeScalar s .null dst used max len buf = encodeNull (width s) dst buf := by
    intro dst used max buf
    cases s <;> first | rfl | contradiction
  refine ⟨fun _ used max buf => ⟨0,?_⟩,fun _ pos used max buf _ => ?_,fun never => (never trivial).elim⟩
  · rw [call, encodeNull, if_pos rfl]
  · refine ⟨-1,buf,0,?_,insideSame,Nat.zero_le _,fun ok => absurd ok (by decide)⟩
    rw [call, encodeNull, if_neg (by simp)]

def paddable (n : Int) : Prop := 0 ≤ n ∧ n ≤ 2 ^ 31 - 4

theorem bytesSteady {len : BitVec 32} {v : Val} (counted : 0 ≤ len.toInt)
    (there : v = .null ∨ ∃ s, v = .chars s ∧ len.toInt.toNat ≤ s.length) :
    Steady encodeByteArray v (some len) (paddedSize len.toInt.toNat) (paddable len.toInt) := by
  obtain ⟨n,count⟩ : ∃ n : Nat, len.toInt = n := ⟨len.toInt.toNat,by omega⟩
  rw [count] at there ⊢
  rw [Int.toNat_natCast] at there ⊢
  have limit : paddable n ↔ paddedSize n < 2 ^ 31 := by
    unfold paddable paddedSize pad
    have top := BitVec.toInt_lt (x := len)
    omega
  rw [limit]
  refine ⟨fun small used max buf => ⟨-1,?_⟩,fun small pos used max buf bounds => ?_,fun big used max buf => ?_⟩
  · obtain ⟨-,total,-,defined⟩ := byteLengths small
    rcases there with rfl | ⟨s,rfl,-⟩
    · simp only [encodeByteArray,count]
      rw [if_neg defined, total]
    · simp only [encodeByteArray,count]
      rw [if_neg defined, total, if_pos (.inl trivial)]
  · obtain ⟨-,total,whole,defined⟩ := byteLengths small
    rcases there with rfl | ⟨s,rfl,long⟩
    · refine ⟨-1,buf,0,?_,insideSame,Nat.zero_le _,fun ok => absurd ok (by decide)⟩
      simp only [encodeByteArray,count]
      rw [if_neg defined, total]
    by_cases tight : max ≤ paddedSize n
    · refine ⟨-1,buf,0,?_,insideSame,Nat.zero_le _,fun ok => absurd ok (by decide)⟩
      simp only [encodeByteArray,count]
      rw [if_neg defined, total, if_pos (.inr tight)]
    · have cut : (s.take n).length = n := by rw [List.length_take]; omega
      have padding : (bytePadding n).toNat = pad n := by rw [bytePaddingNat]; rfl
      have sum : paddedSize n = n + pad n := rfl
      have zeroed : (List.replicate (pad n) (0 : Byte)).length = pad n := List.length_replicate
      have body : pos + (s.take n).length ≤ buf.length := by omega
      have first := spliceInside body
      rw [cut] at first
      have tail : pos + n + (List.replicate (pad n) (0 : Byte)).length ≤ (splice buf pos (s.take n)).length := by
        rw [zeroed, first.1]
        omega
      have second := spliceInside tail
      rw [zeroed] at second
      refine ⟨0,_,paddedSize n,?_,first.after second,by omega,fun _ => rfl⟩
      simp only [encodeByteArray,count]
      rw [if_neg defined, total, if_neg (by simp; omega), whole, if_neg (by omega), putAt body, padding]
      simp only [Except.bind,bind,Dst.advance]
      rw [putAt tail]
  · simp only [encodeByteArray,count]
    rw [if_pos]
    rw [bytePaddingNat]
    unfold paddedSize at big
    omega

end Leaves

section Arrays
variable {enc : Encoder} {w : Nat}

theorem arrayLoopSized {vs : List Val} (each : ∀ v ∈ vs, Steady enc v none w True) {count : Nat}
    (enough : count ≤ vs.length) (max : Nat) (res : Int) (encLen : Nat) (buf : List Byte) :
    arrayEncodeLoop enc max count vs .null res encLen buf = .ok ⟨res,encLen + count * w,buf⟩ := by
  induction count generalizing vs encLen with
  | zero => simp [arrayEncodeLoop]
  | succ count ih =>
    cases vs with
    | nil => cases enough
    | cons v vs =>
      obtain ⟨res',done⟩ := (each v List.mem_cons_self).sized trivial 0 (sizeSub max encLen) buf
      have more := ih (fun v member => each v (List.mem_cons_of_mem _ member)) (Nat.le_of_succ_le_succ enough) (encLen + w)
      simp only [arrayEncodeLoop]
      rw [if_neg (by simp), done]
      simp only [Except.bind,bind,ite_self]
      rw [more, Nat.succ_mul, Nat.add_assoc, Nat.add_comm w]

theorem arrayLoopPlaced {vs : List Val} (each : ∀ v ∈ vs, Steady enc v none w True) {count : Nat}
    (enough : count ≤ vs.length) {pos max encLen : Nat} (inside : encLen ≤ max) {res : Int} (good : 0 ≤ res)
    {buf : List Byte} (bounds : pos + max ≤ buf.length) : ∃ res' buf' k,
      arrayEncodeLoop enc max count vs (.at pos) res encLen buf = .ok ⟨res',encLen + count * w,buf'⟩ ∧
        Inside (pos + encLen) k buf buf' ∧ encLen + k ≤ max ∧ (0 ≤ res' → k = count * w) := by
  induction count generalizing vs encLen res buf with
  | zero => exact ⟨res,buf,0,by simp [arrayEncodeLoop],insideSame,inside,fun _ => by simp⟩
  | succ count ih =>
    cases vs with
    | nil => cases enough
    | cons v vs =>
      have others : ∀ v ∈ vs, Steady enc v none w True := fun v member => each v (List.mem_cons_of_mem _ member)
      have fewer := Nat.le_of_succ_le_succ enough
      have left : sizeSub max encLen = max - encLen := if_pos inside
      obtain ⟨now,buf',k,done,kept,small,full⟩ :=
        (each v List.mem_cons_self).placed trivial (pos + encLen) 0 (max - encLen) buf (by omega)
      have total : encLen + (count + 1) * w = encLen + w + count * w := by rw [Nat.succ_mul]; omega
      simp only [arrayEncodeLoop]
      rw [if_pos ⟨by simp,good⟩, Dst.advance, left, done, total]
      simp only [Except.bind,bind]
      by_cases failed : now < 0
      · rw [if_pos failed, arrayLoopSized others fewer]
        exact ⟨now,buf',k,rfl,kept,by omega,fun ok => by omega⟩
      · rw [if_neg failed]
        have whole := full (by omega)
        subst whole
        obtain ⟨res',buf'',k',more,kept',small',full'⟩ :=
          ih others fewer (show encLen + k ≤ max by omega) (show 0 ≤ now by omega) (show pos + max ≤ buf'.length by rw [kept.1]; exact bounds)
        rw [← Nat.add_assoc] at kept'
        refine ⟨res',buf'',k + k',more,kept.after kept',by omega,fun ok => ?_⟩
        rw [full' ok, Nat.succ_mul, Nat.add_comm]

theorem elementsSteady {s : Scalar} {len : BitVec 32} {v : Val} (whole : integer s = true)
    (there : v = .null ∨ ∃ vs, v = .array vs ∧ len.toInt.toNat ≤ vs.length ∧ ∀ w ∈ vs, Holds s w) :
    ∃ vs, elements len.toInt.toNat v = some vs ∧ len.toInt.toNat ≤ vs.length ∧
      ∀ w ∈ vs, Steady (encodeElement s) w none (width s) True := by
  rw [integerElement whole]
  rcases there with rfl | ⟨vs,rfl,enough,each⟩
  · refine ⟨_,rfl,by simp,fun w member => ?_⟩
    rw [List.eq_of_mem_replicate member]
    exact nullSteady whole none
  · exact ⟨vs,rfl,enough,fun w member => integerSteady (each w member) none⟩

theorem arraySteady {s : Scalar} {len : BitVec 32} {v : Val} (whole : integer s = true)
    (there : v = .null ∨ ∃ vs, v = .array vs ∧ len.toInt.toNat ≤ vs.length ∧ ∀ w ∈ vs, Holds s w) :
    Steady (encodeArray (encodeElement s)) v (some len) (len.toInt.toNat * width s) True := by
  obtain ⟨vs,content,enough,each⟩ := elementsSteady whole there
  have call : ∀ dst used max buf, encodeArray (encodeElement s) v dst used max (some len) buf =
      arrayEncodeLoop (encodeElement s) max len.toInt.toNat vs dst 0 0 buf := by
    intro dst used max buf
    simp only [encodeArray,arrayEncoder,content]
  refine ⟨fun _ used max buf => ⟨0,?_⟩,fun _ pos used max buf bounds => ?_,fun never => (never trivial).elim⟩
  · rw [call, arrayLoopSized each enough, Nat.zero_add]
  · have loop := arrayLoopPlaced each enough (Nat.zero_le max) le_rfl bounds
    rw [Nat.zero_add, Nat.add_zero] at loop
    simp only [Nat.zero_add] at loop
    rw [call]
    exact loop

end Arrays

section Tables
variable {env : Env} {into : StructDefinition → Encoder} {size : StructDefinition → Val → Nat}

theorem unionSteady {type : BitVec 32} {data : Val} {definition : StructDefinition} {n : Nat} {ok : Prop}
    (registered : env.definitionForType type = some definition) (inner : Steady (into definition) data none n ok)
    (len : Option (BitVec 32)) : Steady (encodeUnion env into) (.union type data) len (4 + n) ok := by
  refine ⟨fun fine used max buf => ?_,fun fine pos used max buf bounds => ?_,fun never used max buf => ?_⟩
  · obtain ⟨res,done⟩ := inner.sized fine 0 max buf
    rw [encodeUnionNull registered, done]
    exact ⟨_,rfl⟩
  · by_cases head : 4 ≤ max
    · have there : pos + (beBytes type).length ≤ buf.length := by rw [beBytesLength]; omega
      have first := spliceInside there
      rw [beBytesLength] at first
      obtain ⟨res,buf',k,done,kept,small,full⟩ :=
        inner.placed fine (pos + 4) 0 (max - 4) (splice buf pos (beBytes type)) (by rw [first.1]; omega)
      rw [encodeUnionAt registered head (by omega), done]
      refine ⟨_,buf',4 + k,rfl,first.after kept,by omega,fun good => ?_⟩
      by_cases failed : res < 0
      · simp [failed] at good
      · rw [full (by omega)]
    · obtain ⟨res,done⟩ := inner.sized fine 0 max buf
      refine ⟨-1,buf,0,?_,insideSame,Nat.zero_le _,fun good => absurd good (by decide)⟩
      simp only [encodeUnion]
      rw [encodeWordShort (by omega)]
      simp [registered,done,bind,Except.bind]
  · rw [encodeUnionNull registered, inner.overflows never]
    rfl

structure FieldsSteady (env : Env) (into : StructDefinition → Encoder) (cells : List Val) (fields : FieldList)
    (vs : List Val) (n : Nat) (ok : Prop) : Prop where
  sized : ok → ∀ dst res max used len buf, dst = .null ∨ res < 0 →
    structEncodeLoop env cells max (encodersOf env into fields) vs dst res used len buf = .ok ⟨res,used + n,buf⟩
  placed : ok → ∀ pos max res used len buf, 0 ≤ res → used ≤ max → pos + max ≤ buf.length → ∃ res' buf' k,
    structEncodeLoop env cells max (encodersOf env into fields) vs (.at pos) res used len buf = .ok ⟨res',used + n,buf'⟩ ∧
      Inside (pos + used) k buf buf' ∧ used + k ≤ max ∧ (0 ≤ res' → k = n)
  overflows : ¬ok → ∀ res max used len buf,
    structEncodeLoop env cells max (encodersOf env into fields) vs .null res used len buf = .error .undefined

theorem FieldsSteady.congr {cells vs : List Val} {fields : FieldList} {n : Nat} {ok ok' : Prop} (same : ok ↔ ok')
    (one : FieldsSteady env into cells fields vs n ok) : FieldsSteady env into cells fields vs n ok' := by
  rw [← propext same]
  exact one

theorem FieldsSteady.nil {cells vs : List Val} : FieldsSteady env into cells .nil vs 0 True where
  sized _ dst res max used len buf _ := by simp [encodersOf,structEncodeLoop]
  placed _ pos max res used len buf _ inside _ :=
    ⟨res,buf,0,by simp [encodersOf,structEncodeLoop],insideSame,inside,fun _ => rfl⟩
  overflows never := (never trivial).elim

theorem FieldsSteady.cons {cells vs : List Val} {funcs : TypeFunctions} {lenOffset structId : Nat} {rest : FieldList}
    {v : Val} {n m : Nat} {ok ok' : Prop}
    (first : Steady (encoderOf env into funcs) v (some (wordAt env cells[lenOffset]?)) n ok)
    (more : FieldsSteady env into cells rest vs m ok') :
    FieldsSteady env into cells (.cons funcs lenOffset structId rest) (v :: vs) (n + m) (ok ∧ ok') := by
  refine ⟨?_,?_,?_⟩
  · intro fine dst res max used len buf sizing
    obtain ⟨res',done⟩ := first.sized fine.1 len max buf
    simp only [encodersOf,structEncodeLoop]
    rw [if_pos sizing, done]
    simp only [Except.bind,bind]
    rw [more.sized fine.2 dst res _ _ _ _ sizing, Nat.add_assoc]
  · intro fine pos max res used len buf good inside bounds
    have left : sizeSub max used = max - used := if_pos inside
    obtain ⟨now,buf',k,done,kept,small,full⟩ := first.placed fine.1 (pos + used) len (max - used) buf (by omega)
    simp only [encodersOf,structEncodeLoop]
    rw [if_neg (by simp; omega), Dst.advance, left, done, ← Nat.add_assoc]
    simp only [Except.bind,bind]
    by_cases failed : now < 0
    · rw [more.sized fine.2 _ _ _ _ _ _ (.inr failed)]
      exact ⟨now,buf',k,rfl,kept,by omega,fun ok => by omega⟩
    · have whole := full (by omega)
      subst whole
      obtain ⟨res',buf'',k',rest',kept',small',full'⟩ :=
        more.placed fine.2 pos max now (used + k) k buf' (by omega) (by omega) (by rw [kept.1]; exact bounds)
      rw [← Nat.add_assoc] at kept'
      exact ⟨res',buf'',k + k',rest',kept.after kept',by omega,fun ok => by rw [full' ok]⟩
  · intro never res max used len buf
    simp only [encodersOf,structEncodeLoop]
    rw [if_pos (.inl trivial)]
    by_cases fine : ok
    · obtain ⟨res',done⟩ := first.sized fine len max buf
      rw [done]
      exact more.overflows (fun fine' => never ⟨fine,fine'⟩) _ _ _ _ _
    · rw [first.overflows fine]
      rfl

theorem FieldsSteady.struct {cells : List Val} {fields : FieldList} {n : Nat} {ok : Prop} (len : Option (BitVec 32))
    (all : FieldsSteady env into cells fields cells n ok) :
    Steady (structEncoder env (encodersOf env into fields)) (.struct cells) len n ok := by
  refine ⟨fun fine used max buf => ⟨0,?_⟩,fun fine pos used max buf bounds => ?_,fun never used max buf => ?_⟩
  · simp only [structEncoder]
    rw [all.sized fine _ _ _ _ _ _ (.inl rfl), Nat.zero_add]
  · have loop := all.placed fine pos max 0 0 0 buf le_rfl (Nat.zero_le max) bounds
    simp only [Nat.zero_add,Nat.add_zero] at loop
    exact loop
  · exact all.overflows never 0 max 0 0 buf

variable {enter fine : StructDefinition → Val → Prop}

mutual
theorem tableSteady (inner : ∀ d v, enter d v → Steady (into d) v none (size d v) (fine d v)) :
    ∀ (funcs : TypeFunctions) (len : BitVec 32) (v : Val), Shaped env (0 ≤ ·) enter funcs len v →
      Steady (encoderOf env into funcs) v (some len) (fullSize env size funcs len v) (Shaped env paddable fine funcs len v)
  | .scalar s,len,v,shaped => (integerSteady shaped (some len)).congr (iff_of_true trivial shaped)
  | .array s,len,v,shaped => (arraySteady shaped.1 shaped.2).congr (iff_of_true trivial shaped)
  | .byteArr,len,v,shaped => (bytesSteady shaped.1 shaped.2).congr (and_iff_left shaped.2).symm
  | .union,len,v,shaped => by
    obtain ⟨type,data,definition,rfl,registered,entered⟩ := shaped
    have union := unionSteady registered (inner definition data entered) (some len)
    simp only [fullSize,registered,Option.elim_some]
    refine union.congr ⟨fun fits => ⟨type,data,definition,rfl,registered,fits⟩,?_⟩
    rintro ⟨type',data',definition',same,registered',fits⟩
    obtain ⟨rfl,rfl⟩ := Val.union.inj same
    cases Option.some.inj (registered.symm.trans registered')
    exact fits
  | .struct fields,len,v,shaped => by
    obtain ⟨cells,rfl,all⟩ := shaped
    have struct := FieldsSteady.struct (some len) (fieldsSteady inner cells fields cells all)
    refine struct.congr ⟨fun fits => ⟨cells,rfl,fits⟩,?_⟩
    rintro ⟨cells',same,fits⟩
    cases Val.struct.inj same
    exact fits
theorem fieldsSteady (inner : ∀ d v, enter d v → Steady (into d) v none (size d v) (fine d v)) (cells : List Val) :
    ∀ (fields : FieldList) (vs : List Val), ShapedAll env (0 ≤ ·) enter cells fields vs →
      FieldsSteady env into cells fields vs (fullSizes env size cells fields vs) (ShapedAll env paddable fine cells fields vs)
  | .nil,vs,_ => FieldsSteady.nil
  | .cons funcs lenOffset structId rest,vs,shaped => by
    obtain ⟨v,vs',rfl,first,more⟩ := shaped
    have both : FieldsSteady env into cells (.cons funcs lenOffset structId rest) (v :: vs') _ _ :=
      FieldsSteady.cons (tableSteady inner funcs _ v first) (fieldsSteady inner cells rest vs' more)
    refine FieldsSteady.congr ⟨fun fits => ⟨v,vs',rfl,fits⟩,?_⟩ both
    rintro ⟨w,ws,same,fits⟩
    obtain ⟨rfl,rfl⟩ := List.cons.inj same
    exact fits
end

end Tables

theorem objectSteady {env : Env} {depth fuel : Nat} (deep : depth ≤ fuel) {definition : StructDefinition} {v : Val}
    (shaped : ShapedObject env (0 ≤ ·) depth definition v) :
    Steady (enterEncoder env fuel definition) v none (objectSize env depth definition v)
      (ShapedObject env paddable depth definition v) := by
  induction depth generalizing fuel definition v with
  | zero => exact shaped.elim
  | succ depth ih =>
    obtain ⟨fuel,rfl⟩ : ∃ n, fuel = n + 1 := ⟨fuel - 1,by omega⟩
    obtain ⟨coder,cells,rfl,all⟩ := shaped
    have inner := fieldsSteady (fun d v entered => ih (Nat.le_of_succ_le_succ deep) entered) cells definition.fields cells all
    simp only [enterEncoder,coder,objectSize,fullSize]
    refine (FieldsSteady.struct none inner).congr ⟨fun fits => ⟨coder,cells,rfl,fits⟩,?_⟩
    rintro ⟨-,cells',same,fits⟩
    cases Val.struct.inj same
    exact fits

def Placed (dst : Dst) (max : Nat) (buf : List Byte) : Prop := dst = .null ∨ ∃ pos, dst = .at pos ∧ pos + max ≤ buf.length

/- XDR_struct_encoder reports `n` and writes nothing at or beyond `dst + max`; when it succeeds it
wrote the `n` bytes it reports. -/
def SizeReported (env : Env) (fuel : Nat) (fields : FieldList) (cells : List Val) (n : Nat) : Prop :=
  ∀ dst max buf, Placed dst max buf → ∃ r, xdrStructEncoder env fuel fields (.struct cells) dst max buf = .ok r ∧
    r.used = n ∧ ∀ pos, dst = .at pos → Inside pos max buf r.buf ∧ (0 ≤ r.res → n ≤ max ∧ Inside pos n buf r.buf)

/- The size is reported just when every opaque length can be padded in an int. -/
theorem sizeReportedIff {env : Env} {depth fuel : Nat} (deep : depth ≤ fuel) {fields : FieldList} {cells : List Val}
    (shaped : ShapedAll env (0 ≤ ·) (ShapedObject env (0 ≤ ·) depth) cells fields cells) :
    SizeReported env fuel fields cells (fullSizes env (objectSize env depth) cells fields cells) ↔
      ShapedAll env paddable (ShapedObject env paddable depth) cells fields cells := by
  have steady := FieldsSteady.struct none
    (fieldsSteady (fun d v entered => objectSteady deep entered) cells fields cells shaped)
  constructor
  · intro reports
    by_contra big
    obtain ⟨r,done,-⟩ := reports .null 0 [] (.inl rfl)
    rw [xdrStructEncoder, steady.overflows big] at done
    cases done
  · rintro fits dst max buf (rfl | ⟨pos,rfl,bounds⟩)
    · obtain ⟨res,done⟩ := steady.sized fits 0 max buf
      exact ⟨_,done,rfl,fun pos same => by cases same⟩
    · obtain ⟨res,buf',k,done,kept,small,full⟩ := steady.placed fits pos 0 max buf bounds
      refine ⟨_,done,rfl,fun pos' same => ?_⟩
      cases same
      refine ⟨kept.grow le_rfl (by omega),fun good => ?_⟩
      have whole := full good
      subst whole
      exact ⟨small,kept⟩

def reportedFields : FieldList := .cons (.scalar .int32) 0 0 (.cons .byteArr 0 0 (.cons .union 2 0 .nil))

def reportedCells : List Val := [.word 2,.chars [8,9],.union 7 (.struct [.word 9])]

theorem reportedShape {admits : Int → Prop} (two : admits 2) : ShapedAll sampleEnv admits
    (ShapedObject sampleEnv admits 1) reportedCells reportedFields reportedCells := by
  have object : ShapedObject sampleEnv admits 1 ⟨4,.struct,.cons (.scalar .uint32) 0 0 .nil⟩ (.struct [.word 9]) :=
    ⟨rfl,_,rfl,_,_,rfl,⟨rfl,_,.uint32 9⟩,trivial⟩
  exact ⟨_,_,rfl,⟨rfl,_,.int32 2⟩,_,_,rfl,⟨two,.inr ⟨_,rfl,by decide⟩⟩,_,_,rfl,⟨_,_,_,rfl,rfl,object⟩,trivial⟩

theorem reportedSixteen : SizeReported sampleEnv 1 reportedFields reportedCells 16 :=
  (sizeReportedIff le_rfl (reportedShape (by decide))).mpr (reportedShape ⟨by decide,by decide⟩)

def hugeFields : FieldList := .cons (.scalar .int32) 0 0 (.cons .byteArr 0 0 .nil)

def hugeCells : List Val := [.word 2147483645,.chars (List.replicate 2147483645 0)]

theorem hugeOpaqueUnreported : ShapedAll sampleEnv (0 ≤ ·) (ShapedObject sampleEnv (0 ≤ ·) 0) hugeCells hugeFields hugeCells ∧
    ¬SizeReported sampleEnv 0 hugeFields hugeCells (fullSizes sampleEnv (objectSize sampleEnv 0) hugeCells hugeFields hugeCells) := by
  have length : (2147483645 : BitVec 32).toInt = 2147483645 := by decide
  refine ⟨⟨_,_,rfl,⟨rfl,_,.int32 _⟩,_,_,rfl,⟨?_,.inr ⟨_,rfl,?_⟩⟩,trivial⟩,fun reports => ?_⟩
  · exact length.ge.trans' (by decide)
  · rw [List.length_replicate]
    exact le_of_eq (by rw [show wordAt sampleEnv hugeCells[0]? = 2147483645 from rfl, length]; rfl)
  obtain ⟨r,done,-⟩ := reports .null 0 [] (.inl rfl)
  have stops : encodeByteArray (.chars (List.replicate 2147483645 0)) .null 4 0 (some 2147483645) [] =
      .error .undefined := by
    simp only [encodeByteArray,length]
    rw [if_pos (by decide)]
  have first : xdrStructEncoder sampleEnv 0 hugeFields (.struct hugeCells) .null 0 [] = (do
      let r ← encodeByteArray (.chars (List.replicate 2147483645 0)) .null 4 0 (some 2147483645) []
      .ok ⟨0,4 + r.used,r.buf⟩) := rfl
  rw [first, stops] at done
  cases done

end LibProc.Xdr
