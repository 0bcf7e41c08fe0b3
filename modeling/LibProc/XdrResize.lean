import LibProc.XdrSizing

/-! One encoder, every buffer. Integers, opaque arrays, arrays, structs and unions of these
report the size of their encoding whatever room they get, write it when there is
enough, and fail when there is not. An opaque array asks for one byte more than it
writes, which shows only where nothing comes after it. -/
namespace LibProc.Xdr
open XdrBytes XdrDict

def Room (tight : Prop) (n max : Nat) : Prop := n ≤ max ∧ (tight → n < max)

theorem roomSum {tight tight' : Prop} {n m max : Nat} :
    Room (tight' ∨ tight ∧ m = 0) (n + m) max ↔ Room tight n max ∧ Room tight' m (max - n) := by
  unfold Room
  by_cases first : tight <;> by_cases second : tight' <;> simp [first,second] <;> omega

theorem roomLoose {n max : Nat} : Room False n max ↔ n ≤ max := by
  simp [Room]

structure Resizes (enc : Encoder) (v : Val) (len : Option (BitVec 32)) (e : List Byte) (tight : Prop) : Prop where
  sized : ∀ max, Sized enc v len max e.length
  written : ∀ pos used max buf, Room tight e.length max → pos + max ≤ buf.length →
    enc v (.at pos) used max len buf = .ok ⟨0,e.length,splice buf pos e⟩
  refused : ∀ pos used max buf, ¬ Room tight e.length max → pos + max ≤ buf.length →
    ∃ res buf', res < 0 ∧ buf'.length = buf.length ∧ enc v (.at pos) used max len buf = .ok ⟨res,e.length,buf'⟩

theorem Resizes.unique {enc : Encoder} {v : Val} {len : Option (BitVec 32)} {e e' : List Byte} {tight tight' : Prop}
    (one : Resizes enc v len e tight) (two : Resizes enc v len e' tight') : e.length = e'.length := by
  obtain ⟨res,done⟩ := one.sized 0 0 []
  obtain ⟨res',done'⟩ := two.sized 0 0 []
  rw [done] at done'
  simp only [Except.ok.injEq,Encoded.mk.injEq] at done'
  exact done'.2.1

theorem Resizes.congr {enc : Encoder} {v : Val} {len : Option (BitVec 32)} {e : List Byte} {tight tight' : Prop}
    (same : tight ↔ tight') (one : Resizes enc v len e tight) : Resizes enc v len e tight' := by
  rw [← propext same]
  exact one

theorem encodeWordShort {w : BitVec 32} {pos max : Nat} {buf : List Byte} (short : max < 4) :
    encodeWord w (.at pos) max buf = .ok ⟨-2,4,buf⟩ := by
  simp only [encodeWord]
  rw [if_neg (by simp), if_pos short]

theorem encodeInt64Short {d : BitVec 64} {pos max : Nat} {buf : List Byte} (short : max < 8) (used : Nat)
    (len : Option (BitVec 32)) : encodeInt64 (.dword d) (.at pos) used max len buf = .ok ⟨-1,8,buf⟩ := by
  simp only [encodeInt64]
  rw [if_neg (by simp), if_pos short]

def integer : Scalar → Bool
  | .float => false
  | .double => false
  | _ => true

theorem integerResizes {s : Scalar} (whole : integer s = true) {v : Val} {e : List Byte} (wire : ScalarWire s v e)
    (len : Option (BitVec 32)) : Resizes (encodeScalar s) v len e False where
  sized max := (scalarMode wire max len).sized.mpr (by cases s <;> trivial)
  written pos used max buf room bounds :=
    scalarEncodes wire len pos used max buf room.1 (le_trans (Nat.add_le_add_left room.1 pos) bounds)
  refused pos used max buf short _ := by
    rw [roomLoose, scalarWireLength wire] at short
    rw [scalarWireLength wire]
    cases wire with
    | int32 w => exact ⟨-2,buf,by decide,rfl,encodeWordShort (not_le.mp short)⟩
    | uint32 w => exact ⟨-2,buf,by decide,rfl,encodeWordShort (not_le.mp short)⟩
    | int64 d => exact ⟨-1,buf,by decide,rfl,encodeInt64Short (not_le.mp short) used len⟩
    | uint64 d => exact ⟨-1,buf,by decide,rfl,encodeInt64Short (not_le.mp short) used len⟩
    | float w => contradiction
    | double d => contradiction

theorem encodeByteArrayLoose {b buf : List Byte} {len : BitVec 32} {pos used max : Nat} (counted : len.toInt = b.length)
    (small : paddedSize b.length < 2 ^ 31) (room : paddedSize b.length < max) (fits : pos + paddedSize b.length ≤ buf.length) :
    encodeByteArray (.chars b) (.at pos) used max (some len) buf =
      .ok ⟨0,paddedSize b.length,splice buf pos (b ++ zeros (pad b.length))⟩ := by
  obtain ⟨_,total,count,defined⟩ := byteLengths small
  have padding : (bytePadding b.length).toNat = pad b.length := by
    rw [bytePaddingNat]
    rfl
  unfold paddedSize at fits
  have inside : pos + b.length ≤ buf.length := by omega
  have length1 := spliceLength inside
  have zeroed : pos + b.length + (zeros (pad b.length)).length ≤ (splice buf pos b).length := by
    simp only [zeros,List.length_replicate]
    omega
  simp only [encodeByteArray,counted]
  rw [if_neg defined, total, if_neg (by simp; omega), count, if_neg (by omega), List.take_length, putAt inside, padding]
  simp only [Except.bind,bind,Dst.advance]
  unfold zeros at zeroed ⊢
  rw [putAt zeroed]
  simp only
  rw [spliceAppend inside]

theorem bytesResizes {rules : Rules} (none_ : ¬ rules.nullBytes) {len : BitVec 32} {v : Val} {e : List Byte}
    (wire : BytesWire rules len.toInt v e) : Resizes encodeByteArray v (some len) e True where
  sized max := (bytesMode wire max).sized.mpr trivial
  written pos used max buf room bounds := by
    generalize count : len.toInt = n at wire
    cases wire with
    | chars s counted small =>
      subst counted
      have size : (s ++ zeros (pad s.length)).length = paddedSize s.length := by simp [zeros,paddedSize]
      rw [size] at room ⊢
      exact encodeByteArrayLoose count small (room.2 trivial) (le_trans (Nat.add_le_add_left room.1 pos) bounds)
    | null allowed _ => exact (none_ allowed).elim
  refused pos used max buf short _ := by
    generalize count : len.toInt = n at wire
    cases wire with
    | chars s counted small =>
      subst counted
      have size : (s ++ zeros (pad s.length)).length = paddedSize s.length := by simp [zeros,paddedSize]
      rw [size] at short ⊢
      refine ⟨-1,buf,by decide,rfl,encodeByteArrayTight count small ?_⟩
      by_contra less
      exact short ⟨by omega,fun _ => by omega⟩
    | null allowed _ => exact (none_ allowed).elim

section Arrays
variable {enc : Encoder} {wire : Val → List Byte → Prop} {tight : Val → Prop}

def tightEach (tight : Val → Prop) (wire : Val → List Byte → Prop) : List Val → Prop
  | [] => False
  | v :: vs => tightEach tight wire vs ∨ tight v ∧ ∀ w ∈ vs, wire w []

theorem looseEach {vs : List Val} : ¬ tightEach (fun _ => False) wire vs := by
  induction vs with
  | nil => exact id
  | cons v vs ih => simp [tightEach,ih]

theorem eachEmpty (inner : ∀ v e, wire v e → Resizes enc v none e (tight v)) {vs : List Val} {es : List (List Byte)}
    (each : List.Forall₂ wire vs es) : (∀ w ∈ vs, wire w []) ↔ es.flatten.length = 0 := by
  induction each with
  | nil => simp
  | @cons v e vs es first more ih =>
    rw [List.flatten_cons, List.length_append, Nat.add_eq_zero_iff, ← ih, List.forall_mem_cons]
    refine and_congr_left fun _ => ⟨?_,?_⟩
    · intro empty
      exact (inner v e first).unique (inner v [] empty)
    · intro empty
      rw [List.length_eq_zero_iff] at empty
      exact empty ▸ first

theorem arrayLoopNull (inner : ∀ v e, wire v e → Resizes enc v none e (tight v)) {vs : List Val} {es : List (List Byte)}
    (each : List.Forall₂ wire vs es) (max encLen : Nat) (res : Int) (buf : List Byte) :
    arrayEncodeLoop enc max vs.length vs .null res encLen buf = .ok ⟨res,encLen + es.flatten.length,buf⟩ := by
  induction each generalizing encLen with
  | nil => simp [arrayEncodeLoop]
  | @cons v e vs es first more ih =>
    obtain ⟨res',done⟩ := (inner v e first).sized (sizeSub max encLen) 0 buf
    simp only [arrayEncodeLoop,List.length_cons]
    rw [if_neg (by simp), done]
    simp only [Except.bind,bind,ite_self]
    rw [ih, List.flatten_cons, List.length_append, Nat.add_assoc]

theorem arrayLoopResizes (inner : ∀ v e, wire v e → Resizes enc v none e (tight v)) {vs : List Val}
    {es : List (List Byte)} (each : List.Forall₂ wire vs es) {pos max encLen : Nat} {buf : List Byte}
    (inside : encLen ≤ max) (bounds : pos + max ≤ buf.length) :
    (Room (tightEach tight wire vs) es.flatten.length (max - encLen) →
      arrayEncodeLoop enc max vs.length vs (.at pos) 0 encLen buf =
        .ok ⟨0,encLen + es.flatten.length,splice buf (pos + encLen) es.flatten⟩) ∧
    (¬ Room (tightEach tight wire vs) es.flatten.length (max - encLen) → ∃ res buf', res < 0 ∧
      buf'.length = buf.length ∧ arrayEncodeLoop enc max vs.length vs (.at pos) 0 encLen buf =
        .ok ⟨res,encLen + es.flatten.length,buf'⟩) := by
  induction each generalizing encLen buf with
  | nil =>
    refine ⟨fun _ => ?_,fun short => (short ⟨by simp,False.elim⟩).elim⟩
    simp only [arrayEncodeLoop,List.length_nil,List.flatten_nil]
    rw [spliceNil, Nat.add_zero]
  | @cons v e vs es first more ih =>
    have resizes := inner v e first
    have empty := eachEmpty inner more
    have split : Room (tightEach tight wire (v :: vs)) (e ++ es.flatten).length (max - encLen) ↔
        Room (tight v) e.length (max - encLen) ∧ Room (tightEach tight wire vs) es.flatten.length (max - encLen - e.length) := by
      rw [← roomSum, List.length_append, ← empty]
      rfl
    have left : sizeSub max encLen = max - encLen := if_pos inside
    rw [List.flatten_cons, split]
    simp only [arrayEncodeLoop,List.length_cons]
    rw [if_pos (by simp), Dst.advance, left, List.length_append, ← Nat.add_assoc]
    by_cases fits : Room (tight v) e.length (max - encLen)
    · have reach := fits.1
      have length1 : (splice buf (pos + encLen) e).length = buf.length := spliceLength (by omega)
      have more : (_ → arrayEncodeLoop enc max vs.length vs (.at pos) 0 (encLen + e.length)
          (splice buf (pos + encLen) e) = _) ∧ _ := ih (by omega) (by omega)
      rw [resizes.written (pos + encLen) 0 _ buf fits (by omega)]
      simp only [Except.bind,bind]
      rw [if_neg (by omega)]
      rw [← Nat.sub_sub, ← Nat.add_assoc, spliceAppend (by omega), length1] at more
      exact ⟨fun room => more.1 room.2,fun short => more.2 fun room => short ⟨fits,room⟩⟩
    · refine ⟨fun room => (fits room.1).elim,fun _ => ?_⟩
      obtain ⟨res,buf',failed,length1,done⟩ := resizes.refused (pos + encLen) 0 _ buf fits (by omega)
      refine ⟨res,buf',failed,length1,?_⟩
      rw [done]
      simp only [Except.bind,bind]
      rw [if_pos failed, arrayLoopNull inner more]

theorem arrayResizes (inner : ∀ v e, wire v e → Resizes enc v none e (tight v)) {len : BitVec 32} {v : Val}
    {e : List Byte} (array : ArrayWire wire len.toInt v e) :
    Resizes (encodeArray enc) v (some len) e (∃ vs, v = .array vs ∧ tightEach tight wire vs) := by
  cases array with
  | array vs es counted each =>
    have call : ∀ dst used max buf, encodeArray enc (.array vs) dst used max (some len) buf =
        arrayEncodeLoop enc max vs.length vs dst 0 0 buf := by
      intro dst used max buf
      simp only [encodeArray,arrayEncoder,elements,counted]
    have same : tightEach tight wire vs ↔ ∃ vs', Val.array vs = .array vs' ∧ tightEach tight wire vs' := by simp
    refine Resizes.congr same ⟨?_,?_,?_⟩
    · intro max used buf
      refine ⟨0,?_⟩
      rw [call, arrayLoopNull inner each, Nat.zero_add]
    · intro pos used max buf room bounds
      have loop := arrayLoopResizes inner each (Nat.zero_le max) bounds
      rw [Nat.zero_add, Nat.add_zero, Nat.sub_zero] at loop
      rw [call]
      exact loop.1 room
    · intro pos used max buf short bounds
      have loop := arrayLoopResizes inner each (Nat.zero_le max) bounds
      rw [Nat.zero_add, Nat.add_zero, Nat.sub_zero] at loop
      rw [call]
      exact loop.2 short
  | null none =>
    have same : False ↔ ∃ vs, Val.null = .array vs ∧ tightEach tight wire vs := by simp
    refine Resizes.congr same ⟨?_,?_,?_⟩
    · intro max used buf
      exact ⟨0,by simp [encodeArray,arrayEncoder,elements,none,arrayEncodeLoop]⟩
    · intro pos used max buf room bounds
      simp only [encodeArray,arrayEncoder,none,elements,List.replicate_zero,arrayEncodeLoop,List.length_nil]
      rw [spliceNil]
    · intro pos used max buf short
      exact (short (roomLoose.mpr (Nat.zero_le max))).elim

end Arrays

section Unions
variable {env : Env} {rules : Rules} {enter : StructDefinition → Val → List Byte → Prop}
  {into : StructDefinition → Encoder} {tight : StructDefinition → Val → Prop}

def tightUnion (env : Env) (tight : StructDefinition → Val → Prop) (v : Val) : Prop :=
  ∃ type data d, v = .union type data ∧ env.definitionForType type = some d ∧ tight d data

theorem unionResizes (inner : ∀ d v e, enter d v e → Resizes (into d) v none e (tight d v)) {v : Val} {e : List Byte}
    (wire : UnionWire env rules enter v e) (len : Option (BitVec 32)) :
    Resizes (encodeUnion env into) v len e (tightUnion env tight v) := by
  obtain ⟨type,data,definition,body,registered,admitted,wired⟩ := wire
  have resizes := inner definition data body wired
  have same : tight definition data ↔ tightUnion env tight (.union type data) := (unionObjectIff registered).symm
  have size : (beBytes type ++ body).length = 4 + body.length := by rw [List.length_append, beBytesLength]
  have split : ∀ max, Room (tight definition data) (4 + body.length) max ↔
      4 ≤ max ∧ Room (tight definition data) body.length (max - 4) := by
    intro max
    constructor
    · rintro ⟨le,strict⟩
      exact ⟨by omega,by omega,fun holds => by have := strict holds; omega⟩
    · rintro ⟨four,le,strict⟩
      exact ⟨by omega,fun holds => by have := strict holds; omega⟩
  refine Resizes.congr same ⟨?_,?_,?_⟩
  · intro max used buf
    obtain ⟨res,done⟩ := resizes.sized max 0 buf
    rw [size, encodeUnionNull registered, done]
    exact ⟨_,rfl⟩
  · intro pos used max buf room bounds
    rw [size, split] at room
    have first : pos + (beBytes type).length ≤ buf.length := by
      rw [beBytesLength]
      omega
    have length1 := spliceLength first
    have both := spliceAppend (b := body) first
    rw [beBytesLength] at both
    rw [encodeUnionAt registered room.1 (by omega), resizes.written (pos + 4) 0 (max - 4) _ room.2 (by omega), size]
    simp only [Except.bind,bind,lt_self_iff_false,if_false]
    rw [both]
  · intro pos used max buf short bounds
    rw [size, split] at short
    rw [size]
    by_cases head : 4 ≤ max
    · have first : pos + (beBytes type).length ≤ buf.length := by
        rw [beBytesLength]
        omega
      have length1 := spliceLength first
      obtain ⟨res,buf',failed,length2,done⟩ := resizes.refused (pos + 4) 0 (max - 4) (splice buf pos (beBytes type))
        (fun room => short ⟨head,room⟩) (by omega)
      refine ⟨-1,buf',by decide,length2.trans length1,?_⟩
      rw [encodeUnionAt registered head (by omega), done]
      simp only [Except.bind,bind]
      rw [if_pos failed]
    · obtain ⟨res,done⟩ := resizes.sized max 0 buf
      refine ⟨-1,buf,by decide,rfl,?_⟩
      simp only [encodeUnion]
      rw [encodeWordShort (by omega)]
      simp [registered,done,bind,Except.bind]

end Unions

section Fields
variable {env : Env} {into : StructDefinition → Encoder}

structure FieldsResize (env : Env) (into : StructDefinition → Encoder) (cells : List Val) (fields : FieldList)
    (vs : List Val) (e : List Byte) (tight : Prop) : Prop where
  sized : ∀ dst res max used len buf, dst = .null ∨ res < 0 →
    structEncodeLoop env cells max (encodersOf env into fields) vs dst res used len buf = .ok ⟨res,used + e.length,buf⟩
  written : ∀ pos max used len buf, used ≤ max → Room tight e.length (max - used) → pos + max ≤ buf.length →
    structEncodeLoop env cells max (encodersOf env into fields) vs (.at pos) 0 used len buf =
      .ok ⟨0,used + e.length,splice buf (pos + used) e⟩
  refused : ∀ pos max used len buf, used ≤ max → ¬ Room tight e.length (max - used) → pos + max ≤ buf.length →
    ∃ res buf', res < 0 ∧ buf'.length = buf.length ∧
      structEncodeLoop env cells max (encodersOf env into fields) vs (.at pos) 0 used len buf =
        .ok ⟨res,used + e.length,buf'⟩

theorem FieldsResize.unique {cells vs : List Val} {fields : FieldList} {e e' : List Byte} {tight tight' : Prop}
    (one : FieldsResize env into cells fields vs e tight) (two : FieldsResize env into cells fields vs e' tight') :
    e.length = e'.length := by
  have same := (one.sized .null 0 0 0 0 [] (.inl rfl)).symm.trans (two.sized .null 0 0 0 0 [] (.inl rfl))
  simp only [Except.ok.injEq,Encoded.mk.injEq] at same
  omega

theorem FieldsResize.nil {cells : List Val} : FieldsResize env into cells .nil [] [] False where
  sized dst res max used len buf _ := by simp [encodersOf,structEncodeLoop]
  written pos max used len buf _ _ _ := by
    simp only [encodersOf,structEncodeLoop,List.length_nil]
    rw [spliceNil, Nat.add_zero]
  refused pos max used len buf _ short _ := (short (roomLoose.mpr (Nat.zero_le _))).elim

theorem FieldsResize.cons {cells vs : List Val} {funcs : TypeFunctions} {lenOffset structId : Nat} {rest : FieldList}
    {v : Val} {a b : List Byte} {tight tight' : Prop}
    (first : Resizes (encoderOf env into funcs) v (some (wordAt env cells[lenOffset]?)) a tight)
    (more : FieldsResize env into cells rest vs b tight') :
    FieldsResize env into cells (.cons funcs lenOffset structId rest) (v :: vs) (a ++ b)
      (tight' ∨ tight ∧ b.length = 0) := by
  have split : ∀ max used, Room (tight' ∨ tight ∧ b.length = 0) (a ++ b).length (max - used) ↔
      Room tight a.length (max - used) ∧ Room tight' b.length (max - (used + a.length)) := by
    intro max used
    rw [List.length_append, roomSum, Nat.sub_sub]
  have size : ∀ used, used + (a ++ b).length = used + a.length + b.length := by
    intro used
    rw [List.length_append, Nat.add_assoc]
  refine ⟨?_,?_,?_⟩
  · intro dst res max used len buf sizing
    obtain ⟨res',done⟩ := first.sized max len buf
    simp only [encodersOf,structEncodeLoop]
    rw [if_pos sizing, done]
    simp only [Except.bind,bind]
    rw [more.sized dst res _ _ _ _ sizing, size]
  · intro pos max used len buf inside room bounds
    rw [split] at room
    have reach := room.1.1
    have left : sizeSub max used = max - used := if_pos inside
    have length1 : (splice buf (pos + used) a).length = buf.length := spliceLength (by omega)
    simp only [encodersOf,structEncodeLoop]
    rw [if_neg (by simp), Dst.advance, left, first.written (pos + used) len _ buf room.1 (by omega)]
    simp only [Except.bind,bind]
    rw [more.written pos max (used + a.length) _ _ (by omega) room.2 (by omega), size, ← Nat.add_assoc,
      spliceAppend (by omega)]
  · intro pos max used len buf inside short bounds
    rw [split] at short
    have left : sizeSub max used = max - used := if_pos inside
    simp only [encodersOf,structEncodeLoop]
    rw [if_neg (by simp), Dst.advance, left, size]
    by_cases fits : Room tight a.length (max - used)
    · have reach := fits.1
      have length1 : (splice buf (pos + used) a).length = buf.length := spliceLength (by omega)
      rw [first.written (pos + used) len _ buf fits (by omega)]
      simp only [Except.bind,bind]
      rw [← length1]
      exact more.refused pos max (used + a.length) _ _ (by omega) (fun room => short ⟨fits,room⟩) (by omega)
    · obtain ⟨res,buf',failed,length1,done⟩ := first.refused (pos + used) len _ buf fits (by omega)
      refine ⟨res,buf',failed,length1,?_⟩
      rw [done]
      simp only [Except.bind,bind]
      exact more.sized _ res _ _ _ _ (.inr failed)

theorem FieldsResize.struct {cells : List Val} {fields : FieldList} {e : List Byte} {tight : Prop}
    (len : Option (BitVec 32)) (all : FieldsResize env into cells fields cells e tight) :
    Resizes (structEncoder env (encodersOf env into fields)) (.struct cells) len e tight := by
  refine ⟨?_,?_,?_⟩
  · intro max used buf
    refine ⟨0,?_⟩
    simp only [structEncoder]
    rw [all.sized _ _ _ _ _ _ (.inl rfl), Nat.zero_add]
  · intro pos used max buf room bounds
    simp only [structEncoder]
    rw [all.written pos max 0 0 buf (Nat.zero_le max) room bounds, Nat.zero_add, Nat.add_zero]
  · intro pos used max buf short bounds
    have loop := all.refused pos max 0 0 buf (Nat.zero_le max) short bounds
    rw [Nat.zero_add] at loop
    exact loop

end Fields

def resizable : TypeFunctions → Bool
  | .scalar s => integer s
  | .array s => integer s
  | .byteArr => true
  | .union => true
  | .unionArr => true
  | .struct _ => true
  | .structArr _ => true
  | _ => false

/- Values built from integers and opaque arrays. An opaque array is never a NULL pointer:
that one is not encoded into any buffer. -/
def resizeRules : Rules where
  field funcs _ _ _ := resizable funcs = true
  string _ := True
  definition _ := True
  nullObject := True
  nullBytes := False

mutual
def endsOpaque (env : Env) (enter : StructDefinition → Val → List Byte → Prop) (tight : StructDefinition → Val → Prop) :
    TypeFunctions → Val → Prop
  | .byteArr,_ => True
  | .union,v => tightUnion env tight v
  | .unionArr,v => tightUnion env tight v
  | .struct fields,v => ∃ cells, v = .struct cells ∧ endOpaque env enter tight cells fields 0 cells
  | .structArr fields,v => ∃ vs, v = .array vs ∧
      tightEach (fun v => ∃ cells, v = .struct cells ∧ endOpaque env enter tight cells fields 0 cells)
        (fun v e => ∃ cells, v = .struct cells ∧ wiresOf env resizeRules enter cells fields 0 cells e) vs
  | _,_ => False
def endOpaque (env : Env) (enter : StructDefinition → Val → List Byte → Prop) (tight : StructDefinition → Val → Prop)
    (cells : List Val) : FieldList → Nat → List Val → Prop
  | .cons funcs _ _ rest,i,v :: vs => endOpaque env enter tight cells rest (i + 1) vs ∨
      endsOpaque env enter tight funcs v ∧ wiresOf env resizeRules enter cells rest (i + 1) vs []
  | _,_,_ => False
end

section Tables
variable {env : Env} {enter : StructDefinition → Val → List Byte → Prop} {into : StructDefinition → Encoder}
  {tight : StructDefinition → Val → Prop}

theorem integerElement {s : Scalar} (whole : integer s = true) : encodeElement s = encodeScalar s := by
  cases s <;> first | rfl | contradiction

mutual
theorem tableResizes (inner : ∀ d v e, enter d v e → Resizes (into d) v none e (tight d v)) :
    ∀ (funcs : TypeFunctions) (len : BitVec 32) (v : Val) (e : List Byte), resizable funcs = true →
      wireOf env resizeRules enter funcs len v e →
      Resizes (encoderOf env into funcs) v (some len) e (endsOpaque env enter tight funcs v)
  | .scalar s,len,v,e,whole,wire => integerResizes whole wire _
  | .array s,len,v,e,whole,wire => by
    have none_ : (∃ vs, v = .array vs ∧ tightEach (fun _ => False) (ScalarWire s) vs) ↔ False := by
      simp [looseEach]
    simp only [encoderOf,integerElement whole]
    exact Resizes.congr none_ (arrayResizes (fun v e scalar => integerResizes whole scalar none) wire)
  | .byteArr,len,v,e,_,wire => bytesResizes id wire
  | .union,len,v,e,_,wire => unionResizes inner wire _
  | .unionArr,len,v,e,_,wire => unionResizes inner wire _
  | .struct fields,len,v,e,_,wire => structResizes inner fields (some len) v e wire
  | .structArr fields,len,v,e,_,wire => arrayResizes (fun v e wire => structResizes inner fields none v e wire) wire
theorem structResizes (inner : ∀ d v e, enter d v e → Resizes (into d) v none e (tight d v)) :
    ∀ (fields : FieldList) (len : Option (BitVec 32)) (v : Val) (e : List Byte),
      (∃ cells, v = .struct cells ∧ wiresOf env resizeRules enter cells fields 0 cells e) →
      Resizes (structEncoder env (encodersOf env into fields)) v len e
        (∃ cells, v = .struct cells ∧ endOpaque env enter tight cells fields 0 cells)
  | fields,len,v,e,wire => by
    obtain ⟨cells,rfl,wires⟩ := wire
    have same : endOpaque env enter tight cells fields 0 cells ↔
        ∃ cells', Val.struct cells = .struct cells' ∧ endOpaque env enter tight cells' fields 0 cells' := by
      simp
    exact Resizes.congr same (FieldsResize.struct len (fieldsResize inner fields 0 cells cells e wires))
theorem fieldsResize (inner : ∀ d v e, enter d v e → Resizes (into d) v none e (tight d v)) :
    ∀ (fields : FieldList) (i : Nat) (cells vs : List Val) (e : List Byte),
      wiresOf env resizeRules enter cells fields i vs e →
      FieldsResize env into cells fields vs e (endOpaque env enter tight cells fields i vs)
  | .nil,i,cells,vs,e,wires => by
    obtain ⟨rfl,rfl⟩ := wires
    exact FieldsResize.nil
  | .cons funcs lenOffset structId rest,i,cells,vs,e,wires => by
    obtain ⟨v,vs',a,b,rfl,rfl,admitted,first,more⟩ := wires
    have others := fieldsResize inner rest (i + 1) cells vs' b more
    have empty : wiresOf env resizeRules enter cells rest (i + 1) vs' [] ↔ b.length = 0 := by
      constructor
      · exact fun nothing => others.unique (fieldsResize inner rest (i + 1) cells vs' [] nothing)
      · intro zero
        rw [List.length_eq_zero_iff] at zero
        exact zero ▸ more
    have both : FieldsResize env into cells (.cons funcs lenOffset structId rest) (v :: vs') (a ++ b) _ :=
      FieldsResize.cons (tableResizes inner funcs _ v a admitted first) others
    rw [← empty] at both
    exact both
end

end Tables

def objectEndsOpaque (env : Env) : Nat → StructDefinition → Val → Prop
  | 0,_,_ => False
  | depth + 1,definition,v => match definition.coder with
    | .struct => ∃ cells, v = .struct cells ∧
        endOpaque env (objectWire env resizeRules depth) (objectEndsOpaque env depth) cells definition.fields 0 cells
    | .bitfieldStruct => False

theorem Resizes.ofEq {enc enc' : Encoder} {v v' : Val} {len : Option (BitVec 32)} {e : List Byte} {tight : Prop}
    (same : ∀ dst used max buf, enc v dst used max len buf = enc' v' dst used max len buf)
    (one : Resizes enc' v' len e tight) : Resizes enc v len e tight where
  sized max used buf := same .null used max buf ▸ one.sized max used buf
  written pos used max buf room bounds := (same _ _ _ _).trans (one.written pos used max buf room bounds)
  refused pos used max buf short bounds := same (.at pos) used max buf ▸ one.refused pos used max buf short bounds

theorem emptyResizes (env : Env) (len : Option (BitVec 32)) : Resizes (structEncoder env []) .null len [] False where
  sized _ _ _ := ⟨0,rfl⟩
  written pos used max buf _ _ := by
    rw [spliceNil]
    rfl
  refused _ _ max _ short _ := (short (roomLoose.mpr (Nat.zero_le max))).elim

theorem objectResizes {env : Env} {depth fuel : Nat} (deep : depth ≤ fuel) {d : StructDefinition} {v : Val}
    {e : List Byte} (wire : objectWire env resizeRules depth d v e) :
    Resizes (enterEncoder env fuel d) v none e (objectEndsOpaque env depth d v) := by
  induction depth generalizing fuel d v e with
  | zero => exact wire.elim
  | succ depth ih =>
    obtain ⟨fuel,rfl⟩ : ∃ n, fuel = n + 1 := ⟨fuel - 1,by omega⟩
    have inner : ∀ d' v' e', objectWire env resizeRules depth d' v' e' →
        Resizes (enterEncoder env fuel d') v' none e' (objectEndsOpaque env depth d' v') :=
      fun d' v' e' wired => ih (by omega) wired
    cases coder : d.coder with
    | struct =>
      simp only [objectWire,coder] at wire
      simp only [enterEncoder,coder,objectEndsOpaque]
      rcases wire with wires | ⟨_,rfl,empty,rfl⟩
      · exact structResizes inner d.fields none v e wires
      · have same : False ↔ ∃ cells, Val.null = .struct cells ∧ endOpaque env (objectWire env resizeRules depth)
            (objectEndsOpaque env depth) cells d.fields 0 cells := by
          simp
        refine Resizes.congr same ?_
        rw [empty]
        exact emptyResizes env none
    | bitfieldStruct =>
      simp only [objectWire,coder] at wire
      simp only [enterEncoder,coder,objectEndsOpaque]
      obtain ⟨cells,val,rfl,word,rfl⟩ := wire
      have call : ∀ dst used max buf, bitfieldStructEncoder d.fields (.struct cells) dst used max none buf =
          encodeScalar .uint32 (.word val) dst used max none buf := by
        intro dst used max buf
        simp only [bitfieldStructEncoder,word]
        rfl
      exact Resizes.ofEq call (integerResizes rfl (ScalarWire.uint32 val) none)

end LibProc.Xdr
