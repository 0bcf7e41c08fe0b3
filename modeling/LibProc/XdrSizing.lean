import LibProc.XdrOpaque
import Mathlib.Tactic.Ring

/-! Sizing: an encoder called with a NULL destination. `Sized` asks for the full size and
nothing else: no write and no assert. The encoders follow the convention each in its
own way, so whether they do depends on the table, on the value and on `max`; `sizable`
says how. -/
namespace LibProc.Xdr
open XdrBytes XdrDict

def Reports (outcome : Option Nat) (buf : List Byte) (r : Except Stop Encoded) : Prop :=
  match outcome with
  | none => ∃ s, r = .error s
  | some u => ∃ res, r = .ok ⟨res,u,buf⟩

def Sized (enc : Encoder) (v : Val) (len : Option (BitVec 32)) (max n : Nat) : Prop :=
  ∀ used buf, Reports (some n) buf (enc v .null used max len buf)

def NullMode (enc : Encoder) (v : Val) (len : Option (BitVec 32)) (max n : Nat) (ok : Prop) : Prop :=
  ∃ outcome, (∀ used buf, Reports outcome buf (enc v .null used max len buf)) ∧
    (∀ u, outcome = some u → u ≤ n) ∧ (outcome = some n ↔ ok)

theorem NullMode.sized {enc : Encoder} {v : Val} {len : Option (BitVec 32)} {max n : Nat} {ok : Prop}
    (mode : NullMode enc v len max n ok) : Sized enc v len max n ↔ ok := by
  obtain ⟨outcome,reports,_,exact_⟩ := mode
  rw [← exact_]
  constructor
  · intro sized
    obtain ⟨res,done⟩ := sized 0 []
    have seen := reports 0 []
    cases outcome with
    | none =>
      obtain ⟨s,stopped⟩ := seen
      rw [done] at stopped
      contradiction
    | some u =>
      obtain ⟨res',done'⟩ := seen
      rw [done] at done'
      simp only [Except.ok.injEq,Encoded.mk.injEq] at done'
      rw [done'.2.1]
  · rintro rfl
    exact reports

theorem Reports.next {outcome : Option Nat} {after : Nat → Option Nat} {buf : List Byte} {r : Except Stop Encoded}
    {k : Encoded → Except Stop Encoded} (seen : Reports outcome buf r)
    (then_ : ∀ res u, Reports (after u) buf (k ⟨res,u,buf⟩)) : Reports (outcome.bind after) buf (r >>= k) := by
  cases outcome with
  | none =>
    obtain ⟨s,stopped⟩ := seen
    exact ⟨s,by rw [stopped]; rfl⟩
  | some u =>
    obtain ⟨res,done⟩ := seen
    rw [done]
    exact then_ res u

theorem nullModeOk {enc : Encoder} {v : Val} {len : Option (BitVec 32)} {max n : Nat} {ok : Prop} (always : ok)
    (done : ∀ used buf, ∃ res, enc v .null used max len buf = .ok ⟨res,n,buf⟩) : NullMode enc v len max n ok :=
  ⟨some n,done,fun _ same => (Option.some.inj same).ge,iff_of_true rfl always⟩

theorem nullModeStop {enc : Encoder} {v : Val} {len : Option (BitVec 32)} {max n : Nat} {ok : Prop} (never : ¬ ok)
    (stop : ∀ used buf, ∃ s, enc v .null used max len buf = .error s) : NullMode enc v len max n ok :=
  ⟨none,stop,by simp,iff_of_false (by simp) never⟩

theorem nullModeShort {enc : Encoder} {v : Val} {len : Option (BitVec 32)} {max n u : Nat} {ok : Prop} (never : ¬ ok)
    (less : u < n) (done : ∀ used buf, ∃ res, enc v .null used max len buf = .ok ⟨res,u,buf⟩) :
    NullMode enc v len max n ok :=
  ⟨some u,done,fun _ same => (Option.some.inj same) ▸ less.le,iff_of_false (by simp; omega) never⟩

def sizableScalar : Scalar → Nat → Prop
  | .float,max => max < 4
  | .double,max => max < 8
  | _,_ => True

def sizableArray (s : Scalar) (len : Int) (max : Nat) : Prop := match s with
  | .float => len ≤ 0 ∨ len = 1 ∧ max < 4
  | .double => len ≤ 0
  | _ => True

def sizableString (n max : Nat) : Prop := n = 0 ∨ n + pad n < 2 ^ 32 ∧ max < 4 + n + pad n

def stringLength (v : Val) : Nat := ((stringBytes v).getD []).length

theorem scalarWireLength {s : Scalar} {v : Val} {e : List Byte} (wire : ScalarWire s v e) : e.length = width s := by
  cases wire <;> rfl

theorem putNull {bs buf : List Byte} (some_ : bs ≠ []) : put bs .null buf = .error .nullWrite := by
  unfold put
  rw [if_neg some_]

theorem putWild {bs buf : List Byte} (some_ : bs ≠ []) : put bs .wild buf = .error .nullWrite := by
  unfold put
  rw [if_neg some_]

theorem copyNumberNull {v : Val} {bs : List Byte} {n : Nat} (number : numberBytes v = some bs) (positive : 0 < n)
    (wide : n ≤ bs.length) (max used : Nat) (len : Option (BitVec 32)) (buf : List Byte) :
    copyNumber n v .null used max len buf = if max < n then .ok ⟨-1,n,buf⟩ else .error .nullWrite := by
  simp only [copyNumber,number]
  by_cases short : max < n
  · rw [if_pos short, if_pos short]
  · have some_ : bs.take n ≠ [] := by
      intro empty
      have size := congrArg List.length empty
      rw [List.length_take] at size
      simp only [List.length_nil] at size
      omega
    rw [if_neg short, if_neg (by omega), if_neg short, putNull some_]
    rfl

theorem copyNumberMode {v : Val} {bs : List Byte} {n : Nat} (number : numberBytes v = some bs) (positive : 0 < n)
    (wide : n ≤ bs.length) (max : Nat) (len : Option (BitVec 32)) : NullMode (copyNumber n) v len max n (max < n) := by
  by_cases short : max < n
  · refine nullModeOk short fun used buf => ⟨-1,?_⟩
    rw [copyNumberNull number positive wide, if_pos short]
  · refine nullModeStop short fun used buf => ⟨.nullWrite,?_⟩
    rw [copyNumberNull number positive wide, if_neg short]

theorem scalarMode {s : Scalar} {v : Val} {e : List Byte} (wire : ScalarWire s v e) (max : Nat)
    (len : Option (BitVec 32)) : NullMode (encodeScalar s) v len max e.length (sizableScalar s max) := by
  cases wire with
  | int32 w => exact nullModeOk trivial fun used buf => ⟨0,rfl⟩
  | uint32 w => exact nullModeOk trivial fun used buf => ⟨0,rfl⟩
  | int64 d => exact nullModeOk trivial fun used buf => ⟨0,rfl⟩
  | uint64 d => exact nullModeOk trivial fun used buf => ⟨0,rfl⟩
  | float w => exact copyNumberMode (v := .word w) rfl (by decide) (by rfl) max len
  | double d => exact copyNumberMode (v := .dword d) rfl (by decide) (by rfl) max len

def wrappedSize (n : Nat) : Nat := 4 + (n % 2 ^ 32 + pad (n % 2 ^ 32)) % 2 ^ 32

theorem encodeStringNull {v : Val} {s : List Byte} (content : stringBytes v = some s) (used max : Nat)
    (len : Option (BitVec 32)) (buf : List Byte) : encodeStringArray v .null used max len buf =
      if max < wrappedSize s.length then .ok ⟨-2,wrappedSize s.length,buf⟩
      else if s.length % 2 ^ 32 = 0 then .ok ⟨0,wrappedSize s.length,buf⟩ else .error .nullWrite := by
  have count : (BitVec.ofNat 32 s.length).toNat = s.length % 2 ^ 32 := BitVec.toNat_ofNat _ _
  simp only [encodeStringArray,content,count,encodeWord,if_true,Except.bind,bind,Dst.advance]
  rw [if_neg (by omega)]
  change (if max < wrappedSize s.length then _ else _) = _
  by_cases short : max < wrappedSize s.length
  · rw [if_pos short, if_pos short]
    rfl
  rw [if_neg short, if_neg short]
  by_cases zero : s.length % 2 ^ 32 = 0
  · simp only [wrappedSize,zero]
    rfl
  · have some_ : s.take (s.length % 2 ^ 32) ≠ [] := by
      intro empty
      have size := congrArg List.length empty
      rw [List.length_take] at size
      simp only [List.length_nil] at size
      omega
    rw [if_neg zero, putWild some_]

theorem encodeStringWild {v : Val} {s : List Byte} (content : stringBytes v = some s) (used max : Nat)
    (len : Option (BitVec 32)) (buf : List Byte) : encodeStringArray v .wild used max len buf =
      if max < 4 then .ok ⟨-2,wrappedSize s.length,buf⟩ else .error .nullWrite := by
  have count : (BitVec.ofNat 32 s.length).toNat = s.length % 2 ^ 32 := BitVec.toNat_ofNat _ _
  simp only [encodeStringArray,content,count,encodeWord]
  rw [if_neg (by simp)]
  by_cases short : max < 4
  · rw [if_pos short, if_pos short]
    rfl
  · rw [if_neg short, if_neg short, putWild (by simp [beBytes])]
    rfl

theorem wrappedSizeLe (n : Nat) : wrappedSize n ≤ 4 + n + pad n := by
  unfold wrappedSize pad
  omega

theorem wrappedSizeExact (n : Nat) : wrappedSize n = 4 + n + pad n ↔ n + pad n < 2 ^ 32 := by
  unfold wrappedSize pad
  omega

theorem stringContent {rules : Rules} {v : Val} {e : List Byte} (wire : StringWire rules v e) :
    ∃ s, stringBytes v = some s ∧ e = stringWire s ∧ stringLength v = s.length := by
  cases wire with
  | null => exact ⟨[],rfl,rfl,rfl⟩
  | chars s clean _ =>
    refine ⟨s,by rw [stringBytes, strlenClean clean],rfl,?_⟩
    rw [stringLength, stringBytes, strlenClean clean]
    rfl

theorem stringMode {rules : Rules} {v : Val} {e : List Byte} (wire : StringWire rules v e) (max : Nat)
    (len : Option (BitVec 32)) : NullMode encodeStringArray v len max e.length (sizableString (stringLength v) max) := by
  obtain ⟨s,content,rfl,size⟩ := stringContent wire
  have le := wrappedSizeLe s.length
  have exact_ := wrappedSizeExact s.length
  have call := encodeStringNull content
  rw [stringWireLength, size, sizableString]
  by_cases full : s.length + pad s.length < 2 ^ 32
  · rw [exact_.mpr full] at call
    by_cases short : max < 4 + s.length + pad s.length
    · refine nullModeOk (.inr ⟨full,short⟩) fun used buf => ⟨-2,?_⟩
      rw [call, if_pos short]
    by_cases empty : s.length = 0
    · refine nullModeOk (.inl empty) fun used buf => ⟨0,?_⟩
      rw [call, if_neg short, if_pos (by omega)]
    · refine nullModeStop (by omega) fun used buf => ⟨.nullWrite,?_⟩
      rw [call, if_neg short, if_neg (by omega)]
  · have less : wrappedSize s.length < 4 + s.length + pad s.length := by omega
    have positive : s.length ≠ 0 := by
      intro empty
      rw [empty] at full
      exact full (by decide)
    by_cases short : max < wrappedSize s.length
    · refine nullModeShort (by omega) less fun used buf => ⟨-2,?_⟩
      rw [call, if_pos short]
    by_cases wraps : s.length % 2 ^ 32 = 0
    · refine nullModeShort (by omega) less fun used buf => ⟨0,?_⟩
      rw [call, if_neg short, if_pos wraps]
    · refine nullModeStop (by omega) fun used buf => ⟨.nullWrite,?_⟩
      rw [call, if_neg short, if_neg wraps]

theorem bytesMode {rules : Rules} {len : BitVec 32} {v : Val} {e : List Byte} (wire : BytesWire rules len.toInt v e)
    (max : Nat) : NullMode encodeByteArray v (some len) max e.length True := by
  generalize count : len.toInt = n at wire
  cases wire with
  | chars s counted fits =>
    subst counted
    obtain ⟨_,total,_,defined⟩ := byteLengths (n := s.length) fits
    have size : (s ++ zeros (pad s.length)).length = paddedSize s.length := by simp [zeros,paddedSize]
    rw [size]
    refine nullModeOk trivial fun used buf => ⟨-1,?_⟩
    simp only [encodeByteArray,count]
    rw [if_neg defined, total, if_pos (.inl trivial)]
  | null allowed none =>
    subst none
    refine nullModeOk trivial fun used buf => ⟨-1,?_⟩
    simp only [encodeByteArray,count]
    rfl

theorem flattenWidth {s : Scalar} {vs : List Val} {es : List (List Byte)} (each : List.Forall₂ (ScalarWire s) vs es) :
    es.flatten.length = vs.length * width s := by
  induction each with
  | nil => simp
  | cons first _ ih =>
    rw [List.flatten_cons, List.length_append, ih, scalarWireLength first, List.length_cons]
    ring

theorem arrayStepNull (enc : Encoder) (max count : Nat) (v : Val) (vs : List Val) (encLen : Nat) (buf : List Byte) :
    arrayEncodeLoop enc max (count + 1) (v :: vs) .null 0 encLen buf = (do
      let r ← enc v .null 0 (sizeSub max encLen) none buf
      arrayEncodeLoop enc max count vs .null 0 (encLen + r.used) r.buf) := by
  simp only [arrayEncodeLoop]
  rw [if_neg (by simp)]
  simp

theorem integerLoopNull {enc : Encoder} {n max : Nat} {vs : List Val}
    (each : ∀ v ∈ vs, ∀ max buf, enc v .null 0 max none buf = .ok ⟨0,n,buf⟩) (encLen : Nat) (buf : List Byte) :
    arrayEncodeLoop enc max vs.length vs .null 0 encLen buf = .ok ⟨0,encLen + vs.length * n,buf⟩ := by
  induction vs generalizing encLen with
  | nil => simp [arrayEncodeLoop]
  | cons v vs ih =>
    have more := ih (fun x mem => each x (by simp [mem])) (encLen + n)
    rw [List.length_cons, arrayStepNull, each v (by simp)]
    simp only [Except.bind,bind]
    rw [more]
    congr 2
    ring

/- A copy of four bytes per element stops at the first one `max` has room for, and the
room left wraps around after a first element it has no room for. -/
theorem floatLoopNull {max : Nat} {vs : List Val} (numbers : ∀ v ∈ vs, ∃ bs, numberBytes v = some bs ∧ 4 ≤ bs.length)
    (buf : List Byte) :
    Reports (if vs.length = 0 then some 0 else if vs.length = 1 ∧ max < 4 then some 4 else none) buf
      (arrayEncodeLoop encodeFloat max vs.length vs .null 0 0 buf) := by
  cases vs with
  | nil => exact ⟨0,rfl⟩
  | cons v rest =>
    obtain ⟨bs,number,wide⟩ := numbers v (by simp)
    have left : sizeSub max 0 = max := by simp [sizeSub]
    rw [List.length_cons, arrayStepNull, left, encodeFloat, copyNumberNull number (by decide) wide, if_neg (by omega)]
    by_cases short : max < 4
    · rw [if_pos short]
      simp only [Except.bind,bind,Nat.zero_add]
      cases rest with
      | nil =>
        rw [if_pos ⟨rfl,short⟩]
        exact ⟨0,rfl⟩
      | cons v' rest =>
        obtain ⟨bs',number',wide'⟩ := numbers v' (by simp)
        have wraps : ¬ sizeSub max 4 < 4 := by
          unfold sizeSub
          rw [if_neg (by omega)]
          omega
        rw [List.length_cons, arrayStepNull, copyNumberNull number' (by decide) wide', if_neg wraps,
          if_neg (by omega)]
        exact ⟨.nullWrite,rfl⟩
    · rw [if_neg short, if_neg (fun both => short both.2)]
      exact ⟨.nullWrite,rfl⟩

theorem integerNull {s : Scalar} {v : Val} {e : List Byte} (wire : ScalarWire s v e) (integer : s ≠ .float ∧ s ≠ .double)
    (max : Nat) (buf : List Byte) : encodeElement s v .null 0 max none buf = .ok ⟨0,width s,buf⟩ := by
  cases wire with
  | int32 w => rfl
  | uint32 w => rfl
  | int64 d => rfl
  | uint64 d => rfl
  | float w => exact (integer.1 rfl).elim
  | double d => exact (integer.2 rfl).elim

theorem numberWidth {s : Scalar} {v : Val} {e : List Byte} (wire : ScalarWire s v e) :
    ∃ bs, numberBytes v = some bs ∧ 4 ≤ bs.length := by
  cases wire with
  | int32 w => exact ⟨_,rfl,(hostBytesLength w).ge⟩
  | uint32 w => exact ⟨_,rfl,(hostBytesLength w).ge⟩
  | int64 d => exact ⟨hostBytes64 d,rfl,show 4 ≤ 8 by decide⟩
  | uint64 d => exact ⟨hostBytes64 d,rfl,show 4 ≤ 8 by decide⟩
  | float w => exact ⟨_,rfl,(hostBytesLength w).ge⟩
  | double d => exact ⟨hostBytes64 d,rfl,show 4 ≤ 8 by decide⟩

theorem forallLeft {α β : Type} {R : α → β → Prop} {P : α → Prop} (each : ∀ a b, R a b → P a) {as : List α} {bs : List β}
    (all : List.Forall₂ R as bs) : ∀ a ∈ as, P a := by
  induction all with
  | nil => simp
  | cons first _ ih =>
    intro a mem
    rcases List.mem_cons.mp mem with rfl | more
    · exact each _ _ first
    · exact ih a more

theorem arrayMode {s : Scalar} {len : BitVec 32} {v : Val} {e : List Byte}
    (wire : ArrayWire (ScalarWire s) len.toInt v e) (max : Nat) :
    NullMode (encodeArray (encodeElement s)) v (some len) max e.length (sizableArray s len.toInt max) := by
  obtain ⟨vs,content,counted,size,integers,numbers⟩ : ∃ vs, elements vs.length v = some vs ∧ len.toInt.toNat = vs.length ∧
      e.length = vs.length * width s ∧ (s ≠ .float ∧ s ≠ .double → ∀ v ∈ vs, ∀ max buf,
        encodeElement s v .null 0 max none buf = .ok ⟨0,width s,buf⟩) ∧
      ∀ v ∈ vs, ∃ bs, numberBytes v = some bs ∧ 4 ≤ bs.length := by
    cases wire with
    | array vs es counted each =>
      exact ⟨vs,rfl,counted,flattenWidth each,fun integer => forallLeft (fun v e wire => integerNull wire integer) each,
        forallLeft (fun v e wire => numberWidth wire) each⟩
    | null none => exact ⟨[],rfl,none,by simp,by simp,by simp⟩
  have call : ∀ used buf, encodeArray (encodeElement s) v .null used max (some len) buf =
      arrayEncodeLoop (encodeElement s) max vs.length vs .null 0 0 buf := by
    intro used buf
    simp only [encodeArray,arrayEncoder,counted,content]
  by_cases integer : s ≠ .float ∧ s ≠ .double
  · have ok : sizableArray s len.toInt max := by
      cases s <;> simp [sizableArray] at integer ⊢
    refine nullModeOk ok fun used buf => ⟨0,?_⟩
    rw [call, integerLoopNull (integers integer), size, Nat.zero_add]
  · have copies : encodeElement s = encodeFloat := by
      cases s <;> simp at integer ⊢ <;> rfl
    rw [copies] at call ⊢
    refine ⟨_,fun used buf => call used buf ▸ floatLoopNull numbers buf,?_,?_⟩
    · intro u same
      have wide : 4 ≤ width s := by cases s <;> decide
      rw [size]
      split_ifs at same with none one
      · cases Option.some.inj same
        omega
      · cases Option.some.inj same
        rw [one.1]
        omega
    · have kinds : s = .float ∨ s = .double := by
        cases s <;> simp at integer ⊢
      rw [size]
      rcases kinds with rfl | rfl
      all_goals
        simp only [sizableArray,width]
        split_ifs with none one
        · rw [Option.some.injEq]
          omega
        · rw [Option.some.injEq]
          omega
        · exact iff_of_false (by simp) (by omega)

theorem unionObjectIff {env : Env} {type : BitVec 32} {data : Val} {d : StructDefinition}
    (registered : env.definitionForType type = some d) {P : StructDefinition → Val → Prop} :
    (∃ type' data' d', Val.union type data = .union type' data' ∧ env.definitionForType type' = some d' ∧ P d' data') ↔
      P d data := by
  constructor
  · rintro ⟨type',data',d',same,found,holds⟩
    simp only [Val.union.injEq] at same
    obtain ⟨rfl,rfl⟩ := same
    cases Option.some.inj (registered.symm.trans found)
    exact holds
  · exact fun holds => ⟨type,data,d,rfl,registered,holds⟩

def sizableUnion (env : Env) (ok : StructDefinition → Val → Nat → Prop) (v : Val) (max : Nat) : Prop :=
  ∃ type data d, v = .union type data ∧ env.definitionForType type = some d ∧ ok d data max

theorem encodeUnionNull {env : Env} {into : StructDefinition → Encoder} {type : BitVec 32} {data : Val}
    {d : StructDefinition} (registered : env.definitionForType type = some d) (used max : Nat)
    (len : Option (BitVec 32)) (buf : List Byte) :
    encodeUnion env into (.union type data) .null used max len buf = (do
      let r ← into d data .null 0 max none buf
      .ok ⟨if r.res < 0 then -1 else 0,4 + r.used,r.buf⟩) := by
  simp [encodeUnion,encodeWord,registered,bind,Except.bind]

theorem unionMode {env : Env} {rules : Rules} {enter : StructDefinition → Val → List Byte → Prop}
    {into : StructDefinition → Encoder} {ok : StructDefinition → Val → Nat → Prop}
    (inner : ∀ d v e max, enter d v e → NullMode (into d) v none max e.length (ok d v max)) {v : Val} {e : List Byte}
    (wire : UnionWire env rules enter v e) (max : Nat) (len : Option (BitVec 32)) :
    NullMode (encodeUnion env into) v len max e.length (sizableUnion env ok v max) := by
  obtain ⟨type,data,definition,body,registered,admitted,wired⟩ := wire
  obtain ⟨outcome,reports,bounded,exact_⟩ := inner definition data body max wired
  have same : sizableUnion env ok (.union type data) max ↔ ok definition data max :=
    unionObjectIff registered (P := fun d data => ok d data max)
  rw [same, ← exact_, List.length_append, beBytesLength]
  refine ⟨outcome.bind fun u => some (4 + u),?_,?_,?_⟩
  · intro used buf
    rw [encodeUnionNull registered]
    exact (reports 0 buf).next fun res u => ⟨_,rfl⟩
  · intro u some_
    obtain ⟨u',found,same⟩ := Option.bind_eq_some_iff.mp some_
    have := bounded u' found
    cases same
    omega
  · cases outcome with
    | none => simp
    | some u => simp

section Dictionaries

def sizableEntry (env : Env) (ok : StructDefinition → Val → Nat → Prop) : Entry → Val → Nat → Prop
  | .scalar .uint32,_,_ => False
  | .scalar s,_,max => sizableScalar s max
  | .stringArr,_,_ => False
  | .byteArr,_,_ => False
  | .union,v,max => sizableUnion env ok v max

/- Only the length of an empty dictionary is sized. One entry is when `max` has room for
the length and not for the length of its key. -/
def sizableDict (env : Env) (ok : StructDefinition → Val → Nat → Prop) (e : Entry) (v : Val) (max : Nat) : Prop :=
  ∃ table, v = .dict table ∧ (entries table = [] ∨ ∃ key value, entries table = [(key,value)] ∧ 4 ≤ max ∧ max < 8 ∧
    key.length + pad key.length < 2 ^ 32 ∧ sizableEntry env ok e value (max - 4))

variable {env : Env} {rules : Rules} {enter : StructDefinition → Val → List Byte → Prop}
  {into : StructDefinition → Encoder} {ok : StructDefinition → Val → Nat → Prop}

def EntryMode (enc : Encoder) (v : Val) (max n : Nat) (ok : Prop) : Prop :=
  ∃ outcome, (∀ buf, Reports outcome buf (enc v .null 0 max none buf)) ∧
    (∀ u, outcome = some u → u ≤ n) ∧ (outcome = some n ↔ ok)

theorem NullMode.entry {enc : Encoder} {v : Val} {max n : Nat} {ok : Prop} (mode : NullMode enc v none max n ok) :
    EntryMode enc v max n ok := by
  obtain ⟨outcome,reports,bounded,exact_⟩ := mode
  exact ⟨outcome,reports 0,bounded,exact_⟩

theorem entryMode (inner : ∀ d v e max, enter d v e → NullMode (into d) v none max e.length (ok d v max)) {kind : Entry}
    {v : Val} {e : List Byte} (wire : entryWire env rules enter kind v e) {max : Nat} (short : max < 4) :
    EntryMode (encodeEntry env into kind) v max e.length (sizableEntry env ok kind v max) := by
  cases kind with
  | scalar s =>
    by_cases swapped : s = .uint32
    · subst swapped
      cases wire
      refine ⟨some 0,fun buf => ⟨-1,?_⟩,by simp,iff_of_false (by simp) id⟩
      simp only [encodeEntry,decodeUint32AsEncoder]
      rw [if_pos short]
    · have same : encodeEntry env into (.scalar s) = encodeScalar s := by
        cases s <;> first | rfl | exact (swapped rfl).elim
      have cond : sizableEntry env ok (.scalar s) v max ↔ sizableScalar s max := by
        cases s <;> first | rfl | exact (swapped rfl).elim
      rw [same, cond]
      exact (scalarMode wire max none).entry
  | stringArr =>
    have shape : v = .null ∨ ∃ s, v = .chars s := by
      cases wire with
      | null => exact .inl rfl
      | chars s _ _ => exact .inr ⟨s,rfl⟩
    obtain ⟨s,_,rfl,_⟩ := stringContent wire
    have positive := stringWireLength s
    refine ⟨some 0,fun buf => ⟨-1,?_⟩,by simp,iff_of_false (by simp; omega) id⟩
    rcases shape with rfl | ⟨s,rfl⟩
    · simp only [encodeEntry,decodeStringArrayAsEncoder]
      rw [if_pos short]
    · simp only [encodeEntry,decodeStringArrayAsEncoder]
      rw [if_pos short]
  | byteArr => exact ⟨none,fun buf => ⟨.nullRead,rfl⟩,by simp,iff_of_false (by simp) id⟩
  | union => exact (unionMode inner wire max none).entry

theorem firstEntryNull {enc : Encoder} {key : Key} {value : Val} {max : Nat} {buf : List Byte} (clean : 0 ∉ key) :
    dictionaryEncoderItr enc ⟨4,.wild,sizeSub max 4,0,buf⟩ (key,value) =
      if 4 ≤ max ∧ max < 8 then (do
        let r ← enc value .null 0 (max - 4) none buf
        .ok ⟨4 + wrappedSize key.length + r.used,.null,max - 4,-2,r.buf⟩)
      else .error .nullWrite := by
  have call := encodeStringWild (v := .chars key) (s := key) (by rw [stringBytes, strlenClean clean]) 0 (sizeSub max 4)
    none buf
  have room : sizeSub max 4 < 4 ↔ 4 ≤ max ∧ max < 8 := by
    unfold sizeSub
    split <;> omega
  simp only [dictionaryEncoderItr,dictionaryEncodeOne]
  rw [if_pos (by simp)]
  simp only [encodeKey]
  rw [call]
  by_cases fits : 4 ≤ max ∧ max < 8
  · have left : sizeSub max 4 = max - 4 := if_pos fits.1
    have failed : DictionaryParams.take ⟨4,.wild,max - 4,0,buf⟩ ⟨-2,wrappedSize key.length,buf⟩ =
        ⟨4 + wrappedSize key.length,.null,max - 4,-2,buf⟩ := rfl
    rw [if_pos fits, if_pos (room.mpr fits), left]
    simp only [Except.bind,bind]
    rw [failed, if_neg (by simp)]
  · rw [if_neg fits, if_neg (fun less => fits (room.mp less))]
    rfl

theorem nextEntryNull {enc : Encoder} {p : DictionaryParams} (gone : p.dst = .null) (entry : Key × Val) :
    dictionaryEncoderItr enc p entry = .error .abort := by
  simp [dictionaryEncoderItr,dictionaryEncodeOne,gone,encodeKey,encodeString,bind,Except.bind]

def sizingFold (enc : Encoder) (max : Nat) (nodes : List (Key × Val)) (buf : List Byte) : Except Stop Encoded := do
  let p ← nodes.foldlM (dictionaryEncoderItr enc) ⟨4,.wild,sizeSub max 4,0,buf⟩
  .ok ⟨p.res,p.encLen,p.buf⟩

theorem sizingFoldWrites {enc : Encoder} {max : Nat} {key : Key} (clean : 0 ∉ key) (away : ¬ (4 ≤ max ∧ max < 8))
    (value : Val) (rest : List (Key × Val)) (buf : List Byte) :
    sizingFold enc max ((key,value) :: rest) buf = .error .nullWrite := by
  rw [sizingFold, List.foldlM_cons, firstEntryNull clean, if_neg away]
  rfl

theorem sizingFoldCons {enc : Encoder} {max : Nat} {key : Key} (clean : 0 ∉ key) (fits : 4 ≤ max ∧ max < 8)
    (value : Val) (rest : List (Key × Val)) (buf : List Byte) :
    sizingFold enc max ((key,value) :: rest) buf = (do
      let r ← enc value .null 0 (max - 4) none buf
      let p ← rest.foldlM (dictionaryEncoderItr enc) ⟨4 + wrappedSize key.length + r.used,.null,max - 4,-2,r.buf⟩
      .ok ⟨p.res,p.encLen,p.buf⟩) := by
  rw [sizingFold, List.foldlM_cons, firstEntryNull clean, if_pos fits, bind_assoc, bind_assoc]
  rfl

theorem oneEntrySettles {enc : Encoder} {max n : Nat} {key : Key} {value : Val} {ok : Prop} (clean : 0 ∉ key)
    (fits : 4 ≤ max ∧ max < 8) (mode : EntryMode enc value (max - 4) n ok) :
    ∃ outcome, (∀ buf, Reports outcome buf (sizingFold enc max [(key,value)] buf)) ∧
      (∀ u, outcome = some u → u ≤ 4 + (4 + key.length + pad key.length + n)) ∧
      (outcome = some (4 + (4 + key.length + pad key.length + n)) ↔ key.length + pad key.length < 2 ^ 32 ∧ ok) := by
  obtain ⟨outcome,reports,bounded,exact_⟩ := mode
  have le := wrappedSizeLe key.length
  rw [← exact_, ← wrappedSizeExact]
  refine ⟨outcome.bind fun u => some (4 + wrappedSize key.length + u),?_,?_,?_⟩
  · intro buf
    rw [sizingFoldCons clean fits]
    exact (reports buf).next fun res u => ⟨_,rfl⟩
  · intro u some_
    obtain ⟨u',found,same⟩ := Option.bind_eq_some_iff.mp some_
    have := bounded u' found
    cases same
    omega
  · cases outcome with
    | none => simp
    | some u =>
      have := bounded u rfl
      simp only [Option.bind_some,Option.some.injEq]
      omega

theorem moreEntriesStop {enc : Encoder} {max n : Nat} {key : Key} {value : Val} {ok : Prop} (clean : 0 ∉ key)
    (fits : 4 ≤ max ∧ max < 8) (mode : EntryMode enc value (max - 4) n ok) (next : Key × Val) (rest : List (Key × Val))
    (buf : List Byte) : ∃ s, sizingFold enc max ((key,value) :: next :: rest) buf = .error s := by
  obtain ⟨outcome,reports,_⟩ := mode
  have gone : outcome.bind (fun _ => (none : Option Nat)) = none := by simp
  rw [sizingFoldCons clean fits]
  change Reports none buf _
  rw [← gone]
  refine (reports buf).next fun res u => ⟨.abort,?_⟩
  rw [List.foldlM_cons, nextEntryNull rfl]
  rfl

theorem dictMode (inner : ∀ d v e max, enter d v e → NullMode (into d) v none max e.length (ok d v max)) {kind : Entry}
    {v : Val} {e : List Byte} (wire : DictWire rules (entryWire env rules enter kind) v e) (max : Nat)
    (len : Option (BitVec 32)) :
    NullMode (dictionaryEncoder (encodeEntry env into kind)) v len max e.length (sizableDict env ok kind v max) := by
  obtain ⟨table,es,counted,each⟩ := wire
  have call : ∀ used buf, dictionaryEncoder (encodeEntry env into kind) (.dict table) .null used max len buf =
      sizingFold (encodeEntry env into kind) max (entries table) buf := fun used buf => rfl
  have cond : sizableDict env ok kind (.dict table) max ↔ entries table = [] ∨ ∃ key value,
      entries table = [(key,value)] ∧ 4 ≤ max ∧ max < 8 ∧ key.length + pad key.length < 2 ^ 32 ∧
      sizableEntry env ok kind value (max - 4) := by
    simp [sizableDict]
  rw [cond, List.length_append, beBytesLength]
  generalize entries table = nodes at each call ⊢
  cases each with
  | nil => exact nullModeOk (.inl rfl) fun used buf => ⟨0,call used buf⟩
  | @cons node _ rest es first more =>
    obtain ⟨key,value⟩ := node
    obtain ⟨name,entry,named,wired,rfl⟩ := first
    obtain ⟨clean,rfl⟩ : 0 ∉ key ∧ name = stringWire key := by
      cases named with
      | chars s clean short => exact ⟨clean,rfl⟩
    by_cases fits : 4 ≤ max ∧ max < 8
    · have mode : EntryMode (encodeEntry env into kind) value (max - 4) entry.length _ :=
        entryMode inner wired (show max - 4 < 4 by omega)
      cases more with
      | nil =>
        have size : (List.flatten [stringWire key ++ entry]).length = 4 + key.length + pad key.length + entry.length := by
          simp
        obtain ⟨outcome,reports,bounded,exact_⟩ := oneEntrySettles clean fits mode
        rw [size]
        refine ⟨outcome,fun used buf => call used buf ▸ reports buf,bounded,exact_.trans ?_⟩
        simp [fits]
      | @cons next _ rest es second more =>
        refine nullModeStop (by simp) fun used buf => ?_
        rw [call]
        exact moreEntriesStop clean fits mode next rest buf
    · refine nullModeStop ?_ fun used buf => ⟨.nullWrite,?_⟩
      · rintro (none | ⟨key',value',same,low,high,_⟩)
        · simp at none
        · exact fits ⟨low,high⟩
      · rw [call]
        exact sizingFoldWrites clean fits value rest buf

end Dictionaries

section Structs

def sizableEach (ok : Val → Nat → Prop) (wire : Val → List Byte → Prop) (max : Nat) : List Val → Nat → Prop
  | [],_ => True
  | v :: vs,offset => ok v (sizeSub max offset) ∧ ∀ e, wire v e → sizableEach ok wire max vs (offset + e.length)

variable {env : Env} {rules : Rules} {enter : StructDefinition → Val → List Byte → Prop}
  {into : StructDefinition → Encoder} {ok : StructDefinition → Val → Nat → Prop}

theorem NullMode.unique {enc : Encoder} {v : Val} {len : Option (BitVec 32)} {max n m : Nat} {ok : Prop} (holds : ok)
    (one : NullMode enc v len max n ok) (two : NullMode enc v len max m ok) : n = m := by
  obtain ⟨res,done⟩ := one.sized.mpr holds 0 []
  obtain ⟨res',done'⟩ := two.sized.mpr holds 0 []
  rw [done] at done'
  simp only [Except.ok.injEq,Encoded.mk.injEq] at done'
  exact done'.2.1

theorem sumSettles {first : Option Nat} {second : Nat → Option Nat} {k n m : Nat} {ok : Prop} {ok' : Nat → Prop}
    (bounded : ∀ u, first = some u → u ≤ n) (exact_ : first = some n ↔ ok)
    (bounded' : ∀ j w, second j = some w → w ≤ j + m) (exact' : ∀ j, second j = some (j + m) ↔ ok' j) :
    (∀ w, (first.bind fun u => second (k + u)) = some w → w ≤ k + n + m) ∧
      ((first.bind fun u => second (k + u)) = some (k + n + m) ↔ ok ∧ ok' (k + n)) := by
  refine ⟨?_,?_,?_⟩
  · intro w both
    obtain ⟨u,found,rest⟩ := Option.bind_eq_some_iff.mp both
    have le := bounded u found
    have le' := bounded' (k + u) w rest
    omega
  · intro both
    obtain ⟨u,found,rest⟩ := Option.bind_eq_some_iff.mp both
    have le := bounded u found
    have le' := bounded' (k + u) _ rest
    obtain rfl : u = n := by omega
    exact ⟨exact_.mp found,(exact' _).mp rest⟩
  · rintro ⟨holds,holds'⟩
    rw [exact_.mpr holds, Option.bind_some]
    exact (exact' _).mpr holds'

theorem eachMode {enc : Encoder} {ok : Val → Nat → Prop} {wire : Val → List Byte → Prop}
    (inner : ∀ v e max, wire v e → NullMode enc v none max e.length (ok v max)) {vs : List Val} {es : List (List Byte)}
    (each : List.Forall₂ wire vs es) (max offset : Nat) :
    ∃ outcome, (∀ buf, Reports outcome buf (arrayEncodeLoop enc max vs.length vs .null 0 offset buf)) ∧
      (∀ u, outcome = some u → u ≤ offset + es.flatten.length) ∧
      (outcome = some (offset + es.flatten.length) ↔ sizableEach ok wire max vs offset) := by
  induction each generalizing offset with
  | nil => exact ⟨some offset,fun buf => ⟨0,rfl⟩,by simp,by simp [sizableEach]⟩
  | @cons v e vs es first more ih =>
    obtain ⟨outcome,reports,bounded,exact_⟩ := inner v e (sizeSub max offset) first
    choose after reports' bounded' exact' using ih
    obtain ⟨le,iff_⟩ := sumSettles (k := offset) bounded exact_ bounded' exact'
    rw [List.flatten_cons, List.length_append, ← Nat.add_assoc]
    refine ⟨outcome.bind fun u => after (offset + u),?_,le,iff_.trans ?_⟩
    · intro buf
      rw [List.length_cons, arrayStepNull]
      exact (reports 0 buf).next fun res u => reports' (offset + u) buf
    · simp only [sizableEach]
      refine and_congr_right fun holds => ⟨?_,fun all => all e first⟩
      intro rest e' wired
      rw [(inner v e _ first).unique holds (inner v e' _ wired)] at rest
      exact rest

theorem structArrayMode {enc : Encoder} {ok : Val → Nat → Prop} {wire : Val → List Byte → Prop}
    (inner : ∀ v e max, wire v e → NullMode enc v none max e.length (ok v max)) {len : BitVec 32} {v : Val} {e : List Byte}
    (array : ArrayWire wire len.toInt v e) (max : Nat) :
    NullMode (encodeArray enc) v (some len) max e.length (∀ vs, v = .array vs → sizableEach ok wire max vs 0) := by
  cases array with
  | array vs es counted each =>
    obtain ⟨outcome,reports,bounded,exact_⟩ := eachMode inner each max 0
    rw [Nat.zero_add] at bounded exact_
    refine ⟨outcome,?_,bounded,exact_.trans (by simp)⟩
    intro used buf
    simp only [encodeArray,arrayEncoder,elements,counted]
    exact reports buf
  | null none =>
    refine nullModeOk (by simp) fun used buf => ⟨0,?_⟩
    simp only [encodeArray,arrayEncoder,none,elements,List.replicate_zero,arrayEncodeLoop,List.length_nil]

mutual
def sizable (env : Env) (rules : Rules) (enter : StructDefinition → Val → List Byte → Prop)
    (ok : StructDefinition → Val → Nat → Prop) : TypeFunctions → BitVec 32 → Val → Nat → Prop
  | .scalar s,_,_,max => sizableScalar s max
  | .array s,len,_,max => sizableArray s len.toInt max
  | .dict e,_,v,max => sizableDict env ok e v max
  | .string,_,_,_ => False
  | .stringArr,_,v,max => sizableString (stringLength v) max
  | .byteArr,_,_,_ => True
  | .union,_,v,max => sizableUnion env ok v max
  | .unionArr,_,v,max => sizableUnion env ok v max
  | .uint32Bitfield,_,_,_ => False
  | .int32Bitfield,_,_,_ => False
  | .struct fields,_,v,max => ∀ cells, v = .struct cells → sizableAll env rules enter ok cells fields cells max
  | .structArr fields,_,v,max => ∀ vs, v = .array vs →
      sizableEach (fun v max => ∀ cells, v = .struct cells → sizableAll env rules enter ok cells fields cells max)
        (fun v e => ∃ cells, v = .struct cells ∧ wiresOf env rules enter cells fields 0 cells e) max vs 0
def sizableAll (env : Env) (rules : Rules) (enter : StructDefinition → Val → List Byte → Prop)
    (ok : StructDefinition → Val → Nat → Prop) (cells : List Val) : FieldList → List Val → Nat → Prop
  | .cons funcs lenOffset _ rest,v :: vs,max => sizable env rules enter ok funcs (wordAt env cells[lenOffset]?) v max ∧
      sizableAll env rules enter ok cells rest vs max
  | _,_,_ => True
end

def FieldsMode (env : Env) (into : StructDefinition → Encoder) (cells : List Val) (max : Nat) (fields : FieldList)
    (vs : List Val) (n : Nat) (ok : Prop) : Prop :=
  ∀ used, ∃ outcome, (∀ res len buf,
      Reports outcome buf (structEncodeLoop env cells max (encodersOf env into fields) vs .null res used len buf)) ∧
    (∀ u, outcome = some u → u ≤ used + n) ∧ (outcome = some (used + n) ↔ ok)

theorem FieldsMode.cons {cells vs : List Val} {max : Nat} {funcs : TypeFunctions} {lenOffset structId : Nat}
    {rest : FieldList} {v : Val} {n m : Nat} {ok ok' : Prop}
    (first : NullMode (encoderOf env into funcs) v (some (wordAt env cells[lenOffset]?)) max n ok)
    (more : FieldsMode env into cells max rest vs m ok') :
    FieldsMode env into cells max (.cons funcs lenOffset structId rest) (v :: vs) (n + m) (ok ∧ ok') := by
  intro used
  obtain ⟨outcome,reports,bounded,exact_⟩ := first
  choose after reports' bounded' exact' using more
  obtain ⟨le,iff_⟩ := sumSettles (k := used) bounded exact_ bounded' exact'
  rw [← Nat.add_assoc]
  refine ⟨outcome.bind fun u => after (used + u),?_,le,iff_⟩
  intro res len buf
  simp only [encodersOf,structEncodeLoop]
  rw [if_pos (.inl trivial)]
  exact (reports len buf).next fun res' u => reports' (used + u) res u buf

theorem FieldsMode.struct {cells : List Val} {max n : Nat} {fields : FieldList} {ok : Prop} (len : Option (BitVec 32))
    (all : FieldsMode env into cells max fields cells n ok) :
    NullMode (structEncoder env (encodersOf env into fields)) (.struct cells) len max n ok := by
  obtain ⟨outcome,reports,bounded,exact_⟩ := all 0
  rw [Nat.zero_add] at bounded exact_
  exact ⟨outcome,fun used buf => reports 0 0 buf,bounded,exact_⟩

theorem bitfieldMode {s : Scalar} {v : Val} {e : List Byte} (word : s = .uint32 ∨ s = .int32) (wire : ScalarWire s v e)
    (max : Nat) (len : Option (BitVec 32)) : NullMode encodebfUint32 v len max e.length False := by
  obtain ⟨w,rfl⟩ : ∃ w, v = .word w := by
    rcases word with rfl | rfl
    all_goals
      cases wire with
      | _ w => exact ⟨w,rfl⟩
  refine nullModeStop id fun used buf => ?_
  simp only [encodebfUint32]
  by_cases many : 32 ≤ max
  · rw [if_pos many]
    exact ⟨_,rfl⟩
  · rw [if_neg many, putNull (by simp [hostBytes,beBytes])]
    exact ⟨_,rfl⟩

mutual
theorem tableMode (inner : ∀ d v e max, enter d v e → NullMode (into d) v none max e.length (ok d v max)) :
    ∀ (funcs : TypeFunctions) (len : BitVec 32) (v : Val) (e : List Byte) (max : Nat),
      wireOf env rules enter funcs len v e → NullMode (encoderOf env into funcs) v (some len) max e.length
        (sizable env rules enter ok funcs len v max)
  | .scalar s,len,v,e,max,wire => scalarMode wire max _
  | .array s,len,v,e,max,wire => arrayMode wire max
  | .dict entry,len,v,e,max,wire => dictMode inner wire max _
  | .string,len,v,e,max,_ => nullModeStop id fun used buf => ⟨.abort,rfl⟩
  | .stringArr,len,v,e,max,wire => stringMode wire max _
  | .byteArr,len,v,e,max,wire => bytesMode wire max
  | .union,len,v,e,max,wire => unionMode inner wire max _
  | .unionArr,len,v,e,max,wire => unionMode inner wire max _
  | .uint32Bitfield,len,v,e,max,wire => bitfieldMode (.inl rfl) wire max _
  | .int32Bitfield,len,v,e,max,wire => bitfieldMode (.inr rfl) wire max _
  | .struct fields,len,v,e,max,wire => structMode inner fields (some len) v e max wire
  | .structArr fields,len,v,e,max,wire =>
    structArrayMode (fun v e max wire => structMode inner fields none v e max wire) wire max
theorem structMode (inner : ∀ d v e max, enter d v e → NullMode (into d) v none max e.length (ok d v max)) :
    ∀ (fields : FieldList) (len : Option (BitVec 32)) (v : Val) (e : List Byte) (max : Nat),
      (∃ cells, v = .struct cells ∧ wiresOf env rules enter cells fields 0 cells e) →
      NullMode (structEncoder env (encodersOf env into fields)) v len max e.length
        (∀ cells, v = .struct cells → sizableAll env rules enter ok cells fields cells max)
  | fields,len,v,e,max,wire => by
    obtain ⟨cells,rfl,wires⟩ := wire
    have same : (∀ cells', Val.struct cells = .struct cells' → sizableAll env rules enter ok cells' fields cells' max) ↔
        sizableAll env rules enter ok cells fields cells max := by
      simp
    rw [same]
    exact FieldsMode.struct len (fieldsMode inner fields 0 cells cells e max wires)
theorem fieldsMode (inner : ∀ d v e max, enter d v e → NullMode (into d) v none max e.length (ok d v max)) :
    ∀ (fields : FieldList) (i : Nat) (cells vs : List Val) (e : List Byte) (max : Nat),
      wiresOf env rules enter cells fields i vs e →
      FieldsMode env into cells max fields vs e.length (sizableAll env rules enter ok cells fields vs max)
  | .nil,i,cells,vs,e,max,wires => by
    obtain ⟨rfl,rfl⟩ := wires
    intro used
    exact ⟨some used,fun res len buf => ⟨res,rfl⟩,by simp,by simp [sizableAll]⟩
  | .cons funcs lenOffset structId rest,i,cells,vs,e,max,wires => by
    obtain ⟨v,vs',a,b,rfl,rfl,admitted,first,more⟩ := wires
    rw [List.length_append]
    exact FieldsMode.cons (tableMode inner funcs _ v a max first) (fieldsMode inner rest (i + 1) cells vs' b max more)
end

end Structs

def anyRules : Rules where
  field _ _ _ _ := True
  string _ := True
  definition _ := True
  nullObject := True
  nullBytes := True

def sizableObject (env : Env) : Nat → StructDefinition → Val → Nat → Prop
  | 0,_,_,_ => False
  | depth + 1,definition,v,max => match definition.coder with
    | .struct => ∀ cells, v = .struct cells → sizableAll env anyRules (objectWire env anyRules depth)
        (sizableObject env depth) cells definition.fields cells max
    | .bitfieldStruct => True

theorem objectMode {env : Env} {depth fuel : Nat} (deep : depth ≤ fuel) {d : StructDefinition} {v : Val} {e : List Byte}
    (wire : objectWire env anyRules depth d v e) (max : Nat) :
    NullMode (enterEncoder env fuel d) v none max e.length (sizableObject env depth d v max) := by
  induction depth generalizing fuel d v e max with
  | zero => exact wire.elim
  | succ depth ih =>
    obtain ⟨fuel,rfl⟩ : ∃ n, fuel = n + 1 := ⟨fuel - 1,by omega⟩
    have inner : ∀ d' v' e' max', objectWire env anyRules depth d' v' e' → NullMode (enterEncoder env fuel d') v' none
        max' e'.length (sizableObject env depth d' v' max') := fun d' v' e' max' wired => ih (by omega) wired max'
    cases coder : d.coder with
    | struct =>
      simp only [objectWire,coder] at wire
      simp only [enterEncoder,coder,sizableObject]
      rcases wire with wires | ⟨_,rfl,empty,rfl⟩
      · exact structMode inner d.fields none v e max wires
      · rw [empty]
        exact nullModeOk (by simp) fun used buf => ⟨0,rfl⟩
    | bitfieldStruct =>
      simp only [objectWire,coder] at wire
      simp only [enterEncoder,coder,sizableObject]
      obtain ⟨cells,val,rfl,word,rfl⟩ := wire
      refine nullModeOk trivial fun used buf => ⟨0,?_⟩
      simp only [bitfieldStructEncoder,word,encodeWord]
      rfl

/- A value whose unions nest less than `depth` deep is sized when `sizable` says so, by any
table, with any `max`. -/
theorem sizedWhenSizable (env : Env) {depth fuel : Nat} (deep : depth ≤ fuel) {funcs : TypeFunctions} {len : BitVec 32}
    {v : Val} {e : List Byte} (wire : wireOf env anyRules (objectWire env anyRules depth) funcs len v e) (max : Nat) :
    Sized (encoderOf env (enterEncoder env fuel) funcs) v (some len) max e.length ↔
      sizable env anyRules (objectWire env anyRules depth) (sizableObject env depth) funcs len v max := by
  have inner : ∀ d v e max, objectWire env anyRules depth d v e → NullMode (enterEncoder env fuel d) v none max e.length
      (sizableObject env depth d v max) := fun d v e max wired => objectMode deep wired max
  exact (tableMode inner funcs len v e max wire).sized

def sizedFields : FieldList :=
  .cons (.scalar .int32) 0 0 (.cons .byteArr 0 0 (.cons .union 0 0 (.cons .stringArr 0 0 .nil)))

def sizedCells : List Val := [.word 2,.chars [8,9],.union 7 (.struct [.word 9]),.chars [104,105]]

def sizedBytes : List Byte :=
  beBytes 2 ++ (([8,9] ++ zeros 2) ++ ((beBytes 7 ++ (beBytes 9 ++ [])) ++ (stringWire [104,105] ++ [])))

theorem sizedWire (len : BitVec 32) : wireOf sampleEnv anyRules (objectWire sampleEnv anyRules 1) (.struct sizedFields)
    len (.struct sizedCells) sizedBytes := by
  refine ⟨_,rfl,_,_,_,_,rfl,rfl,trivial,.int32 2,_,_,_,_,rfl,rfl,trivial,.chars [8,9] rfl (by decide),?_⟩
  refine ⟨_,_,_,_,rfl,rfl,trivial,?_,?_⟩
  · refine .union 7 _ _ _ rfl trivial (.inl ⟨_,rfl,?_⟩)
    exact ⟨_,_,_,_,rfl,rfl,trivial,.uint32 9,rfl,rfl⟩
  exact ⟨_,_,_,_,rfl,rfl,trivial,.chars _ (by decide) trivial,rfl,rfl⟩

theorem shortStringSized :
    Sized (encoderOf sampleEnv (enterEncoder sampleEnv 1) (.struct sizedFields)) (.struct sizedCells) (some 0) 7 24 ∧
    ¬ Sized (encoderOf sampleEnv (enterEncoder sampleEnv 1) (.struct sizedFields)) (.struct sizedCells) (some 0) 8 24 := by
  constructor
  · refine (sizedWhenSizable sampleEnv le_rfl (sizedWire 0) 7).mpr ?_
    rintro cells ⟨⟩
    refine ⟨trivial,trivial,⟨7,_,_,rfl,rfl,?_⟩,.inr ⟨by decide,by decide⟩,trivial⟩
    rintro cells ⟨⟩
    exact ⟨trivial,trivial⟩
  · intro sized
    obtain ⟨_,_,_,string,_⟩ := (sizedWhenSizable sampleEnv le_rfl (sizedWire 0) 8).mp sized _ rfl
    rcases string with empty | ⟨_,short⟩
    · exact absurd empty (by decide)
    · exact absurd short (by decide)

/- After a uint64 that did not fit, a string that would have is written through NULL; so is
a struct that is only to be sized. -/
theorem stringAfterOverflowWrites :
    (∃ e, wireOf sampleEnv anyRules (objectWire sampleEnv anyRules 1) .stringArr 0 (.chars [104,105]) e ∧
      ¬ Sized (encoderOf sampleEnv (enterEncoder sampleEnv 1) .stringArr) (.chars [104,105]) (some 0) 8 e.length) ∧
    xdrStructEncoder sampleEnv 1 (.cons (.scalar .uint32) 0 0 (.cons (.scalar .uint64) 0 0 (.cons .stringArr 0 0 .nil)))
      (.struct [.word 1,.dword 2,.chars [104,105]]) (.at 0) 8 (zeros 8) = .error .nullWrite ∧
    xdrStructEncoder sampleEnv 1 sizedFields (.struct sizedCells) .null 1024 [] = .error .nullWrite := by
  refine ⟨⟨stringWire [104,105],.chars _ (by decide) trivial,?_⟩,rfl,rfl⟩
  intro sized
  obtain ⟨res,done⟩ := sized 0 []
  have stops : encodeStringArray (.chars [104,105]) .null 0 8 (some 0) [] = .error .nullWrite := rfl
  rw [encoderOf, stops] at done
  contradiction

end LibProc.Xdr
