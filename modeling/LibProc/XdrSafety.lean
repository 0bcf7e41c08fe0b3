import LibProc.XdrValues

/-! Decoding bytes nobody vouches for. `Ends` is that a decoder comes back: it excludes a read outside the source,
the asserts, a write through NULL, and a recursion that does not come to its end, since every union takes four
bytes before it enters a type. Three things in xdr.c stand against it: the bitfield tables read a word whatever is
left, XDR_union_array_field_deallocator is an assert, and the malloc of XDR_decode_string_array is not checked. -/
namespace LibProc.Xdr
open XdrBytes XdrDict

def Ends {α : Type} (P : α → Prop) : Except Stop α → Prop
  | .ok a => P a
  | .error _ => False

theorem Ends.bind {α β : Type} {P : α → Prop} {Q : β → Prop} {x : Except Stop α} {f : α → Except Stop β}
    (first : Ends P x) (next : ∀ a, P a → Ends Q (f a)) : Ends Q (x >>= f) := by
  cases x with
  | error s => exact first.elim
  | ok a => exact next a first

def Bounded (max : Nat) (d : Decoded) : Prop := 0 ≤ d.res → d.inc ≤ max

theorem boundedFailure {max inc : Nat} {res : Int} {dst : Val} (negative : res < 0) : Bounded max ⟨res,inc,dst⟩ := by
  intro ok
  simp only at ok
  omega

theorem getEnds {n : Nat} {src : List Byte} (there : n ≤ src.length) : Ends (fun bs => bs.length = n) (get n src) := by
  unfold get
  rw [if_pos there]
  simpa [Ends] using there

theorem decodeWordEnds {src : List Byte} {max : Nat} (there : max ≤ src.length) :
    Ends (fun w => w = none ∨ 4 ≤ max) (decodeWord src max) := by
  unfold decodeWord
  split
  · exact .inl rfl
  · exact (getEnds (by omega)).bind fun _ _ => .inr (by omega)

def Safe (limit : Nat) (granted : List Nat → Prop) (admits : Val → Prop) (dec : Decoder) : Prop :=
  ∀ src dst inc max len path, max ≤ src.length → max < 2 ^ 32 → max ≤ limit → admits dst → granted path →
    Ends (Bounded max) (dec src dst inc max len path)

def anywhere (_ : List Nat) : Prop := True

section
variable {env : Env} {limit : Nat}

theorem decodeUint32Safe : Safe limit anywhere (fun _ => True) decodeUint32 := by
  intro src dst inc max len path there _ _ _ _
  refine (decodeWordEnds there).bind fun w read => ?_
  cases w with
  | none => exact boundedFailure (by decide)
  | some w =>
    intro _
    rcases read with impossible | enough
    · contradiction
    · exact enough

theorem decodeInt64Safe : Safe limit anywhere (fun _ => True) decodeInt64 := by
  intro src dst inc max len path there _ _ _ _
  simp only [decodeInt64]
  by_cases short : max < 8
  · rw [if_pos short]
    exact boundedFailure (by decide)
  · rw [if_neg short]
    have left : sizeSub max 4 = max - 4 := if_pos (by omega)
    refine (decodeWordEnds there).bind fun hi _ => ?_
    cases hi with
    | none => exact boundedFailure (by decide)
    | some hi =>
      have rest : sizeSub max 4 ≤ (src.drop 4).length := by
        rw [left, List.length_drop]
        omega
      refine (decodeWordEnds rest).bind fun lo _ => ?_
      cases lo with
      | none => exact boundedFailure (by decide)
      | some lo =>
        intro _
        simp only
        omega

theorem copySafe {width : Nat} {src : List Byte} {dst : Val} {inc max : Nat} (there : max ≤ src.length)
    (value : List Byte → Val) : Ends (Bounded max) (do
      if max < width then (.ok ⟨-1,inc,dst⟩ : Except Stop Decoded)
      else
        let bs ← get width src
        .ok ⟨0,width,value bs⟩) := by
  by_cases short : max < width
  · rw [if_pos short]
    exact boundedFailure (by decide)
  · rw [if_neg short]
    refine (getEnds (by omega)).bind fun bs _ _ => ?_
    simp only
    omega

theorem decodeScalarSafe (s : Scalar) : Safe limit anywhere (fun _ => True) (decodeScalar s) := by
  cases s with
  | int32 => exact decodeUint32Safe
  | uint32 => exact decodeUint32Safe
  | int64 => exact decodeInt64Safe
  | uint64 => exact decodeInt64Safe
  | float => exact fun _ _ _ _ _ _ there _ _ _ _ => copySafe there _
  | double => exact fun _ _ _ _ _ _ there _ _ _ _ => copySafe there _

theorem decodeStringArraySafe : Safe limit (fun path => env.alloc path = true) (fun _ => True) (decodeStringArray env) := by
  intro src dst inc max len path there small _ _ granted
  simp only [decodeStringArray]
  refine (decodeWordEnds there).bind fun w read => ?_
  cases w with
  | none => exact boundedFailure (by decide)
  | some strLen =>
    simp only
    by_cases long : max < 4 + strLen.toNat + pad strLen.toNat
    · rw [if_pos long]
      exact boundedFailure (by decide)
    · rw [if_neg long]
      rw [if_neg (by simp [granted]), if_neg (by omega)]
      have rest : strLen.toNat ≤ (src.drop 4).length := by
        rw [List.length_drop]
        omega
      refine (getEnds rest).bind fun str _ _ => ?_
      simp only
      rw [Nat.mod_eq_of_lt (by omega)]
      omega

theorem arrayDecodeLoopEnds {dec : Decoder} {uninit : Val} {admits : Val → Prop} (safe : Safe limit anywhere admits dec)
    (fresh : admits uninit) {src : List Byte} {max : Nat} (there : max ≤ src.length) (small : max < 2 ^ 32)
    (within : max ≤ limit) (path : List Nat) (count : Nat) {done : List Val} {decLen : Nat} (reached : decLen ≤ max) :
    Ends (fun r => 0 ≤ r.1 → r.2.1 ≤ max) (arrayDecodeLoop dec uninit src max path count done decLen) := by
  induction count generalizing done decLen with
  | zero => exact fun _ => reached
  | succ count ih =>
    have left : sizeSub max decLen = max - decLen := if_pos reached
    have rest : sizeSub max decLen ≤ (src.drop decLen).length := by
      rw [left, List.length_drop]
      omega
    simp only [arrayDecodeLoop]
    refine (safe _ _ _ _ none _ rest (by omega) (by omega) fresh trivial).bind fun r bounded => ?_
    by_cases failed : r.res < 0
    · rw [if_pos failed]
      intro ok
      simp only at ok
      omega
    · rw [if_neg failed]
      have inside := bounded (by omega)
      exact ih (by omega)

theorem decodeArraySafe {dec : Decoder} {uninit : Val} {admits : Val → Prop} (safe : Safe limit anywhere admits dec)
    (fresh : admits uninit) : Safe limit anywhere (fun _ => True) (decodeArray env dec uninit) := by
  intro src dst inc max len path there small within _ _
  cases len with
  | none =>
    intro _
    exact Nat.zero_le _
  | some len =>
    simp only [decodeArray,arrayDecoder]
    by_cases refused : env.alloc path = false
    · rw [if_pos refused]
      exact boundedFailure (by decide)
    · rw [if_neg refused]
      refine (arrayDecodeLoopEnds safe fresh there small within path len.toInt.toNat (Nat.zero_le max)).bind fun r bounded => ?_
      obtain ⟨res,decLen,vs⟩ := r
      by_cases failed : res < 0
      · simp only
        rw [if_pos failed]
        exact boundedFailure failed
      · simp only
        rw [if_neg failed]
        intro _
        exact bounded (by simpa using failed)

theorem dictionaryDecodeLoopEnds {dec : Decoder} {zero : Val} {granted : List Nat → Prop} {admits : Val → Prop}
    (safe : Safe limit granted admits dec) (fresh : admits zero) (sized : Bool) {src : List Byte} {max : Nat}
    (there : max ≤ src.length) (small : max < 2 ^ 32) (within : max ≤ limit) {path : List Nat}
    (grants : ∀ i, env.alloc (0 :: i :: path) = true ∧ granted (2 :: i :: path)) (count : Nat) {table : Dictionary Val}
    {decLen i : Nat} (reached : decLen ≤ max) :
    Ends (fun r => 0 ≤ r.1 → r.2.1 ≤ max) (dictionaryDecodeLoop env dec sized zero src max path count table decLen i) := by
  induction count generalizing table decLen i with
  | zero => exact fun _ => reached
  | succ count ih =>
    have left : sizeSub max decLen = max - decLen := if_pos reached
    have rest : sizeSub max decLen ≤ (src.drop decLen).length := by
      rw [left, List.length_drop]
      omega
    simp only [dictionaryDecodeLoop]
    have key : Safe limit (fun path => env.alloc path = true) (fun _ => True) (decodeStringArray env) := decodeStringArraySafe
    refine (key _ _ _ _ none _ rest (by omega) (by omega) trivial (grants i).1).bind fun name bounded => ?_
    by_cases failed : name.res < 0
    · rw [if_pos failed]
      intro ok
      simp only at ok
      omega
    rw [if_neg failed]
    by_cases refused : sized = true ∧ env.alloc (1 :: i :: path) = false
    · rw [if_pos refused]
      intro ok
      simp only at ok
      omega
    rw [if_neg refused]
    have inside := bounded (by omega)
    have left' : sizeSub max (decLen + name.inc) = max - (decLen + name.inc) := if_pos (by omega)
    have rest' : sizeSub max (decLen + name.inc) ≤ (src.drop (decLen + name.inc)).length := by
      rw [left', List.length_drop]
      omega
    refine (safe _ _ _ _ none _ rest' (by omega) (by omega) fresh (grants i).2).bind fun value bounded' => ?_
    by_cases failed' : value.res < 0
    · rw [if_pos failed']
      intro ok
      simp only at ok
      omega
    · rw [if_neg failed']
      have inside' := bounded' (by omega)
      exact ih (by omega)

theorem dictionaryDecoderSafe {dec : Decoder} {zero : Val} {granted : List Nat → Prop} {admits : Val → Prop}
    (safe : Safe limit granted admits dec) (fresh : admits zero) (sized : Bool) :
    Safe limit (fun path => ∀ i, env.alloc (0 :: i :: path) = true ∧ granted (2 :: i :: path))
      (fun v => ∃ table, v = .dict table) (dictionaryDecoder env dec sized zero) := by
  rintro src dst inc max len path there small within ⟨table,rfl⟩ grants
  simp only [dictionaryDecoder]
  refine (decodeWordEnds there).bind fun w read => ?_
  cases w with
  | none => exact boundedFailure (by decide)
  | some count =>
    have enough : 4 ≤ max := by
      rcases read with impossible | enough
      · contradiction
      · exact enough
    refine (dictionaryDecodeLoopEnds safe fresh sized there small within grants count.toNat enough).bind fun r bounded => ?_
    obtain ⟨res,decLen,table'⟩ := r
    by_cases failed : res < 0
    · simp only
      rw [if_pos failed]
      exact boundedFailure failed
    · simp only
      rw [if_neg failed]
      intro _
      exact bounded (by simpa using failed)

end

def xdrTable : TypeFunctions → Bool
  | .scalar _ => true
  | .array _ => true
  | .dict e => e ≠ .byteArr
  | .stringArr => true
  | .union => true
  | .unionArr => true
  | .uint32Bitfield => true
  | .int32Bitfield => true
  | _ => false

def bitfieldTable : TypeFunctions → Bool
  | .uint32Bitfield => true
  | .int32Bitfield => true
  | _ => false

def stringTable : TypeFunctions → Bool
  | .stringArr => true
  | .dict _ => true
  | _ => false

def unionTable : TypeFunctions → Bool
  | .union => true
  | .unionArr => true
  | .dict .union => true
  | _ => false

def builtFrom (tables : TypeFunctions → Bool) : FieldList → Bool
  | .nil => true
  | .cons funcs _ _ rest => xdrTable funcs && tables funcs && builtFrom tables rest

def bitFields : FieldList → Bool
  | .nil => true
  | .cons .uint32Bitfield lenOffset structId rest => decide (lenOffset < 32 ∧ structId < 32) && bitFields rest
  | .cons .int32Bitfield lenOffset structId rest =>
      decide (0 < lenOffset ∧ lenOffset < 32 ∧ structId < 32) && bitFields rest
  | .cons _ _ _ _ => false

section
variable (env : Env) (enter : StructDefinition → List Nat → Prop)

def typesGranted (path : List Nat) : Prop :=
  ∀ type definition, env.definitionForType type = some definition → enter definition (0 :: path)

def entryGranted : Entry → List Nat → Prop
  | .stringArr,path => env.alloc path = true
  | .union,path => typesGranted env enter path
  | _,_ => True

def tableGranted : TypeFunctions → List Nat → Prop
  | .stringArr,path => env.alloc path = true
  | .dict e,path => ∀ i, env.alloc (0 :: i :: path) = true ∧ entryGranted env enter e (2 :: i :: path)
  | .union,path => typesGranted env enter path
  | .unionArr,path => typesGranted env enter path
  | _,_ => True

def fieldsGranted : FieldList → Nat → List Nat → Prop
  | .nil,_,_ => True
  | .cons funcs _ _ rest,k,path => tableGranted env enter funcs (k :: path) ∧ fieldsGranted rest (k + 1) path

end

def enterGranted (env : Env) : Nat → StructDefinition → List Nat → Prop
  | 0,_,_ => True
  | fuel + 1,definition,path => match definition.coder with
    | .struct => fieldsGranted env (enterGranted env fuel) definition.fields 0 path
    | .bitfieldStruct => True

/- Every string that the fields may hold, at whatever depth, gets its memory; another malloc may fail. -/
def stringsGranted (env : Env) (fuel : Nat) (fields : FieldList) : Prop := fieldsGranted env (enterGranted env fuel) fields 0 []

structure Tables where
  listed : TypeFunctions → Bool
  registered : TypeFunctions → Bool
  bits : FieldList → Bool
  granted : Bool

def TypesFrom (t : Tables) (env : Env) : Prop :=
  ∀ type definition, env.definitionForType type = some definition → match definition.coder with
    | .struct => builtFrom t.registered definition.fields = true
    | .bitfieldStruct => t.bits definition.fields = true

structure Admits (t : Tables) (env : Env) (fuel : Nat) (fields : FieldList) : Prop where
  listed : builtFrom t.listed fields = true
  types : TypesFrom t env
  strings : t.granted = true → stringsGranted env fuel fields

def Present (kind tables : TypeFunctions → Bool) : Prop := ∃ funcs, xdrTable funcs = true ∧ kind funcs = true ∧ tables funcs = true

structure SoundTypes (t : Tables) : Prop where
  plain : ¬Present bitfieldTable t.registered
  freed : t.registered .unionArr = false
  strings : Present stringTable t.registered → t.granted = true
  shifts : ∀ fields, t.bits fields = true → bitFields fields = true

structure Sound (t : Tables) : Prop where
  plain : ¬Present bitfieldTable t.listed
  strings : Present stringTable t.listed → t.granted = true
  types : Present unionTable t.listed → SoundTypes t

/- XDR_struct_decoder comes back from a source of `src.length` bytes, and says no more than these when it succeeds. -/
def DecodesSafely (env : Env) (fuel : Nat) (fields : FieldList) (src : List Byte) (there : List Val) : Prop :=
  ∃ r, xdrStructDecoder env fuel fields src (.struct there) src.length = .ok r ∧ (0 ≤ r.res → r.inc ≤ src.length)

def AlwaysSafe (t : Tables) : Prop :=
  ∀ env fields there src fuel, Admits t env fuel fields → FitsAll fields there → src.length < 2 ^ 32 → src.length / 4 ≤ fuel →
    DecodesSafely env fuel fields src there

section
variable {env : Env} {limit : Nat} {granted : StructDefinition → List Nat → Prop} {t : Tables}

def freeTable : TypeFunctions → Bool
  | .unionArr => false
  | _ => true

theorem builtMono {tables more : TypeFunctions → Bool} (le : ∀ funcs, tables funcs = true → more funcs = true) :
    ∀ fields, builtFrom tables fields = true → builtFrom more fields = true
  | .nil,_ => rfl
  | .cons funcs _ _ rest,ok => by
    simp only [builtFrom,Bool.and_eq_true] at ok ⊢
    exact ⟨⟨ok.1.1,le funcs ok.1.2⟩,builtMono le rest ok.2⟩

theorem bitsFree : ∀ fields, bitFields fields = true → builtFrom freeTable fields = true
  | .nil,_ => rfl
  | .cons funcs lenOffset structId rest,ok => by
    cases funcs with
    | uint32Bitfield =>
      simp only [bitFields,Bool.and_eq_true] at ok
      simpa only [builtFrom,xdrTable,freeTable,Bool.true_and] using bitsFree rest ok.2
    | int32Bitfield =>
      simp only [bitFields,Bool.and_eq_true] at ok
      simpa only [builtFrom,xdrTable,freeTable,Bool.true_and] using bitsFree rest ok.2
    | _ => simp [bitFields] at ok

def FreeTypes (env : Env) : Prop :=
  ∀ type definition, env.definitionForType type = some definition → builtFrom freeTable definition.fields = true

theorem typesFree (sound : SoundTypes t) (types : TypesFrom t env) : FreeTypes env := by
  intro type definition found
  have known := types type definition found
  have frees : ∀ funcs, t.registered funcs = true → freeTable funcs = true := by
    intro funcs inside
    cases funcs with
    | unionArr => exact absurd (sound.freed.symm.trans inside) Bool.noConfusion
    | _ => rfl
  cases coder : definition.coder with
  | struct =>
    rw [coder] at known
    exact builtMono frees _ known
  | bitfieldStruct =>
    rw [coder] at known
    exact bitsFree _ (sound.shifts _ known)

theorem leafDealloc {v : Val} (leaf : ∀ type data, v ≠ .union type data) {funcs : TypeFunctions}
    (ok : xdrTable funcs = true) (free : freeTable funcs = true) : fieldDealloc env funcs v = .ok () := by
  cases funcs with
  | unionArr => contradiction
  | union =>
    cases v with
    | union type data => exact (leaf type data rfl).elim
    | _ => simp only [fieldDealloc]
  | struct fields => contradiction
  | _ => simp only [fieldDealloc]

theorem leafFree {v : Val} (leaf : ∀ cells, v ≠ .struct cells) (fields : FieldList) :
    structFreeDeallocator env fields v = .ok () := by
  cases v with
  | struct cells => exact (leaf cells rfl).elim
  | _ => simp only [structFreeDeallocator]

mutual
theorem fieldDeallocFrees (types : FreeTypes env) : ∀ (v : Val) (funcs : TypeFunctions),
    xdrTable funcs = true → freeTable funcs = true → fieldDealloc env funcs v = .ok ()
  | .union type data,funcs,ok,free => by
    cases funcs with
    | union =>
      simp only [fieldDealloc]
      cases found : env.definitionForType type with
      | none => rfl
      | some definition => exact structFreeFrees types data definition.fields (types type definition found)
    | unionArr => contradiction
    | struct fields => contradiction
    | _ => simp only [fieldDealloc]
  | .word _,_,ok,free => leafDealloc (by simp) ok free
  | .dword _,_,ok,free => leafDealloc (by simp) ok free
  | .null,_,ok,free => leafDealloc (by simp) ok free
  | .chars _,_,ok,free => leafDealloc (by simp) ok free
  | .array _,_,ok,free => leafDealloc (by simp) ok free
  | .dict _,_,ok,free => leafDealloc (by simp) ok free
  | .struct _,_,ok,free => leafDealloc (by simp) ok free
theorem structFreeFrees (types : FreeTypes env) : ∀ (v : Val) (fields : FieldList),
    builtFrom freeTable fields = true → structFreeDeallocator env fields v = .ok ()
  | .struct cells,fields,ok => by
    simp only [structFreeDeallocator]
    exact structFreeFieldsFrees types cells fields ok
  | .word _,fields,_ => leafFree (by simp) fields
  | .dword _,fields,_ => leafFree (by simp) fields
  | .null,fields,_ => leafFree (by simp) fields
  | .chars _,fields,_ => leafFree (by simp) fields
  | .array _,fields,_ => leafFree (by simp) fields
  | .union _ _,fields,_ => leafFree (by simp) fields
  | .dict _,fields,_ => leafFree (by simp) fields
theorem structFreeFieldsFrees (types : FreeTypes env) : ∀ (vs : List Val) (fields : FieldList),
    builtFrom freeTable fields = true → structFreeFields env fields vs = .ok ()
  | [],fields,_ => by
    cases fields <;> simp only [structFreeFields]
  | v :: vs,fields,ok => by
    cases fields with
    | nil => simp only [structFreeFields]
    | cons funcs lenOffset structId rest =>
      simp only [builtFrom,Bool.and_eq_true] at ok
      simp only [structFreeFields]
      rw [fieldDeallocFrees types v funcs ok.1.1 ok.1.2]
      exact structFreeFieldsFrees types vs rest ok.2
end

structure EntersSafely (env : Env) (limit : Nat) (granted : StructDefinition → List Nat → Prop)
    (from_ : StructDefinition → Decoder) : Prop where
  ends : ∀ type definition, env.definitionForType type = some definition → ∀ src inc max len path,
    max ≤ src.length → max < 2 ^ 32 → max + 4 ≤ limit → granted definition path →
      Ends (Bounded max) (from_ definition src (.struct (zerosOf definition.fields)) inc max len path)
  free : FreeTypes env

theorem decodeUnionSafe {from_ : StructDefinition → Decoder} (enters : EntersSafely env limit granted from_) :
    Safe limit (typesGranted env granted) (Fits .union) (decodeUnion env from_) := by
  rintro src dst inc max len path there small within ⟨old,garbage,rfl⟩ grants
  simp only [decodeUnion]
  refine (decodeWordEnds there).bind fun w read => ?_
  cases w with
  | none => exact boundedFailure (by decide)
  | some type =>
    have enough : 4 ≤ max := by
      rcases read with impossible | enough
      · contradiction
      · exact enough
    simp only
    cases found : env.definitionForType type with
    | none => exact boundedFailure (by decide)
    | some definition =>
      simp only
      by_cases refused : definition.inMemorySize = 0 ∨ env.alloc path = false
      · rw [if_pos refused]
        exact boundedFailure (by decide)
      rw [if_neg refused]
      have left : sizeSub max 4 = max - 4 := if_pos enough
      have rest : sizeSub max 4 ≤ (src.drop 4).length := by
        rw [left, List.length_drop]
        omega
      refine (enters.ends type definition found _ _ _ none _ rest (by omega) (by omega) (grants type definition found)).bind
        fun r bounded => ?_
      by_cases failed : r.res < 0
      · rw [if_pos failed, structFreeFrees enters.free r.dst definition.fields (enters.free type definition found)]
        exact boundedFailure (by decide)
      · rw [if_neg failed]
        have inside := bounded (by omega)
        intro _
        simp only
        omega

theorem decodeEntrySafe {from_ : StructDefinition → Decoder} (e : Entry) (ok : e ≠ .byteArr)
    (enters : e = .union → EntersSafely env limit granted from_) :
    ∃ admits, Safe limit (entryGranted env granted e) admits (decodeEntry env from_ e) ∧ admits (entryZero e) := by
  cases e with
  | scalar s => exact ⟨_,decodeScalarSafe s,trivial⟩
  | stringArr => exact ⟨_,decodeStringArraySafe,trivial⟩
  | byteArr => exact (ok rfl).elim
  | union => exact ⟨_,decodeUnionSafe (enters rfl),0,.null,rfl⟩

theorem tableSafe {from_ : StructDefinition → Decoder} (funcs : TypeFunctions) (ok : xdrTable funcs = true)
    (plain : bitfieldTable funcs = false) (enters : unionTable funcs = true → EntersSafely env limit granted from_) :
    Safe limit (tableGranted env granted funcs) (Fits funcs) (decoderOf env from_ funcs) := by
  cases funcs with
  | scalar s =>
    simp only [decoderOf]
    exact decodeScalarSafe s
  | array s =>
    simp only [decoderOf]
    exact decodeArraySafe (decodeScalarSafe s) trivial
  | dict e =>
    have inside : e = .union → EntersSafely env limit granted from_ := by
      rintro rfl
      exact enters rfl
    obtain ⟨admits,safe,zero⟩ := decodeEntrySafe e (by simpa [xdrTable] using ok) inside
    simp only [decoderOf]
    exact dictionaryDecoderSafe safe zero _
  | stringArr =>
    simp only [decoderOf]
    exact decodeStringArraySafe
  | union =>
    simp only [decoderOf]
    exact decodeUnionSafe (enters rfl)
  | unionArr =>
    simp only [decoderOf]
    exact decodeUnionSafe (enters rfl)
  | uint32Bitfield => contradiction
  | int32Bitfield => contradiction
  | _ => simp [xdrTable] at ok

def TablesSafe (env : Env) (limit : Nat) (granted : StructDefinition → List Nat → Prop) (from_ : StructDefinition → Decoder)
    (tables : TypeFunctions → Bool) : Prop :=
  ¬Present bitfieldTable tables ∧ (Present unionTable tables → EntersSafely env limit granted from_)

theorem structDecodeLoopEnds {from_ : StructDefinition → Decoder} {tables : TypeFunctions → Bool}
    (safe : TablesSafe env limit granted from_ tables) {src : List Byte} {max : Nat} (there : max ≤ src.length)
    (small : max < 2 ^ 32) (within : max ≤ limit) (path : List Nat) :
    ∀ (fields : FieldList) (done cells : List Val) (used : Nat), builtFrom tables fields = true → FitsAll fields cells →
      fieldsGranted env granted fields done.length path → used ≤ max →
        Ends (Bounded max) (structDecodeLoop env src max path (decodersOf env from_ fields) done cells used)
  | .nil,done,cells,used,_,_,_,reached => by
    simp only [decodersOf,structDecodeLoop]
    exact fun _ => reached
  | .cons funcs lenOffset structId rest,done,cells,used,ok,fits,grants,reached => by
    obtain ⟨v,vs,rfl,fit,others⟩ := fits
    simp only [builtFrom,Bool.and_eq_true] at ok
    have plain : bitfieldTable funcs = false := by
      rw [← Bool.not_eq_true]
      exact fun bits => safe.1 ⟨funcs,ok.1.1,bits,ok.1.2⟩
    have left : sizeSub max used = max - used := if_pos reached
    have ahead : sizeSub max used ≤ (src.drop used).length := by
      rw [left, List.length_drop]
      omega
    simp only [decodersOf,structDecodeLoop]
    refine (tableSafe funcs ok.1.1 plain (fun unions => safe.2 ⟨funcs,ok.1.1,unions,ok.1.2⟩) _ _ _ _ _ _ ahead (by omega)
      (by omega) fit grants.1).bind fun r bounded => ?_
    by_cases failed : r.res < 0
    · rw [if_pos failed]
      exact boundedFailure (by decide)
    · rw [if_neg failed]
      have inside := bounded (by omega)
      have next : fieldsGranted env granted rest (done ++ [r.dst]).length path := by
        rw [List.length_append]
        exact grants.2
      exact structDecodeLoopEnds safe there small within path rest _ vs _ ok.2 others next (by omega)

theorem structDecoderSafe {from_ : StructDefinition → Decoder} {tables : TypeFunctions → Bool}
    (safe : TablesSafe env limit granted from_ tables) {fields : FieldList} (ok : builtFrom tables fields = true) :
    Safe limit (fieldsGranted env granted fields 0) (Fits (.struct fields)) (structDecoder env (decodersOf env from_ fields)) := by
  rintro src dst inc max len path there small within ⟨cells,rfl,fits⟩ grants
  simp only [structDecoder]
  refine (structDecodeLoopEnds safe there small within path fields [] cells 0 ok fits grants (Nat.zero_le _)).bind
    fun r bounded => ?_
  by_cases failed : r.res < 0
  · rw [if_pos failed]
    exact boundedFailure failed
  · rw [if_neg failed]
    exact bounded

theorem bitfieldCellsEnds : ∀ (fields : FieldList) (val : BitVec 32), bitFields fields = true →
    Ends (fun _ => True) (bitfieldCells fields (zerosOf fields) val)
  | .nil,val,_ => by
    simp only [bitfieldCells]
    trivial
  | .cons funcs lenOffset structId rest,val,ok => by
    cases funcs with
    | uint32Bitfield =>
      simp only [bitFields,Bool.and_eq_true,decide_eq_true_eq] at ok
      simp only [zerosOf,bitfieldCells]
      rw [if_neg (by omega)]
      exact (bitfieldCellsEnds rest val ok.2).bind fun _ _ => trivial
    | int32Bitfield =>
      simp only [bitFields,Bool.and_eq_true,decide_eq_true_eq] at ok
      simp only [zerosOf,bitfieldCells]
      rw [if_neg (by omega), if_neg (by omega)]
      exact (bitfieldCellsEnds rest val ok.2).bind fun _ _ => trivial
    | _ => simp [bitFields] at ok

theorem bitfieldStructDecoderEnds {fields : FieldList} (ok : bitFields fields = true) {src : List Byte} {inc max : Nat}
    (len : Option (BitVec 32)) (path : List Nat) (there : max ≤ src.length) :
    Ends (Bounded max) (bitfieldStructDecoder fields src (.struct (zerosOf fields)) inc max len path) := by
  simp only [bitfieldStructDecoder]
  refine (decodeWordEnds there).bind fun w read => ?_
  cases w with
  | none => exact boundedFailure (by decide)
  | some val =>
    refine (bitfieldCellsEnds fields val ok).bind fun cells _ _ => ?_
    rcases read with impossible | enough
    · contradiction
    · exact enough

theorem enterDecoderSafe (sound : SoundTypes t) (types : TypesFrom t env) (fuel : Nat) :
    EntersSafely env (4 * fuel + 3) (enterGranted env fuel) (enterDecoder env fuel) := by
  refine ⟨?_,typesFree sound types⟩
  induction fuel with
  | zero =>
    intro type definition found src inc max len path there small within
    omega
  | succ fuel ih =>
    intro type definition found src inc max len path there small within grants
    have known := types type definition found
    simp only [enterDecoder]
    simp only [enterGranted] at grants
    cases coder : definition.coder with
    | struct =>
      rw [coder] at known grants
      have safe : TablesSafe env (4 * fuel + 3) (enterGranted env fuel) (enterDecoder env fuel) t.registered :=
        ⟨sound.plain,fun _ => ⟨ih,typesFree sound types⟩⟩
      exact structDecoderSafe safe known src _ inc max len path there small (by omega) ⟨_,rfl,zerosFit definition.fields⟩ grants
    | bitfieldStruct =>
      rw [coder] at known
      exact bitfieldStructDecoderEnds (sound.shifts _ known) len path there

theorem fieldsGrantedWithout {tables : TypeFunctions → Bool} (none_ : ¬Present stringTable tables)
    (types : Present unionTable tables → ∀ path, typesGranted env granted path) :
    ∀ (fields : FieldList) (k : Nat) (path : List Nat), builtFrom tables fields = true → fieldsGranted env granted fields k path
  | .nil,_,_,_ => trivial
  | .cons funcs lenOffset structId rest,k,path,ok => by
    simp only [builtFrom,Bool.and_eq_true] at ok
    refine ⟨?_,fieldsGrantedWithout none_ types rest (k + 1) path ok.2⟩
    cases funcs with
    | stringArr => exact absurd ⟨_,ok.1.1,rfl,ok.1.2⟩ none_
    | dict e => exact absurd ⟨_,ok.1.1,rfl,ok.1.2⟩ none_
    | union => exact types ⟨_,rfl,rfl,ok.1.2⟩ _
    | unionArr => exact types ⟨_,rfl,rfl,ok.1.2⟩ _
    | _ => trivial

theorem enterGrantedWithout (none_ : ¬Present stringTable t.registered) (types : TypesFrom t env) (fuel : Nat) (path : List Nat) :
    typesGranted env (enterGranted env fuel) path := by
  induction fuel generalizing path with
  | zero => exact fun _ _ _ => trivial
  | succ fuel ih =>
    intro type definition found
    have known := types type definition found
    simp only [enterGranted]
    cases coder : definition.coder with
    | struct =>
      rw [coder] at known
      exact fieldsGrantedWithout none_ (fun _ => ih) definition.fields 0 _ known
    | bitfieldStruct => trivial

theorem soundGrants (sound : Sound t) {fields : FieldList} {fuel : Nat} (admits : Admits t env fuel fields) :
    stringsGranted env fuel fields := by
  by_cases always : t.granted = true
  · exact admits.strings always
  · refine fieldsGrantedWithout (fun strings => always (sound.strings strings)) (fun unions => ?_) fields 0 [] admits.listed
    exact enterGrantedWithout (fun strings => always ((sound.types unions).strings strings)) admits.types fuel

theorem soundDecodes (sound : Sound t) : AlwaysSafe t := by
  intro env fields there src fuel admits fits small enough
  have tables : TablesSafe env (4 * fuel + 3) (enterGranted env fuel) (enterDecoder env fuel) t.listed :=
    ⟨sound.plain,fun unions => enterDecoderSafe (sound.types unions) admits.types fuel⟩
  have safe := structDecoderSafe tables admits.listed src (.struct there) 0 src.length none [] le_rfl small (by omega)
    ⟨there,rfl,fits⟩ (soundGrants sound admits)
  unfold DecodesSafely xdrStructDecoder
  cases r : structDecoder env (decodersOf env (enterDecoder env fuel) fields) src (.struct there) 0 src.length none [] with
  | error s =>
    rw [r] at safe
    exact safe.elim
  | ok d =>
    rw [r] at safe
    exact ⟨d,rfl,safe⟩

end

def faultyEnv (definition : Option StructDefinition) (alloc : List Nat → Bool) : Env where
  definitionForType type := if type = 7 then definition else none
  alloc := alloc
  address _ := 0
  firstPointerNull _ := true

def oneField (funcs : TypeFunctions) : FieldList := .cons funcs 0 0 .nil

section
variable {t : Tables}

theorem oneBuilt {tables : TypeFunctions → Bool} {funcs : TypeFunctions} (ok : xdrTable funcs = true) (inside : tables funcs = true) :
    builtFrom tables (oneField funcs) = true := by
  simp [oneField,builtFrom,ok,inside]

theorem typesNone (alloc : List Nat → Bool) : TypesFrom t (faultyEnv none alloc) := by
  intro type definition found
  simp [faultyEnv] at found

theorem typesOne {definition : StructDefinition} (alloc : List Nat → Bool) (known : match definition.coder with
    | .struct => builtFrom t.registered definition.fields = true
    | .bitfieldStruct => t.bits definition.fields = true) : TypesFrom t (faultyEnv (some definition) alloc) := by
  intro type definition' found
  simp only [faultyEnv] at found
  split at found
  · cases Option.some.inj found
    exact known
  · contradiction

theorem fieldsGrantedAll {env : Env} (all : ∀ path, env.alloc path = true) {granted : StructDefinition → List Nat → Prop}
    (types : ∀ path, typesGranted env granted path) : ∀ (fields : FieldList) (k : Nat) (path : List Nat), fieldsGranted env granted fields k path
  | .nil,_,_ => trivial
  | .cons funcs lenOffset structId rest,k,path => by
    refine ⟨?_,fieldsGrantedAll all types rest (k + 1) path⟩
    cases funcs with
    | stringArr => exact all _
    | dict e =>
      refine fun i => ⟨all _,?_⟩
      cases e with
      | stringArr => exact all _
      | union => exact types _
      | _ => trivial
    | union => exact types _
    | unionArr => exact types _
    | _ => trivial

theorem enterGrantedAll {env : Env} (all : ∀ path, env.alloc path = true) (fuel : Nat) (path : List Nat) :
    typesGranted env (enterGranted env fuel) path := by
  induction fuel generalizing path with
  | zero => exact fun _ _ _ => trivial
  | succ fuel ih =>
    intro type definition found
    simp only [enterGranted]
    cases definition.coder with
    | struct => exact fieldsGrantedAll all ih definition.fields 0 _
    | bitfieldStruct => trivial

theorem stringsGrantedAll {env : Env} (all : ∀ path, env.alloc path = true) (fuel : Nat) (fields : FieldList) :
    stringsGranted env fuel fields :=
  fieldsGrantedAll all (enterGrantedAll all fuel) fields 0 []

theorem faultFound (safe : AlwaysSafe t) {env : Env} {funcs : TypeFunctions} (src : List Byte) (stop : Stop)
    (ok : xdrTable funcs = true) (listed : t.listed funcs = true) (types : TypesFrom t env)
    (strings : t.granted = true → ∀ path, env.alloc path = true) (small : src.length ≤ 32)
    (fault : xdrStructDecoder env 8 (oneField funcs) src (.struct (zerosOf (oneField funcs))) src.length = .error stop) : False := by
  have admits : Admits t env 8 (oneField funcs) :=
    ⟨oneBuilt ok listed,types,fun always => stringsGrantedAll (strings always) 8 _⟩
  obtain ⟨r,comes,-⟩ := safe env (oneField funcs) _ src 8 admits (zerosFit _) (by omega) (by omega)
  rw [fault] at comes
  contradiction

theorem bitfieldCellsFault : ∀ fields : FieldList, bitFields fields = false →
    ∃ stop, ∀ val, bitfieldCells fields (zerosOf fields) val = .error stop
  | .nil,bad => by contradiction
  | .cons funcs lenOffset structId rest,bad => by
    simp only [zerosOf,bitfieldCells]
    by_cases wide : 32 ≤ lenOffset ∨ 32 ≤ structId
    · exact ⟨_,fun _ => if_pos wide⟩
    simp only [if_neg wide]
    cases funcs with
    | uint32Bitfield =>
      have later : bitFields rest = false := by
        simpa [bitFields,show lenOffset < 32 ∧ structId < 32 by omega] using bad
      obtain ⟨stop,fault⟩ := bitfieldCellsFault rest later
      exact ⟨stop,fun val => by rw [fault]; rfl⟩
    | int32Bitfield =>
      by_cases none_ : lenOffset = 0
      · exact ⟨_,fun _ => if_pos none_⟩
      · have later : bitFields rest = false := by
          simpa [bitFields,show 0 < lenOffset ∧ lenOffset < 32 ∧ structId < 32 by omega] using bad
        obtain ⟨stop,fault⟩ := bitfieldCellsFault rest later
        exact ⟨stop,fun val => by rw [if_neg none_, fault]; rfl⟩
    | _ => exact ⟨_,fun _ => rfl⟩

theorem plainNeeded (safe : AlwaysSafe t) : ¬Present bitfieldTable t.listed := by
  rintro ⟨funcs,ok,bits,listed⟩
  have types : TypesFrom t (faultyEnv none fun _ => true) := typesNone _
  cases funcs with
  | uint32Bitfield => exact faultFound safe [] .oob ok listed types (fun _ _ => rfl) (by decide) rfl
  | int32Bitfield => exact faultFound safe [] .oob ok listed types (fun _ _ => rfl) (by decide) rfl
  | _ => contradiction

theorem stringsNeeded (safe : AlwaysSafe t) (strings : Present stringTable t.listed) : t.granted = true := by
  obtain ⟨funcs,ok,string,listed⟩ := strings
  have types : TypesFrom t (faultyEnv none fun _ => false) := typesNone _
  by_contra refused
  cases funcs with
  | stringArr => exact faultFound safe [0,0,0,0] .nullWrite ok listed types (absurd · refused) (by decide) rfl
  | dict e =>
    exact faultFound safe [0,0,0,1,0,0,0,0] .nullWrite ok listed types (absurd · refused) (by decide) rfl
  | _ => contradiction

def entering : TypeFunctions → List Byte
  | .dict _ => [0,0,0,1,0,0,0,0,0,0,0,7]
  | _ => [0,0,0,7]

theorem typesFault (safe : AlwaysSafe t) {definition : StructDefinition} {alloc : List Nat → Bool} {funcs : TypeFunctions}
    (rest : List Byte) (stop : Stop) (ok : xdrTable funcs = true) (listed : t.listed funcs = true)
    (known : match definition.coder with
      | .struct => builtFrom t.registered definition.fields = true
      | .bitfieldStruct => t.bits definition.fields = true)
    (strings : t.granted = true → ∀ path, alloc path = true) (small : (entering funcs ++ rest).length ≤ 32)
    (fault : xdrStructDecoder (faultyEnv (some definition) alloc) 8 (oneField funcs) (entering funcs ++ rest)
      (.struct (zerosOf (oneField funcs))) (entering funcs ++ rest).length = .error stop) : False :=
  faultFound safe _ stop ok listed (typesOne alloc known) strings small fault

theorem typesPlain (safe : AlwaysSafe t) (unions : Present unionTable t.listed) : ¬Present bitfieldTable t.registered := by
  obtain ⟨funcs,ok,union,listed⟩ := unions
  rintro ⟨inner,ok',bits,registered⟩
  have known : builtFrom t.registered (oneField inner) = true := oneBuilt ok' registered
  have fault : ∀ stop, xdrStructDecoder (faultyEnv (some ⟨1,.struct,oneField inner⟩) fun _ => true) 8 (oneField funcs)
      (entering funcs ++ []) (.struct (zerosOf (oneField funcs))) (entering funcs ++ []).length = .error stop → False :=
    fun stop => typesFault safe [] stop ok listed known (fun _ _ => rfl) (by cases funcs <;> simp [entering])
  cases inner with
  | uint32Bitfield => cases funcs with
    | union => exact fault .oob rfl
    | unionArr => exact fault .oob rfl
    | dict e => cases e with
      | union => exact fault .oob rfl
      | _ => contradiction
    | _ => contradiction
  | int32Bitfield => cases funcs with
    | union => exact fault .oob rfl
    | unionArr => exact fault .oob rfl
    | dict e => cases e with
      | union => exact fault .oob rfl
      | _ => contradiction
    | _ => contradiction
  | _ => contradiction

theorem typesFreed (safe : AlwaysSafe t) (unions : Present unionTable t.listed) : t.registered .unionArr = false := by
  obtain ⟨funcs,ok,union,listed⟩ := unions
  by_contra holds
  rw [Bool.not_eq_false] at holds
  have known : builtFrom t.registered (oneField .unionArr) = true := oneBuilt rfl holds
  have fault : xdrStructDecoder (faultyEnv (some ⟨1,.struct,oneField .unionArr⟩) fun _ => true) 8 (oneField funcs)
      (entering funcs ++ []) (.struct (zerosOf (oneField funcs))) (entering funcs ++ []).length = .error .abort → False :=
    typesFault safe [] .abort ok listed known (fun _ _ => rfl) (by cases funcs <;> simp [entering])
  cases funcs with
  | union => exact fault rfl
  | unionArr => exact fault rfl
  | dict e => cases e with
    | union => exact fault rfl
    | _ => contradiction
  | _ => contradiction

theorem typesStrings (safe : AlwaysSafe t) (unions : Present unionTable t.listed) (strings : Present stringTable t.registered) :
    t.granted = true := by
  obtain ⟨funcs,ok,union,listed⟩ := unions
  obtain ⟨inner,ok',string,registered⟩ := strings
  by_contra refused
  have known : builtFrom t.registered (oneField inner) = true := oneBuilt ok' registered
  have fault : ∀ rest, rest.length ≤ 16 → xdrStructDecoder (faultyEnv (some ⟨1,.struct,oneField inner⟩) (· == [0])) 8 (oneField funcs)
      (entering funcs ++ rest) (.struct (zerosOf (oneField funcs))) (entering funcs ++ rest).length = .error .nullWrite → False :=
    fun rest short => typesFault safe rest .nullWrite ok listed known (absurd · refused) (by cases funcs <;> simp [entering] <;> omega)
  cases funcs with
  | union => cases inner with
    | stringArr => exact fault [0,0,0,0] (by decide) rfl
    | dict e => exact fault [0,0,0,1,0,0,0,0] (by decide) rfl
    | _ => contradiction
  | unionArr => cases inner with
    | stringArr => exact fault [0,0,0,0] (by decide) rfl
    | dict e => exact fault [0,0,0,1,0,0,0,0] (by decide) rfl
    | _ => contradiction
  | dict e => exact refused (stringsNeeded safe ⟨_,ok,rfl,listed⟩)
  | _ => contradiction

theorem oneFieldFault {env : Env} {funcs : TypeFunctions} {src : List Byte} {stop : Stop}
    (fault : ∀ len path, decoderOf env (enterDecoder env 8) funcs src (zeroOf funcs) 0 src.length len path = .error stop) :
    xdrStructDecoder env 8 (oneField funcs) src (.struct (zerosOf (oneField funcs))) src.length = .error stop := by
  have left : sizeSub src.length 0 = src.length := if_pos (Nat.zero_le _)
  simp only [xdrStructDecoder,oneField,decodersOf,zerosOf,structDecoder,structDecodeLoop,List.drop_zero,left,fault,bind,Except.bind]

theorem oneEntryFault {env : Env} {dec : Decoder} {stop : Stop} (all : ∀ path, env.alloc path = true)
    (fault : ∀ path, dec [0,0,0,7,0,0,0,0] (.union 0 .null) 0 8 none path = .error stop) (len : Option (BitVec 32)) (path : List Nat) :
    dictionaryDecoder env dec true (.union 0 .null) [0,0,0,1,0,0,0,0,0,0,0,7,0,0,0,0] (.dict zeroed) 0 16 len path = .error stop := by
  have key : decodeStringArray env [0,0,0,0,0,0,0,7,0,0,0,0] .null 0 12 none (0 :: 0 :: path) = .ok ⟨0,4,.chars []⟩ := by
    have bytes : decodeWord [0,0,0,0,0,0,0,7,0,0,0,0] 12 = .ok (some 0) := rfl
    simp only [decodeStringArray,bytes,bind,Except.bind]
    rw [if_neg (by decide), if_neg (by simp [all])]
    rfl
  have loop : dictionaryDecodeLoop env dec true (.union 0 .null) [0,0,0,1,0,0,0,0,0,0,0,7,0,0,0,0] 16 path 1 zeroed 4 0 = .error stop := by
    have first : sizeSub 16 4 = 12 := rfl
    have second : sizeSub 16 (4 + 4) = 8 := rfl
    have alloc : ¬(True ∧ env.alloc (1 :: 0 :: path) = false) := by simp [all]
    simp only [dictionaryDecodeLoop,List.drop_succ_cons,List.drop_zero,first,key,bind,Except.bind]
    rw [if_neg (by decide), if_neg alloc]
    simp only [second,fault]
  have bytes : decodeWord [0,0,0,1,0,0,0,0,0,0,0,7,0,0,0,0] 16 = .ok (some 1) := rfl
  simp only [dictionaryDecoder,bytes,bind,Except.bind]
  rw [show (1 : BitVec 32).toNat = 1 from rfl, loop]

theorem typesShifts (safe : AlwaysSafe t) (unions : Present unionTable t.listed) {fields : FieldList} (bits : t.bits fields = true) :
    bitFields fields = true := by
  obtain ⟨funcs,ok,union,listed⟩ := unions
  by_contra bad
  obtain ⟨stop,inner⟩ := bitfieldCellsFault fields (Bool.not_eq_true _ ▸ bad)
  have fault : xdrStructDecoder (faultyEnv (some ⟨1,.bitfieldStruct,fields⟩) fun _ => true) 8 (oneField funcs)
      (entering funcs ++ [0,0,0,0]) (.struct (zerosOf (oneField funcs))) (entering funcs ++ [0,0,0,0]).length = .error stop → False :=
    typesFault safe [0,0,0,0] stop ok listed bits (fun _ _ => rfl) (by cases funcs <;> simp [entering])
  have enters : ∀ path, enterDecoder (faultyEnv (some ⟨1,.bitfieldStruct,fields⟩) fun _ => true) 8 ⟨1,.bitfieldStruct,fields⟩
      [0,0,0,0] (.struct (zerosOf fields)) 0 4 none path = .error stop := by
    intro path
    simp only [enterDecoder,bitfieldStructDecoder,inner]
    rfl
  have unites : ∀ len path, decodeUnion (faultyEnv (some ⟨1,.bitfieldStruct,fields⟩) fun _ => true)
      (enterDecoder (faultyEnv (some ⟨1,.bitfieldStruct,fields⟩) fun _ => true) 8)
      [0,0,0,7,0,0,0,0] (.union 0 .null) 0 8 len path = .error stop := by
    intro len path
    have word : decodeWord [0,0,0,7,0,0,0,0] 8 = .ok (some 7) := rfl
    have found : (faultyEnv (some ⟨1,.bitfieldStruct,fields⟩) fun _ => true).definitionForType 7 = some ⟨1,.bitfieldStruct,fields⟩ := rfl
    have left : sizeSub 8 4 = 4 := rfl
    have alloc : ¬((1 : Nat) = 0 ∨ (faultyEnv (some ⟨1,.bitfieldStruct,fields⟩) fun _ => true).alloc path = false) := by simp [faultyEnv]
    simp only [decodeUnion,word,found,bind,Except.bind,if_neg alloc,List.drop_succ_cons,List.drop_zero,left,enters]
  have cell : ∀ len path, decoderOf (faultyEnv (some ⟨1,.bitfieldStruct,fields⟩) fun _ => true)
      (enterDecoder (faultyEnv (some ⟨1,.bitfieldStruct,fields⟩) fun _ => true) 8) funcs (entering funcs ++ [0,0,0,0]) (zeroOf funcs) 0
      (entering funcs ++ [0,0,0,0]).length len path = .error stop := by
    intro len path
    cases funcs with
    | union => exact unites len path
    | unionArr => exact unites len path
    | dict e => cases e with
      | union =>
        simp only [decoderOf]
        exact oneEntryFault (fun _ => rfl) (fun path => unites none path) len path
      | _ => contradiction
    | _ => contradiction
  exact fault (oneFieldFault cell)
end

/- Exactly the tables and memory for which every buffer decodes safely. -/
theorem bytesDecodeSafelyIff (t : Tables) : AlwaysSafe t ↔ Sound t :=
  ⟨fun safe => ⟨plainNeeded safe,stringsNeeded safe,fun unions =>
    ⟨typesPlain safe unions,typesFreed safe unions,typesStrings safe unions,fun _ bits => typesShifts safe unions bits⟩⟩,soundDecodes⟩

def anyTables : Tables := ⟨fun _ => true,fun _ => true,bitFields,false⟩

/- A union of a type with an array of unions: the failed decode of the four bytes ends in the assert, and a string that gets no
memory in a write through NULL; a bitfield table in a plain struct reads a word where two bytes are left. -/
theorem hostileBytesFault : ¬AlwaysSafe anyTables ∧
    xdrStructDecoder (faultyEnv (some ⟨1,.struct,oneField .unionArr⟩) fun _ => true) 1 (oneField .union) [0,0,0,7]
      (.struct [.union 0 .null]) 4 = .error .abort ∧
    xdrStructDecoder (faultyEnv none fun _ => false) 1 (oneField .stringArr) [0,0,0,0] (.struct [.null]) 4 = .error .nullWrite ∧
    xdrStructDecoder (faultyEnv none fun _ => true) 0 (oneField .uint32Bitfield) [0,0] (.struct [.word 0]) 2 = .error .oob := by
  refine ⟨fun safe => ?_,rfl,rfl,rfl⟩
  exact plainNeeded safe ⟨.uint32Bitfield,rfl,rfl,rfl⟩

end LibProc.Xdr
