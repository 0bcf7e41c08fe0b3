import LibProc.XdrDict

/-! xdr.c: the values a packet carries, the encoders and the decoders. A struct in memory
is the list of the cells of its fields, in the order of its field list, and `len_offset`
is the index of the cell that holds a length. What an encoder or a decoder may do
wrong ends it with a `Stop`. `size_t` is 64 bits wide: differences wrap, and sums of
sizes of objects in memory do not reach 2^64. `malloc` and `realloc` answer as the
oracle says; a call is named by its path. -/
namespace LibProc.Xdr
open XdrBytes XdrDict

inductive Stop where
  | nullWrite | nullRead | abort | oob | overrun | confused | undefined | fuel
  deriving DecidableEq, Repr

/- A cell. `null` is a NULL pointer; `chars` and `array` are pointers to what they hold. -/
inductive Val where
  | word (w : BitVec 32)
  | dword (d : BitVec 64)
  | null
  | chars (s : List Byte)
  | array (vs : List Val)
  | union (type : BitVec 32) (data : Val)
  | dict (table : Dictionary Val)
  | struct (cells : List Val)

inductive Scalar where
  | int32 | uint32 | int64 | uint64 | float | double
  deriving DecidableEq, Repr

def width : Scalar → Nat
  | .int32 | .uint32 | .float => 4
  | .int64 | .uint64 | .double => 8

inductive Entry where
  | scalar (s : Scalar)
  | stringArr
  | byteArr
  | union
  deriving DecidableEq, Repr

/- The tables of xdr.c (xdr_char_functions and xdr_char_arr_functions hold the int32
functions) and the ones generated for a struct field and for an array of structs. -/
mutual
inductive TypeFunctions where
  | scalar (s : Scalar)
  | array (s : Scalar)
  | dict (e : Entry)
  | string
  | stringArr
  | byteArr
  | union
  | unionArr
  | uint32Bitfield
  | int32Bitfield
  | struct (fields : FieldList)
  | structArr (fields : FieldList)
inductive FieldList where
  | nil
  | cons (funcs : TypeFunctions) (lenOffset structId : Nat) (rest : FieldList)
end

inductive Coder where
  | struct
  | bitfieldStruct
  deriving DecidableEq, Repr

structure StructDefinition where
  inMemorySize : Nat
  coder : Coder
  fields : FieldList

/- `address` is the low half of a pointer, or of memory nobody wrote. -/
structure Env where
  definitionForType : BitVec 32 → Option StructDefinition
  alloc : List Nat → Bool
  address : Val → BitVec 32
  firstPointerNull : List Val → Bool

def sizeSub (a b : Nat) : Nat := if b ≤ a then a - b else a + 2 ^ 64 - b

def toSize (n : Int) : Nat := (n % 2 ^ 64).toNat

def wordAt (env : Env) : Option Val → BitVec 32
  | some (.word w) => w
  | some (.dword d) => low d
  | some (.union t _) => t
  | some (.dict table) => table.length
  | some v => env.address v
  | none => env.address .null

def strlen (s : List Byte) : List Byte := s.takeWhile (· ≠ 0)

section Encoders

inductive Dst where
  | null
  | wild
  | at (pos : Nat)
  deriving DecidableEq, Repr

def Dst.advance : Dst → Nat → Dst
  | .null,0 => .null
  | .null,_ + 1 => .wild
  | .wild,_ => .wild
  | .at pos,n => .at (pos + n)

structure Encoded where
  res : Int
  used : Nat
  buf : List Byte
  deriving DecidableEq, Repr

abbrev Encoder := Val → Dst → Nat → Nat → Option (BitVec 32) → List Byte → Except Stop Encoded

def put (bs : List Byte) (dst : Dst) (buf : List Byte) : Except Stop (List Byte) :=
  if bs = [] then .ok buf
  else match dst with
    | .at pos => if pos + bs.length ≤ buf.length then .ok (splice buf pos bs) else .error .overrun
    | _ => .error .nullWrite

def encodeWord (w : BitVec 32) (dst : Dst) (max : Nat) (buf : List Byte) : Except Stop Encoded :=
  if dst = .null then .ok ⟨0,4,buf⟩
  else if max < 4 then .ok ⟨-2,4,buf⟩
  else do
    let buf ← put (beBytes w) dst buf
    .ok ⟨0,4,buf⟩

def encodeNull (width : Nat) (dst : Dst) (buf : List Byte) : Except Stop Encoded :=
  if dst = .null then .ok ⟨0,width,buf⟩ else .ok ⟨-1,width,buf⟩

def encodeUint32 : Encoder
  | .word w,dst,_,max,_,buf => encodeWord w dst max buf
  | .null,dst,_,_,_,buf => encodeNull 4 dst buf
  | _,_,_,_,_,_ => .error .confused

def encodeInt32 : Encoder := encodeUint32

def encodeInt64 : Encoder
  | .dword d,dst,_,max,_,buf =>
    if dst = .null then .ok ⟨0,8,buf⟩
    else if max < 8 then .ok ⟨-1,8,buf⟩
    else do
      let hi ← encodeWord (high d) dst max buf
      if hi.res < 0 then .ok ⟨-1,8,hi.buf⟩
      else do
        let lo ← encodeWord (low d) (dst.advance hi.used) (sizeSub max hi.used) hi.buf
        if lo.res < 0 then .ok ⟨-1,8,lo.buf⟩ else .ok ⟨0,8,lo.buf⟩
  | .null,dst,_,_,_,buf => encodeNull 8 dst buf
  | _,_,_,_,_,_ => .error .confused

def encodeUint64 : Encoder := encodeInt64

def numberBytes : Val → Option (List Byte)
  | .word w => some (hostBytes w)
  | .dword d => some (hostBytes64 d)
  | _ => none

def copyNumber (width : Nat) : Encoder
  | v,dst,_,max,_,buf => match numberBytes v with
    | none => .error .confused
    | some bs =>
      if max < width then .ok ⟨-1,width,buf⟩
      else if bs.length < width then .error .oob
      else do
        let buf ← put (bs.take width) dst buf
        .ok ⟨0,width,buf⟩

def encodeFloat : Encoder := copyNumber 4
def encodeDouble : Encoder := copyNumber 8

def encodeScalar : Scalar → Encoder
  | .int32 => encodeInt32
  | .uint32 => encodeUint32
  | .int64 => encodeInt64
  | .uint64 => encodeUint64
  | .float => encodeFloat
  | .double => encodeDouble

/- The element encoder each XDR_encode_<s>_array names; the doubles name XDR_encode_float. -/
def encodeElement : Scalar → Encoder
  | .double => encodeFloat
  | s => encodeScalar s

def bytePadding (byteLen : Int) : Int := Int.tmod (4 - Int.tmod byteLen 4) 4

def encodeByteArray : Encoder
  | _,_,_,_,none,_ => .error .nullRead
  | v,dst,_,max,some len,buf =>
    let byteLen := len.toInt
    let padding := bytePadding byteLen
    if 2 ^ 31 ≤ byteLen + padding then .error .undefined
    else
      let used := toSize (byteLen + padding)
      match v with
      | .null => .ok ⟨-1,used,buf⟩
      | .chars s =>
        if dst = .null ∨ max ≤ used then .ok ⟨-1,used,buf⟩
        else if s.length < toSize byteLen then .error .oob
        else do
          let buf ← put (s.take (toSize byteLen)) dst buf
          let buf ← put (List.replicate padding.toNat 0) (dst.advance (toSize byteLen)) buf
          .ok ⟨0,used,buf⟩
      | _ => .error .confused

def encodeString : Encoder := fun _ _ _ _ _ _ => .error .abort

def stringBytes : Val → Option (List Byte)
  | .null => some []
  | .chars s => some (strlen s)
  | _ => none

def encodeStringArray : Encoder
  | v,dst,_,max,_,buf => match stringBytes v with
    | none => .error .confused
    | some s =>
      let strLen := BitVec.ofNat 32 s.length
      let padding := pad strLen.toNat
      do
        let r ← encodeWord strLen dst max buf
        let dst := dst.advance r.used
        let used := r.used + (strLen.toNat + padding) % 2 ^ 32
        if r.res < 0 then .ok ⟨r.res,used,r.buf⟩
        else if max < used then .ok ⟨-2,used,r.buf⟩
        else do
          let buf ← put (s.take strLen.toNat) dst r.buf
          let buf ← put (List.replicate padding 0) (dst.advance strLen.toNat) buf
          .ok ⟨0,used,buf⟩

def arrayEncodeLoop (enc : Encoder) (max : Nat) : Nat → List Val → Dst → Int → Nat → List Byte → Except Stop Encoded
  | 0,_,_,res,encLen,buf => .ok ⟨res,encLen,buf⟩
  | _ + 1,[],_,_,_,_ => .error .oob
  | count + 1,v :: vs,dst,res,encLen,buf => do
    if dst ≠ .null ∧ 0 ≤ res then
      let r ← enc v (dst.advance encLen) 0 (sizeSub max encLen) none buf
      arrayEncodeLoop enc max count vs (if r.res < 0 then .null else dst) r.res (encLen + r.used) r.buf
    else
      let r ← enc v .null 0 (sizeSub max encLen) none buf
      arrayEncodeLoop enc max count vs (if res < 0 then .null else dst) res (encLen + r.used) r.buf

/- The elements a pointer leads to. At NULL the first one is at NULL, and an encoder that
gets past it does not look at the others. -/
def elements (count : Nat) : Val → Option (List Val)
  | .null => some (List.replicate count .null)
  | .array vs => some vs
  | _ => none

def arrayEncoder (enc : Encoder) (v : Val) (dst : Dst) (max : Nat) (len : Int) (buf : List Byte) :
    Except Stop Encoded :=
  match elements len.toNat v with
  | none => .error .confused
  | some vs => arrayEncodeLoop enc max len.toNat vs dst 0 0 buf

def encodeArray (enc : Encoder) : Encoder
  | _,_,_,_,none,buf => .ok ⟨0,0,buf⟩
  | v,dst,_,max,some len,buf => arrayEncoder enc v dst max len.toInt buf

structure DictionaryParams where
  encLen : Nat
  dst : Dst
  max : Nat
  res : Int
  buf : List Byte

def DictionaryParams.take (p : DictionaryParams) (r : Encoded) : DictionaryParams :=
  if r.res < 0 then {p with encLen := p.encLen + r.used, dst := .null, res := r.res, buf := r.buf}
  else ⟨p.encLen + r.used,p.dst.advance r.used,sizeSub p.max r.used,r.res,r.buf⟩

def dictionaryEncodeOne (enc : Encoder) (p : DictionaryParams) (v : Val) : Except Stop DictionaryParams := do
  if p.dst ≠ .null ∧ 0 ≤ p.res then
    let r ← enc v p.dst 0 p.max none p.buf
    .ok (p.take r)
  else
    let r ← enc v .null 0 p.max none p.buf
    .ok {p with encLen := p.encLen + r.used, buf := r.buf}

def encodeKey : Encoder
  | v,.null,used,max,len,buf => encodeString v .null used max len buf
  | v,dst,used,max,len,buf => encodeStringArray v dst used max len buf

def dictionaryEncoderItr (enc : Encoder) (p : DictionaryParams) (entry : Key × Val) : Except Stop DictionaryParams := do
  let p ← dictionaryEncodeOne encodeKey p (.chars entry.1)
  dictionaryEncodeOne enc p entry.2

def dictionaryEncoder (enc : Encoder) : Encoder
  | .dict table,dst,_,max,_,buf => do
    let r ← encodeWord table.length dst max buf
    let p ← (entries table).foldlM (dictionaryEncoderItr enc) (DictionaryParams.take ⟨0,dst,max,0,buf⟩ r)
    .ok ⟨p.res,p.encLen,p.buf⟩
  | _,_,_,_,_,_ => .error .confused

/- xdr_uint32_dict_functions encodes its values with XDR_decode_uint32, which stores the
number it reads at `dst`. -/
def decodeUint32AsEncoder : Encoder
  | .word w,dst,used,max,_,buf =>
    if max < 4 then .ok ⟨-1,used,buf⟩
    else do
      let buf ← put (beBytes w) dst buf
      .ok ⟨0,4,buf⟩
  | _,_,_,_,_,_ => .error .confused

/- xdr_string_arr_dict_functions encodes its values with XDR_decode_string_array, which
takes the first bytes of the string for a length and stores a heap address at `dst`. -/
def decodeStringArrayAsEncoder : Encoder
  | .chars s,dst,_,max,_,buf =>
    if max < 4 then .ok ⟨-1,0,buf⟩
    else if (s ++ [0]).length < 4 then .error .oob
    else
      let strLen := (beWord ((s ++ [0]).take 4)).toNat
      if max < 4 + strLen + pad strLen then .ok ⟨-1,4,buf⟩
      else match dst with
        | .at _ => .error .undefined
        | _ => .error .nullWrite
  | .null,_,_,max,_,buf => if max < 4 then .ok ⟨-1,0,buf⟩ else .error .nullRead
  | _,_,_,_,_,_ => .error .confused

def encodeUnion (env : Env) (enter : StructDefinition → Encoder) : Encoder
  | .union type data,dst,_,max,_,buf => do
    let head ← encodeWord type dst max buf
    match env.definitionForType type with
    | none => .ok ⟨-1,head.used,head.buf⟩
    | some definition =>
      let inside := dst ≠ .null ∧ 0 ≤ head.res
      let body ← enter definition data (if inside then dst.advance head.used else .null) 0
        (if inside then sizeSub max head.used else max) none head.buf
      .ok ⟨if head.res < 0 ∨ body.res < 0 then -1 else 0,head.used + body.used,body.buf⟩
  | _,_,_,_,_,_ => .error .confused

/- XDR_encodebf_uint32 writes a word at `dst` whatever it is, and leaves `*used` alone. An int is 32 bits
of two's complement, so that `(1 << 31) - 1` is the mask of 31 bits. -/
def encodebfUint32 : Encoder
  | .word w,dst,used,max,_,buf =>
    if 32 ≤ max then .error .undefined
    else do
      let buf ← put (hostBytes (w &&& BitVec.ofNat 32 (2 ^ max - 1))) dst buf
      .ok ⟨0,used,buf⟩
  | _,_,_,_,_,_ => .error .confused

def structEncodeLoop (env : Env) (cells : List Val) (max : Nat) :
    List (Encoder × Nat) → List Val → Dst → Int → Nat → Nat → List Byte → Except Stop Encoded
  | [],_,_,res,used,_,buf => .ok ⟨res,used,buf⟩
  | _ :: _,[],_,_,_,_,_ => .error .oob
  | (enc,lenOffset) :: rest,v :: vs,dst,res,used,len,buf => do
    if dst = .null ∨ res < 0 then
      let r ← enc v .null len max (some (wordAt env cells[lenOffset]?)) buf
      structEncodeLoop env cells max rest vs dst res (used + r.used) r.used r.buf
    else
      let r ← enc v (dst.advance used) len (sizeSub max used) (some (wordAt env cells[lenOffset]?)) buf
      structEncodeLoop env cells max rest vs dst r.res (used + r.used) r.used r.buf

def structEncoder (env : Env) (fields : List (Encoder × Nat)) : Encoder
  | .struct cells,dst,_,max,_,buf => structEncodeLoop env cells max fields cells dst 0 0 0 buf
  | .null,_,_,_,_,buf => match fields with
    | [] => .ok ⟨0,0,buf⟩
    | _ => .error .nullRead
  | _,_,_,_,_,_ => .error .confused

def bitfieldWord : FieldList → List Val → BitVec 32 → Except Stop (BitVec 32)
  | .nil,_,val => .ok val
  | .cons funcs lenOffset structId rest,.word w :: vs,val =>
    if 32 ≤ lenOffset ∨ 32 ≤ structId then .error .undefined
    else match funcs with
      | .uint32Bitfield | .int32Bitfield =>
        bitfieldWord rest vs (val ||| ((w &&& BitVec.ofNat 32 (2 ^ lenOffset - 1)) <<< structId))
      | _ => .error .nullWrite
  | .cons _ _ _ _,_,_ => .error .confused

def bitfieldStructEncoder (fields : FieldList) : Encoder
  | .struct cells,dst,_,max,_,buf => do
    let val ← bitfieldWord fields cells 0
    encodeWord val dst max buf
  | _,_,_,_,_,_ => .error .confused

def encodeEntry (env : Env) (enter : StructDefinition → Encoder) : Entry → Encoder
  | .scalar .uint32 => decodeUint32AsEncoder
  | .scalar s => encodeScalar s
  | .stringArr => decodeStringArrayAsEncoder
  | .byteArr => encodeByteArray
  | .union => encodeUnion env enter

mutual
def encoderOf (env : Env) (enter : StructDefinition → Encoder) : TypeFunctions → Encoder
  | .scalar s => encodeScalar s
  | .array s => encodeArray (encodeElement s)
  | .dict e => dictionaryEncoder (encodeEntry env enter e)
  | .string => encodeString
  | .stringArr => encodeStringArray
  | .byteArr => encodeByteArray
  | .union => encodeUnion env enter
  | .unionArr => encodeUnion env enter
  | .uint32Bitfield => encodebfUint32
  | .int32Bitfield => encodebfUint32
  | .struct fields => structEncoder env (encodersOf env enter fields)
  | .structArr fields => encodeArray (structEncoder env (encodersOf env enter fields))
def encodersOf (env : Env) (enter : StructDefinition → Encoder) : FieldList → List (Encoder × Nat)
  | .nil => []
  | .cons funcs lenOffset _ rest => (encoderOf env enter funcs,lenOffset) :: encodersOf env enter rest
end

/- The encoder of a registered type; `fuel` bounds how deep unions nest. -/
def enterEncoder (env : Env) : Nat → StructDefinition → Encoder
  | 0,_ => fun _ _ _ _ _ _ => .error .fuel
  | fuel + 1,definition => match definition.coder with
    | .struct => structEncoder env (encodersOf env (enterEncoder env fuel) definition.fields)
    | .bitfieldStruct => bitfieldStructEncoder definition.fields

end Encoders

section Decoders

structure Decoded where
  res : Int
  inc : Nat
  dst : Val

abbrev Decoder := List Byte → Val → Nat → Nat → Option (BitVec 32) → List Nat → Except Stop Decoded

def get (n : Nat) (src : List Byte) : Except Stop (List Byte) :=
  if n ≤ src.length then .ok (src.take n) else .error .oob

def decodeWord (src : List Byte) (max : Nat) : Except Stop (Option (BitVec 32)) :=
  if max < 4 then .ok none
  else do
    let net ← get 4 src
    .ok (some (beWord net))

def decodeUint32 : Decoder
  | src,dst,inc,max,_,_ => do
    match ← decodeWord src max with
    | none => .ok ⟨-1,inc,dst⟩
    | some w => .ok ⟨0,4,.word w⟩

def decodeInt32 : Decoder := decodeUint32

def decodeInt64 : Decoder
  | src,dst,inc,max,_,_ => do
    if max < 8 then .ok ⟨-1,inc,dst⟩
    else
      match ← decodeWord src max with
      | none => .ok ⟨-1,inc,dst⟩
      | some hi => match ← decodeWord (src.drop 4) (sizeSub max 4) with
        | none => .ok ⟨-1,inc,dst⟩
        | some lo => .ok ⟨0,8,.dword (join hi lo)⟩

def decodeUint64 : Decoder := decodeInt64

def decodeFloat : Decoder
  | src,dst,inc,max,_,_ => do
    if max < 4 then .ok ⟨-1,inc,dst⟩
    else
      let bs ← get 4 src
      .ok ⟨0,4,.word (hostWord bs)⟩

def decodeDouble : Decoder
  | src,dst,inc,max,_,_ => do
    if max < 8 then .ok ⟨-1,inc,dst⟩
    else
      let bs ← get 8 src
      .ok ⟨0,8,.dword (hostWord64 bs)⟩

def decodeScalar : Scalar → Decoder
  | .int32 => decodeInt32
  | .uint32 => decodeUint32
  | .int64 => decodeInt64
  | .uint64 => decodeUint64
  | .float => decodeFloat
  | .double => decodeDouble

def decodeByteArray (env : Env) : Decoder
  | _,_,_,_,none,_ => .error .nullRead
  | src,dst,_,max,some len,path =>
    let byteLen := len.toInt
    let padding := bytePadding byteLen
    if 2 ^ 31 ≤ byteLen + padding then .error .undefined
    else if max ≤ toSize (byteLen + padding) then .ok ⟨-1,0,dst⟩
    else do
      let bs ← get (toSize byteLen) src
      if env.alloc path = false ∧ bs ≠ [] then .error .nullWrite
      else .ok ⟨0,toSize (byteLen + padding),if env.alloc path then .chars bs else .null⟩

def decodeString : Decoder := fun _ _ _ _ _ _ => .error .abort

def decodeStringArray (env : Env) : Decoder
  | src,dst,_,max,_,path => do
    match ← decodeWord src max with
    | none => .ok ⟨-1,0,dst⟩
    | some strLen =>
      let padding := pad strLen.toNat
      if max < 4 + strLen.toNat + padding then .ok ⟨-1,4,dst⟩
      else if env.alloc path = false then .error .nullWrite
      else if 2 ^ 32 ≤ strLen.toNat + 1 then .error .overrun
      else
        let str ← get strLen.toNat (src.drop 4)
        .ok ⟨0,4 + (strLen.toNat + padding) % 2 ^ 32,.chars str⟩

def arrayDecodeLoop (dec : Decoder) (uninit : Val) (src : List Byte) (max : Nat) (path : List Nat) :
    Nat → List Val → Nat → Except Stop (Int × Nat × List Val)
  | 0,done,decLen => .ok (0,decLen,done)
  | count + 1,done,decLen => do
    let r ← dec (src.drop decLen) uninit 0 (sizeSub max decLen) none (done.length :: path)
    if r.res < 0 then .ok (r.res,decLen,done)
    else arrayDecodeLoop dec uninit src max path count (done ++ [r.dst]) (decLen + r.inc)

def arrayDecoder (env : Env) (dec : Decoder) (uninit : Val) (src : List Byte) (dst : Val) (used max : Nat)
    (len : Int) (path : List Nat) : Except Stop Decoded :=
  if env.alloc path = false then .ok ⟨-1,used,dst⟩
  else do
    let (res,decLen,vs) ← arrayDecodeLoop dec uninit src max path len.toNat [] 0
    if res < 0 then .ok ⟨res,used,dst⟩ else .ok ⟨0,decLen,.array vs⟩

def decodeArray (env : Env) (dec : Decoder) (uninit : Val) : Decoder
  | _,dst,_,_,none,_ => .ok ⟨0,0,dst⟩
  | src,dst,_,max,some len,path => arrayDecoder env dec uninit src dst 0 max len.toInt path

def dictionaryDecodeLoop (env : Env) (dec : Decoder) (entSize : Bool) (zero : Val) (src : List Byte) (max : Nat)
    (path : List Nat) : Nat → Dictionary Val → Nat → Nat → Except Stop (Int × Nat × Dictionary Val)
  | 0,table,decLen,_ => .ok (0,decLen,table)
  | count + 1,table,decLen,i => do
    let key ← decodeStringArray env (src.drop decLen) .null 0 (sizeSub max decLen) none (0 :: i :: path)
    if key.res < 0 then .ok (key.res,decLen,table)
    else if entSize = true ∧ env.alloc (1 :: i :: path) = false then .ok (-3,decLen,table)
    else
      let decLen := decLen + key.inc
      let value ← dec (src.drop decLen) zero 0 (sizeSub max decLen) none (2 :: i :: path)
      if value.res < 0 then .ok (value.res,decLen,table)
      else
        let name := match key.dst with
          | .chars s => strlen s
          | _ => []
        dictionaryDecodeLoop env dec entSize zero src max path count
          (dictAdd (env.alloc (3 :: i :: path)) table name value.dst).2 (decLen + value.inc) (i + 1)

def dictionaryDecoder (env : Env) (dec : Decoder) (entSize : Bool) (zero : Val) : Decoder
  | src,.dict table,_,max,_,path => do
    match ← decodeWord src max with
    | none => .ok ⟨-1,0,.dict table⟩
    | some count =>
      let (res,decLen,table) ← dictionaryDecodeLoop env dec entSize zero src max path count.toNat table 4 0
      if res < 0 then .ok ⟨res,0,.dict table⟩ else .ok ⟨0,decLen,.dict table⟩
  | _,_,_,_,_,_ => .error .confused

mutual
def zeroOf : TypeFunctions → Val
  | .scalar .int32 | .scalar .uint32 | .scalar .float => .word 0
  | .scalar .int64 | .scalar .uint64 | .scalar .double => .dword 0
  | .array _ | .string | .stringArr | .byteArr | .structArr _ => .null
  | .dict _ => .dict zeroed
  | .union | .unionArr => .union 0 .null
  | .uint32Bitfield | .int32Bitfield => .word 0
  | .struct fields => .struct (zerosOf fields)
def zerosOf : FieldList → List Val
  | .nil => []
  | .cons funcs _ _ rest => zeroOf funcs :: zerosOf rest
end

/- Cells nobody wrote. A decoder that would read one finds `null`; the two cells a union
has are written before they are read. -/
mutual
def uninitOf : TypeFunctions → Val
  | .union | .unionArr => .union 0 .null
  | .struct fields => .struct (uninitsOf fields)
  | _ => .null
def uninitsOf : FieldList → List Val
  | .nil => []
  | .cons funcs _ _ rest => uninitOf funcs :: uninitsOf rest
end

/- The field_dealloc of a table. XDR_struct_field_deallocator takes the first bytes of the
field for a pointer to it, and XDR_union_array_field_deallocator is an assert. -/
mutual
def fieldDealloc (env : Env) : TypeFunctions → Val → Except Stop Unit
  | .union,.union type data => match env.definitionForType type with
    | some definition => structFreeDeallocator env definition.fields data
    | none => .ok ()
  | .unionArr,_ => .error .abort
  | .struct _,.struct cells => if env.firstPointerNull cells then .ok () else .error .undefined
  | _,_ => .ok ()
def structFreeDeallocator (env : Env) : FieldList → Val → Except Stop Unit
  | fields,.struct cells => structFreeFields env fields cells
  | _,_ => .ok ()
def structFreeFields (env : Env) : FieldList → List Val → Except Stop Unit
  | .cons funcs _ _ rest,v :: vs => do
    fieldDealloc env funcs v
    structFreeFields env rest vs
  | _,_ => .ok ()
end

def decodeUnion (env : Env) (enter : StructDefinition → Decoder) : Decoder
  | src,.union old _,_,max,_,path => do
    match ← decodeWord src max with
    | none => .ok ⟨-1,0,.union old .null⟩
    | some type => match env.definitionForType type with
      | none => .ok ⟨-1,0,.union type .null⟩
      | some definition =>
        if definition.inMemorySize = 0 ∨ env.alloc path = false then .ok ⟨-1,4,.union type .null⟩
        else
          let r ← enter definition (src.drop 4) (.struct (zerosOf definition.fields)) 0 (sizeSub max 4) none (0 :: path)
          if r.res < 0 then
            structFreeDeallocator env definition.fields r.dst
            .ok ⟨-1,4,.union type .null⟩
          else .ok ⟨0,4 + r.inc,.union type r.dst⟩
  | _,_,_,_,_,_ => .error .confused

/- XDR_decodebf_* read a word at `src` whatever `max` says, which is a number of bits. -/
def decodebf (signed : Bool) (w : BitVec 32) (bits : Nat) : BitVec 32 :=
  let mask := BitVec.ofNat 32 (2 ^ bits - 1)
  if signed ∧ (w &&& BitVec.ofNat 32 (2 ^ (bits - 1))) ≠ 0 then ~~~ mask ||| (w &&& mask) else w &&& mask

def decodebfUint32 (signed : Bool) : Decoder
  | src,_,inc,max,_,_ => do
    let bs ← get 4 src
    if 32 ≤ max ∨ signed = true ∧ max = 0 then .error .undefined
    else .ok ⟨0,inc,.word (decodebf signed (hostWord bs) max)⟩

def structDecodeLoop (env : Env) (src : List Byte) (max : Nat) (path : List Nat) :
    List (Decoder × Nat) → List Val → List Val → Nat → Except Stop Decoded
  | [],done,cells,used => .ok ⟨0,used,.struct (done ++ cells)⟩
  | _ :: _,_,[],_ => .error .oob
  | (dec,lenOffset) :: rest,done,v :: vs,used => do
    let r ← dec (src.drop used) v 0 (sizeSub max used) (some (wordAt env (done ++ v :: vs)[lenOffset]?))
      (done.length :: path)
    if r.res < 0 then .ok ⟨-1,used,.struct (done ++ r.dst :: vs)⟩
    else structDecodeLoop env src max path rest (done ++ [r.dst]) vs (used + r.inc)

def structDecoder (env : Env) (fields : List (Decoder × Nat)) : Decoder
  | src,.struct cells,inc,max,_,path => do
    let r ← structDecodeLoop env src max path fields [] cells 0
    if r.res < 0 then .ok ⟨r.res,inc,r.dst⟩ else .ok r
  | _,_,_,_,_,_ => .error .confused

def bitfieldCells : FieldList → List Val → BitVec 32 → Except Stop (List Val)
  | .nil,vs,_ => .ok vs
  | .cons funcs lenOffset structId rest,_ :: vs,val =>
    if 32 ≤ lenOffset ∨ 32 ≤ structId then .error .undefined
    else
      let tmp := (val >>> structId) &&& BitVec.ofNat 32 (2 ^ lenOffset - 1)
      match funcs with
      | .uint32Bitfield => do
        let vs ← bitfieldCells rest vs val
        .ok (.word (decodebf false tmp lenOffset) :: vs)
      | .int32Bitfield =>
        if lenOffset = 0 then .error .undefined
        else do
          let vs ← bitfieldCells rest vs val
          .ok (.word (decodebf true tmp lenOffset) :: vs)
      | _ => .error .nullWrite
  | .cons _ _ _ _,[],_ => .error .oob

def bitfieldStructDecoder (fields : FieldList) : Decoder
  | src,.struct cells,inc,max,_,_ => do
    match ← decodeWord src max with
    | none => .ok ⟨-1,inc,.struct cells⟩
    | some val =>
      let cells ← bitfieldCells fields cells val
      .ok ⟨0,4,.struct cells⟩
  | _,_,_,_,_,_ => .error .confused

def decodeEntry (env : Env) (enter : StructDefinition → Decoder) : Entry → Decoder
  | .scalar s => decodeScalar s
  | .stringArr => decodeStringArray env
  | .byteArr => decodeByteArray env
  | .union => decodeUnion env enter

/- The value a dictionary entry is decoded into: zeroed memory of `ent_size` bytes, or a
NULL pointer where `ent_size` is 0. -/
def entryZero : Entry → Val
  | .scalar s => zeroOf (.scalar s)
  | .union => zeroOf .union
  | .stringArr => .null
  | .byteArr => .null

def entrySized : Entry → Bool
  | .scalar _ => true
  | .union => true
  | .stringArr => false
  | .byteArr => false

mutual
def decoderOf (env : Env) (enter : StructDefinition → Decoder) : TypeFunctions → Decoder
  | .scalar s => decodeScalar s
  | .array s => decodeArray env (decodeScalar s) .null
  | .dict e => dictionaryDecoder env (decodeEntry env enter e) (entrySized e) (entryZero e)
  | .string => decodeString
  | .stringArr => decodeStringArray env
  | .byteArr => decodeByteArray env
  | .union => decodeUnion env enter
  | .unionArr => decodeUnion env enter
  | .uint32Bitfield => decodebfUint32 false
  | .int32Bitfield => decodebfUint32 true
  | .struct fields => structDecoder env (decodersOf env enter fields)
  | .structArr fields => decodeArray env (structDecoder env (decodersOf env enter fields)) (.struct (uninitsOf fields))
def decodersOf (env : Env) (enter : StructDefinition → Decoder) : FieldList → List (Decoder × Nat)
  | .nil => []
  | .cons funcs lenOffset _ rest => (decoderOf env enter funcs,lenOffset) :: decodersOf env enter rest
end

def enterDecoder (env : Env) : Nat → StructDefinition → Decoder
  | 0,_ => fun _ _ _ _ _ _ => .error .fuel
  | fuel + 1,definition => match definition.coder with
    | .struct => structDecoder env (decodersOf env (enterDecoder env fuel) definition.fields)
    | .bitfieldStruct => bitfieldStructDecoder definition.fields

end Decoders

def xdrStructEncoder (env : Env) (fuel : Nat) (fields : FieldList) (src : Val) (dst : Dst) (max : Nat)
    (buf : List Byte) : Except Stop Encoded :=
  structEncoder env (encodersOf env (enterEncoder env fuel) fields) src dst 0 max none buf

def xdrStructDecoder (env : Env) (fuel : Nat) (fields : FieldList) (src : List Byte) (dst : Val) (max : Nat) :
    Except Stop Decoded :=
  structDecoder env (decodersOf env (enterDecoder env fuel) fields) src dst 0 max none []

end LibProc.Xdr
