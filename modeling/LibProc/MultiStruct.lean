import LibProc.Ipc
import LibProc.IterateStructs
import LibProc.XdrFrame

/-! cmd.c: the response to a request for several structs. Each struct is encoded with its type
into a block of its own, the blocks are collected in an IPC_OpaqueStructArr, and the reader
takes the encoded array apart by hand. A block starts with 256 bytes and is allocated once
more when the encoder asks for more than that. -/
namespace LibProc.MultiStruct
open XdrBytes Ipc IterateStructs
open Xdr hiding decodeUint32

structure OpaqueStruct where
  length : BitVec 32
  data : Option (List Byte)
  deriving DecidableEq, Repr

def encodeUnionInto (env : Env) (fuel : Nat) (type : BitVec 32) (src : Val) (buff : Option (List Byte)) (max : Nat) :
    Except Stop Encoded :=
  encodeUnion env (enterEncoder env (fuel + 1)) (.union type src) (if buff = none then .null else .at 0) 0 max none
    (buff.getD [])

def firstLen : Nat := 256

def keep (r : Encoded) (buff : Option (List Byte)) : OpaqueStruct := ⟨BitVec.ofNat 32 r.used,buff.map fun _ => r.buf⟩

def cmdStructToOpaqueStruct (env : Env) (fuel : Nat) (heap : Heap) (src : Val) (type : BitVec 32) :
    Except Stop OpaqueStruct :=
  match src with
  | .null => .ok ⟨0,none⟩
  | src => do
    let first ← encodeUnionInto env fuel type src (block heap 0 firstLen) firstLen
    if 0 ≤ first.res then .ok (keep first (block heap 0 firstLen))
    else if first.used ≤ firstLen then .ok ⟨0,none⟩
    else
      let dlen := first.used + 16
      let second ← encodeUnionInto env fuel type src (block heap 1 dlen) dlen
      if 0 ≤ second.res then .ok (keep second (block heap 1 dlen)) else .ok ⟨0,none⟩

def OpaqueStruct.val (kept : OpaqueStruct) : Val := .struct [.word kept.length,kept.data.elim .null .chars]

def opaqueStructArrFields : FieldList :=
  .cons (.scalar .int32) 0 0 (.cons (.structArr ipcOpaqueStructFields) 0 typesOpaqueStruct.toNat .nil)

def opaqueStructArrDefinition : StructDefinition := ⟨16,.struct,opaqueStructArrFields⟩

def opaqueArray (structs : List OpaqueStruct) : Val :=
  .struct [.word (BitVec.ofNat 32 structs.length),.array (structs.map OpaqueStruct.val)]

structure Reported where
  type : BitVec 32
  value : Val
  heap : Heap
  body : List Byte

def Reported.bytes (pair : Reported) : List Byte := beBytes pair.type ++ pair.body

def encodeStructs (env : Env) (fuel : Nat) (pairs : List Reported) (buf : List Byte) : Except Stop Encoded := do
  let structs ← pairs.mapM fun pair => cmdStructToOpaqueStruct env fuel pair.heap pair.value pair.type
  encodeUnionInto env fuel opaqueStructArr (opaqueArray structs) (some buf) buf.length

def memory (buf : List Byte) : Nat → Byte := fun i => buf.getD i 0

def stretch (mem : Nat → Byte) (src len : Nat) : List Byte := (List.range len).map fun i => mem (src + i)

def given (mem : Nat → Byte) : IterEvent → Option (BitVec 32 × List Byte)
  | .read _ => none
  | .callback type src len => some (type,stretch mem src len)

def ReadBack (env : Env) (fuel depth : Nat) (pairs : List Reported) (buf : List Byte) : Prop :=
  ∃ r, encodeStructs env fuel pairs buf = .ok r ∧ 0 ≤ r.res ∧
    (cmdIterateStructs (memory r.buf) (depth + 2) 0 r.used).result = some 0 ∧
    (cmdIterateStructs (memory r.buf) (depth + 2) 0 r.used).events.filterMap (given (memory r.buf)) =
      pairs.map fun pair => (pair.type,pair.body)

def Chunk (kept : OpaqueStruct) (chunk : List Byte) : Prop :=
  ∃ data, kept.data = some data ∧ kept.length.toInt = chunk.length ∧ paddedSize chunk.length < 2 ^ 31 ∧
    data.take chunk.length = chunk

section Encoding
variable {env : Env} {into : StructDefinition → Encoder}

theorem chunkLength {kept : OpaqueStruct} {chunk : List Byte} (counts : Chunk kept chunk) :
    kept.length = BitVec.ofNat 32 chunk.length := by
  obtain ⟨data,-,counted,small,-⟩ := counts
  have short : chunk.length < 2 ^ 31 := by
    rw [paddedSize] at small
    omega
  exact BitVec.eq_of_toInt_eq (counted.trans (lengthWord short).symm)

theorem encodeByteArrayTake {data chunk : List Byte} {len : BitVec 32} (counted : len.toInt = chunk.length)
    (small : paddedSize chunk.length < 2 ^ 31) (taken : data.take chunk.length = chunk) (dst : Dst) (used max : Nat)
    (buf : List Byte) : encodeByteArray (.chars data) dst used max (some len) buf =
      encodeByteArray (.chars chunk) dst used max (some len) buf := by
  obtain ⟨-,-,size,-⟩ := byteLengths small
  have inside : chunk.length ≤ data.length := by
    have := congrArg List.length taken
    rw [List.length_take] at this
    omega
  simp only [encodeByteArray,counted,size,List.take_length,taken,not_lt.mpr inside,lt_irrefl,if_false]

theorem chunkResizes {kept : OpaqueStruct} {chunk : List Byte} (counts : Chunk kept chunk) :
    Resizes (structEncoder env (encodersOf env into ipcOpaqueStructFields)) kept.val none (opaqueBytes chunk) True := by
  have word := chunkLength counts
  obtain ⟨data,present,counted,small,taken⟩ := counts
  have shape : kept.val = .struct [.word kept.length,.chars data] := by rw [OpaqueStruct.val, present]; rfl
  have wire : BytesWire resizeRules kept.length.toInt (.chars chunk) (chunk ++ zeros (pad chunk.length)) :=
    .chars chunk counted small
  have bytes : Resizes encodeByteArray (.chars data) (some kept.length) (chunk ++ zeros (pad chunk.length)) True :=
    Resizes.ofEq (fun dst used max buf => encodeByteArrayTake counted small taken dst used max buf) (bytesResizes id wire)
  have fields : FieldsResize env into [.word kept.length,.chars data] ipcOpaqueStructFields
      [.word kept.length,.chars data] (beBytes kept.length ++ ((chunk ++ zeros (pad chunk.length)) ++ [])) _ :=
    FieldsResize.cons (integerResizes rfl (.int32 kept.length) _) (FieldsResize.cons bytes FieldsResize.nil)
  rw [shape, opaqueBytes, ← word]
  exact Resizes.congr (by simp) (FieldsResize.struct none fields)

theorem enteredResizes {type : BitVec 32} {d : StructDefinition} (registered : env.definitionForType type = some d)
    {data : Val} {e : List Byte} {tight : Prop} (entered : Resizes (into d) data none e tight) :
    Resizes (encodeUnion env into) (.union type data) none (beBytes type ++ e) (tightUnion env (fun _ _ => tight)
      (.union type data)) := by
  have wire : UnionWire env resizeRules (fun d v e => Resizes (into d) v none e tight) (.union type data)
      (beBytes type ++ e) := .union type data d e registered trivial entered
  exact unionResizes (fun d v e holds => holds) wire none

theorem encodeArrayTake {enc : Encoder} (vs : List Val) (dst : Dst) (used max : Nat) (len : BitVec 32) (buf : List Byte)
    (enough : len.toInt.toNat ≤ vs.length) : encodeArray enc (.array vs) dst used max (some len) buf =
      encodeArray enc (.array (vs.take len.toInt.toNat)) dst used max (some len) buf := by
  have loop : ∀ (count : Nat) (vs : List Val) (dst : Dst) (res : Int) (encLen : Nat) (buf : List Byte),
      count ≤ vs.length → arrayEncodeLoop enc max count vs dst res encLen buf =
        arrayEncodeLoop enc max count (vs.take count) dst res encLen buf := by
    intro count
    induction count with
    | zero => intros; rfl
    | succ count ih =>
      intro vs dst res encLen buf long
      cases vs with
      | nil => cases long
      | cons v vs =>
        have shorter : count ≤ vs.length := by
          rw [List.length_cons] at long
          omega
        simp only [List.take_succ_cons,arrayEncodeLoop]
        simp only [← ih vs _ _ _ _ shorter]
  simp only [encodeArray,arrayEncoder,elements]
  exact loop _ vs dst 0 0 buf enough

def arrayBytes (count : BitVec 32) (chunks : List (List Byte)) : List Byte :=
  beBytes opaqueStructArr ++ (beBytes count ++ ((chunks.map opaqueBytes).flatten ++ []))

theorem arrayResizing {fuel : Nat} (registered : env.definitionForType opaqueStructArr = some opaqueStructArrDefinition)
    {structs : List OpaqueStruct} {count : BitVec 32} {chunks : List (List Byte)}
    (each : List.Forall₂ Chunk (structs.take count.toInt.toNat) chunks) (enough : count.toInt.toNat ≤ structs.length) :
    ∃ tight, Resizes (encodeUnion env (enterEncoder env (fuel + 1)))
      (.union opaqueStructArr (.struct [.word count,.array (structs.map OpaqueStruct.val)])) none (arrayBytes count chunks)
      tight := by
  have inner : ∀ v e, (∃ kept chunk, v = OpaqueStruct.val kept ∧ Chunk kept chunk ∧ e = opaqueBytes chunk) →
      Resizes (structEncoder env (encodersOf env (enterEncoder env fuel) ipcOpaqueStructFields)) v none e True := by
    rintro v e ⟨kept,chunk,rfl,counts,rfl⟩
    exact chunkResizes counts
  have wires : List.Forall₂ (fun v e => ∃ kept chunk, v = OpaqueStruct.val kept ∧ Chunk kept chunk ∧ e = opaqueBytes chunk)
      ((structs.take count.toInt.toNat).map OpaqueStruct.val) (chunks.map opaqueBytes) := by
    rw [List.forall₂_map_left_iff, List.forall₂_map_right_iff]
    exact each.imp fun kept chunk counts => ⟨kept,chunk,rfl,counts,rfl⟩
  have counted : count.toInt.toNat = ((structs.take count.toInt.toNat).map OpaqueStruct.val).length := by
    rw [List.length_map, List.length_take, Nat.min_eq_left enough]
  have array := arrayResizes inner (.array _ _ counted wires)
  rw [List.map_take] at array
  have whole := Resizes.ofEq (fun dst used max buf => encodeArrayTake (structs.map OpaqueStruct.val) dst used max count buf
    (by rw [List.length_map]; exact enough)) array
  have fields : FieldsResize env (enterEncoder env fuel) [.word count,.array (structs.map OpaqueStruct.val)]
      opaqueStructArrFields [.word count,.array (structs.map OpaqueStruct.val)]
      (beBytes count ++ ((chunks.map opaqueBytes).flatten ++ [])) _ :=
    FieldsResize.cons (integerResizes rfl (.int32 count) _) (FieldsResize.cons whole FieldsResize.nil)
  have entered : Resizes (enterEncoder env (fuel + 1) opaqueStructArrDefinition)
      (.struct [.word count,.array (structs.map OpaqueStruct.val)]) none
      (beBytes count ++ ((chunks.map opaqueBytes).flatten ++ [])) _ := FieldsResize.struct none fields
  exact ⟨_,enteredResizes registered entered⟩

theorem arrayLoopFailed {enc : Encoder} {max count : Nat} {vs : List Val} {dst : Dst} {res : Int} {encLen : Nat}
    {buf : List Byte} {r : Encoded} (failed : res < 0)
    (done : arrayEncodeLoop enc max count vs dst res encLen buf = .ok r) : r.res = res := by
  induction count generalizing vs dst encLen buf with
  | zero =>
    cases done
    rfl
  | succ count ih =>
    cases vs with
    | nil => cases done
    | cons v vs =>
      simp only [arrayEncodeLoop,not_le.mpr failed,and_false,if_false] at done
      cases called : enc v .null 0 (sizeSub max encLen) none buf with
      | error stop => simp [called,bind,Except.bind] at done
      | ok one =>
        simp only [called,bind,Except.bind] at done
        exact ih done

theorem arrayLoopSucceeds {enc : Encoder} (frames : Frames enc) {max pos count : Nat} {vs : List Val} {res : Int}
    {encLen : Nat} {buf : List Byte} {r : Encoded} (positive : 0 ≤ res)
    (done : arrayEncodeLoop enc max count vs (.at pos) res encLen buf = .ok r) (fine : 0 ≤ r.res) :
    count ≤ vs.length ∧ ∀ v ∈ vs.take count, ∃ pos' max' buf' one, enc v (.at pos') 0 max' none buf' = .ok one ∧
      0 ≤ one.res ∧ buf'.length = buf.length := by
  induction count generalizing vs res encLen buf with
  | zero => exact ⟨Nat.zero_le _,fun v member => by cases member⟩
  | succ count ih =>
    cases vs with
    | nil => cases done
    | cons v vs =>
      simp only [arrayEncodeLoop,positive,and_true,ne_eq,reduceCtorEq,not_false_eq_true,if_true] at done
      cases called : enc v (Dst.advance (.at pos) encLen) 0 (sizeSub max encLen) none buf with
      | error stop => simp [called,bind,Except.bind] at done
      | ok one =>
        simp only [called,bind,Except.bind] at done
        have succeeded : 0 ≤ one.res := by
          by_contra failed
          have := arrayLoopFailed (not_le.mp failed) done
          omega
        have kept := (frames 0 v _ 0 _ none buf (fun _ _ => Nat.zero_le _) one called).2
        rw [if_neg (not_lt.mpr succeeded)] at done
        obtain ⟨enough,rest⟩ := ih succeeded done
        refine ⟨Nat.succ_le_succ enough,?_⟩
        rw [List.take_succ_cons, List.forall_mem_cons]
        refine ⟨⟨_,_,_,one,called,succeeded,rfl⟩,fun w member => ?_⟩
        obtain ⟨pos',max',buf',two,again,good,same⟩ := rest w member
        exact ⟨pos',max',buf',two,again,good,same.trans kept⟩

theorem structLoopSizes {fields : List (Encoder × Nat)} {cells vs : List Val} {max used len : Nat} {dst : Dst} {res : Int}
    {buf : List Byte} {r : Encoded} (sizing : dst = .null ∨ res < 0)
    (done : structEncodeLoop env cells max fields vs dst res used len buf = .ok r) : r.res = res := by
  induction fields generalizing vs used len buf with
  | nil =>
    cases done
    rfl
  | cons field fields ih =>
    obtain ⟨enc,lenOffset⟩ := field
    cases vs with
    | nil => cases done
    | cons v vs =>
      simp only [structEncodeLoop,sizing,if_true] at done
      cases called : enc v .null len max (some (wordAt env cells[lenOffset]?)) buf with
      | error stop => simp [called,bind,Except.bind] at done
      | ok one =>
        simp only [called,bind,Except.bind] at done
        exact ih done

theorem structLoopSucceeds {enc : Encoder} {lenOffset : Nat} {fields : List (Encoder × Nat)} {cells vs : List Val} {v : Val}
    {max pos used len : Nat} {res : Int} {buf : List Byte} {r : Encoded} (positive : 0 ≤ res)
    (done : structEncodeLoop env cells max ((enc,lenOffset) :: fields) (v :: vs) (.at pos) res used len buf = .ok r)
    (fine : 0 ≤ r.res) :
    ∃ one, enc v (.at (pos + used)) len (sizeSub max used) (some (wordAt env cells[lenOffset]?)) buf = .ok one ∧
      0 ≤ one.res ∧ structEncodeLoop env cells max fields vs (.at pos) one.res (used + one.used) one.used one.buf = .ok r := by
  simp only [structEncodeLoop,not_lt.mpr positive,or_false,reduceCtorEq,if_false,Dst.advance] at done
  cases called : enc v (.at (pos + used)) len (sizeSub max used) (some (wordAt env cells[lenOffset]?)) buf with
  | error stop => simp [called,bind,Except.bind] at done
  | ok one =>
    simp only [called,bind,Except.bind] at done
    refine ⟨one,rfl,?_,done⟩
    by_contra failed
    have := structLoopSizes (.inr (not_le.mp failed)) done
    omega

/- An opaque array that is encoded was there, with as many bytes as its length says. A length
below zero stands for more bytes than any buffer has. -/
theorem encodeByteArraySucceeds {v : Val} {pos used max : Nat} {len : BitVec 32} {buf : List Byte} {r : Encoded}
    (size : buf.length < 2 ^ 63) (done : encodeByteArray v (.at pos) used max (some len) buf = .ok r) (fine : 0 ≤ r.res) :
    ∃ data chunk, v = .chars data ∧ len.toInt = (chunk : List Byte).length ∧ paddedSize chunk.length < 2 ^ 31 ∧
      data.take chunk.length = chunk := by
  simp only [encodeByteArray] at done
  split at done
  · cases done
  rename_i defined
  split at done
  · cases done
    exact absurd fine (show ¬(0 : Int) ≤ -1 by decide)
  · rename_i data
    split at done
    · cases done
      exact absurd fine (show ¬(0 : Int) ≤ -1 by decide)
    split at done
    · cases done
    rename_i enough
    cases copied : put (data.take (toSize len.toInt)) (.at pos) buf with
    | error stop => simp [copied,bind,Except.bind] at done
    | ok buf' =>
      have inside : toSize len.toInt ≤ buf.length := by
        have count : (data.take (toSize len.toInt)).length = toSize len.toInt := by
          rw [List.length_take]
          omega
        by_cases empty : data.take (toSize len.toInt) = []
        · rw [empty] at count
          rw [← count]
          exact Nat.zero_le _
        · simp only [put,empty,if_false] at copied
          split at copied
          · omega
          · cases copied
      have natural : len.toInt = (toSize len.toInt : Nat) := by
        have low := BitVec.le_toInt len
        have high := BitVec.toInt_lt (x := len)
        rw [toSize] at inside ⊢
        omega
      refine ⟨data,data.take (toSize len.toInt),rfl,?_,?_,?_⟩
      · rw [List.length_take, Nat.min_eq_left (not_lt.mp enough)]
        exact natural
      · rw [List.length_take, Nat.min_eq_left (not_lt.mp enough)]
        rw [natural, bytePaddingNat] at defined
        rw [paddedSize]
        omega
      · rw [List.length_take, Nat.min_eq_left (not_lt.mp enough)]
  · cases done

theorem chunkSucceeds {kept : OpaqueStruct} {pos used max : Nat} {buf : List Byte} {r : Encoded}
    (size : buf.length < 2 ^ 63)
    (done : structEncoder env (encodersOf env into ipcOpaqueStructFields) kept.val (.at pos) used max none buf = .ok r)
    (fine : 0 ≤ r.res) : ∃ chunk, Chunk kept chunk := by
  obtain ⟨one,first,good,rest⟩ := structLoopSucceeds (le_refl 0) done fine
  obtain ⟨two,second,good',-⟩ := structLoopSucceeds good rest fine
  rw [show encoderOf env into (.scalar .int32) = encodeScalar .int32 by rw [encoderOf]] at first
  rw [show encoderOf env into .byteArr = encodeByteArray by rw [encoderOf]] at second
  have kept1 := (encodeScalarFrames .int32 0 _ _ _ _ _ buf (fun _ _ => Nat.zero_le _) one first).2
  obtain ⟨data,chunk,same,counted,small,taken⟩ := encodeByteArraySucceeds (kept1 ▸ size) second good'
  refine ⟨chunk,data,?_,counted,small,taken⟩
  cases present : kept.data with
  | none => simp [present] at same
  | some data' =>
    simp only [present,Option.elim_some,Val.chars.injEq] at same
    rw [same]

theorem unionSucceeds {type : BitVec 32} {data : Val} {buf : List Byte} {max : Nat} {r : Encoded} (size : max ≤ buf.length)
    (done : encodeUnion env into (.union type data) (.at 0) 0 max none buf = .ok r) (fine : 0 ≤ r.res) :
    4 ≤ max ∧ ∃ d body, env.definitionForType type = some d ∧
      into d data (.at 4) 0 (max - 4) none (splice buf 0 (beBytes type)) = .ok body ∧ 0 ≤ body.res ∧
      r = ⟨0,4 + body.used,body.buf⟩ := by
  cases registered : env.definitionForType type with
  | none =>
    simp only [encodeUnion,registered] at done
    cases head : encodeWord type (.at 0) max buf with
    | error stop => simp [head,bind,Except.bind] at done
    | ok one =>
      simp only [head,bind,Except.bind] at done
      cases done
      exact absurd fine (show ¬(0 : Int) ≤ -1 by decide)
  | some d =>
    by_cases short : max < 4
    · simp only [encodeUnion,registered] at done
      rw [encodeWordShort short] at done
      simp only [bind,Except.bind] at done
      split at done
      · cases done
      · cases done
        simp at fine
    · rw [encodeUnionAt registered (not_lt.mp short) (by omega)] at done
      cases entered : into d data (.at (0 + 4)) 0 (max - 4) none (splice buf 0 (beBytes type)) with
      | error stop => simp [entered,bind,Except.bind] at done
      | ok body =>
        simp only [entered,bind,Except.bind] at done
        cases done
        have positive : ¬body.res < 0 := by
          intro failed
          simp [failed] at fine
        rw [if_neg positive]
        exact ⟨not_lt.mp short,d,body,rfl,entered,not_lt.mp positive,rfl⟩

theorem forallChunks {structs : List OpaqueStruct} (each : ∀ kept ∈ structs, ∃ chunk, Chunk kept chunk) :
    ∃ chunks, List.Forall₂ Chunk structs chunks := by
  induction structs with
  | nil => exact ⟨[],.nil⟩
  | cons kept structs ih =>
    rw [List.forall_mem_cons] at each
    obtain ⟨chunk,counts⟩ := each.1
    obtain ⟨chunks,rest⟩ := ih each.2
    exact ⟨chunk :: chunks,.cons counts rest⟩

theorem arraySucceeds {fuel : Nat} (registered : env.definitionForType opaqueStructArr = some opaqueStructArrDefinition)
    {structs : List OpaqueStruct} {count : BitVec 32} {buf : List Byte} {r : Encoded} (size : buf.length < 2 ^ 63)
    (done : encodeUnion env (enterEncoder env (fuel + 1))
      (.union opaqueStructArr (.struct [.word count,.array (structs.map OpaqueStruct.val)])) (.at 0) 0 buf.length none buf =
        .ok r) (fine : 0 ≤ r.res) :
    ∃ chunks, List.Forall₂ Chunk (structs.take count.toInt.toNat) chunks ∧ count.toInt.toNat ≤ structs.length ∧
      (arrayBytes count chunks).length ≤ buf.length ∧ r = ⟨0,(arrayBytes count chunks).length,splice buf 0 (arrayBytes count chunks)⟩ := by
  obtain ⟨enough,chunks,each⟩ : count.toInt.toNat ≤ structs.length ∧
      ∃ chunks, List.Forall₂ Chunk (structs.take count.toInt.toNat) chunks := by
    obtain ⟨four,d,body,found,entered,good,-⟩ := unionSucceeds (le_refl _) done fine
    cases registered.symm.trans found
    have length1 : (splice buf 0 (beBytes opaqueStructArr)).length = buf.length :=
      spliceLength (by rw [beBytesLength]; omega)
    obtain ⟨one,first,good1,rest⟩ := structLoopSucceeds (le_refl 0) entered good
    obtain ⟨two,second,good2,-⟩ := structLoopSucceeds good1 rest good
    rw [show encoderOf env (enterEncoder env fuel) (.scalar .int32) = encodeScalar .int32 by rw [encoderOf]] at first
    have length2 := (encodeScalarFrames .int32 0 _ _ _ _ _ _ (fun _ _ => Nat.zero_le _) one first).2
    have frames : Frames (structEncoder env (encodersOf env (enterEncoder env fuel) ipcOpaqueStructFields)) :=
      structEncoderFrames (fieldsFrame (enterEncoderFrames env fuel) _)
    rw [show encoderOf env (enterEncoder env fuel) (.structArr ipcOpaqueStructFields) =
      encodeArray (structEncoder env (encodersOf env (enterEncoder env fuel) ipcOpaqueStructFields)) by rw [encoderOf]] at second
    obtain ⟨enough,all⟩ := arrayLoopSucceeds frames (le_refl 0) second good2
    rw [List.length_map] at enough
    refine ⟨enough,forallChunks fun kept member => ?_⟩
    rw [← List.map_take] at all
    obtain ⟨pos',max',buf',made,called,fine',same⟩ := all kept.val (List.mem_map_of_mem member)
    exact chunkSucceeds (by omega) called fine'
  obtain ⟨tight,resizes⟩ := arrayResizing registered each enough
  by_cases room : Room tight (arrayBytes count chunks).length buf.length
  · rw [resizes.written 0 0 buf.length buf room (by omega)] at done
    cases done
    exact ⟨chunks,each,enough,room.1,rfl⟩
  · obtain ⟨res,buf',failed,-,refused⟩ := resizes.refused 0 0 buf.length buf room (by omega)
    cases refused.symm.trans done
    exact absurd fine (not_le.mpr failed)

end Encoding

def Stands (mem : Nat → Byte) (src : Nat) (bytes : List Byte) : Prop := stretch mem src bytes.length = bytes

section Reading
variable {mem : Nat → Byte} {src : Nat}

theorem stretchAppend (src n m : Nat) : stretch mem src (n + m) = stretch mem src n ++ stretch mem (src + n) m := by
  simp only [stretch,List.range_add,List.map_append,List.map_map,Function.comp_def,Nat.add_assoc]

theorem standsAppend {a b : List Byte} : Stands mem src (a ++ b) ↔ Stands mem src a ∧ Stands mem (src + a.length) b := by
  have width : (stretch mem src a.length).length = a.length := by simp [stretch]
  rw [Stands, List.length_append, stretchAppend]
  exact List.append_eq_append_iff_of_size_eq_left width

theorem standsStart (buf bytes : List Byte) : Stands (memory (splice buf 0 bytes)) 0 bytes := by
  apply List.ext_getElem
  · simp [stretch]
  · intro i left right
    simp [stretch,memory,splice,List.getD_eq_getElem?_getD,List.getElem?_append_left right,List.getElem?_eq_getElem right]

theorem standsWord {w : BitVec 32} (stands : Stands mem src (beBytes w)) : word mem src = w := by
  have four : stretch mem src 4 = [mem src,mem (src + 1),mem (src + 2),mem (src + 3)] := rfl
  rw [word, ← four]
  exact (congrArg beWord stands).trans (beWordBytes w)

theorem chunkRead {type : BitVec 32} (single : type ≠ opaqueStructArr) {chunk : List Byte}
    (headed : 4 ≤ chunk.length → chunk.take 4 = beBytes type) (stands : Stands mem src chunk) (depth : Nat) :
    cmdIterateStructs mem (depth + 1) src chunk.length =
      if chunk.length < 4 then ⟨[],some (-1)⟩ else ⟨[.read src,.callback type (src + 4) (chunk.length - 4)],some 0⟩ := by
  by_cases short : chunk.length < 4
  · simp only [cmdIterateStructs,decodeUint32,short,if_true]
  · have head := headed (not_lt.mp short)
    rw [← List.take_append_drop 4 chunk, head, standsAppend] at stands
    simp only [cmdIterateStructs,decodeUint32,short,if_false,standsWord stands.1,ne_eq,single,not_false_eq_true,if_true]

theorem chunkData {type : BitVec 32} {chunk : List Byte} (head : chunk.take 4 = beBytes type)
    (stands : Stands mem src chunk) : stretch mem (src + 4) (chunk.length - 4) = chunk.drop 4 := by
  rw [← List.take_append_drop 4 chunk, head, standsAppend, beBytesLength] at stands
  have data := stands.2
  rw [Stands, List.length_drop] at data
  exact data

theorem beBytesInj {w w' : BitVec 32} (same : beBytes w = beBytes w') : w = w' := by
  rw [← beWordBytes w, same, beWordBytes]

theorem chunkIs {type : BitVec 32} {chunk : List Byte} (head : chunk.take 4 = beBytes type) (one : BitVec 32 × List Byte) :
    (type,chunk.drop 4) = one ↔ beBytes one.1 ++ one.2 = chunk := by
  constructor
  · rintro rfl
    rw [← head, List.take_append_drop]
  · rintro rfl
    have taken : (beBytes one.1 ++ one.2).take 4 = beBytes one.1 := rfl
    have dropped : (beBytes one.1 ++ one.2).drop 4 = one.2 := rfl
    rw [taken] at head
    rw [dropped, ← beBytesInj head]

@[simp] theorem opaqueBytesLength (chunk : List Byte) : (opaqueBytes chunk).length = 4 + paddedSize chunk.length := by
  simp [opaqueBytes,zeros,paddedSize]

/- The walk over the elements. The callbacks tell the chunks, and while these are whole words
the next element is where the walk looks for it. -/
theorem elementsRead (depth : Nat) {types : List (BitVec 32)} {chunks : List (List Byte)}
    (headed : List.Forall₂ (fun type chunk => type ≠ opaqueStructArr ∧ (4 ≤ chunk.length → chunk.take 4 = beBytes type))
      types chunks) (small : ∀ chunk ∈ chunks, chunk.length < 2 ^ 31) {left len : Nat} (enough : chunks.length ≤ left)
    (stands : Stands mem src (chunks.map opaqueBytes).flatten) (total : len = (chunks.map opaqueBytes).flatten.length)
    (size : len < 2 ^ 64) {expected : List (BitVec 32 × List Byte)} (whole : ∀ one ∈ expected, one.2.length % 4 = 0) :
    ((iterateElements mem (cmdIterateStructs mem (depth + 1)) left src len).result = some 0 ∧
      (iterateElements mem (cmdIterateStructs mem (depth + 1)) left src len).events.filterMap (given mem) = expected) ↔
      left = chunks.length ∧ expected.map (fun one => beBytes one.1 ++ one.2) = chunks := by
  induction headed generalizing left src len expected with
  | nil =>
    cases left with
    | zero =>
      constructor
      · rintro ⟨-,rfl⟩
        exact ⟨rfl,rfl⟩
      · rintro ⟨-,empty⟩
        exact ⟨rfl,(List.map_eq_nil_iff.mp empty).symm⟩
    | succ left =>
      have short : len < 4 := by
        rw [total]
        decide
      rw [iterateElementsShort left src short]
      simp
  | @cons type chunk types chunks first rest ih =>
    obtain ⟨left,rfl⟩ : ∃ n, left = n + 1 := ⟨left - 1,by rw [List.length_cons] at enough; omega⟩
    rw [List.forall_mem_cons] at small
    rw [List.map_cons, List.flatten_cons, standsAppend, opaqueBytesLength] at stands
    rw [List.map_cons, List.flatten_cons, List.length_append, opaqueBytesLength] at total
    have body := stands.1
    rw [opaqueBytes, standsAppend, standsAppend, standsAppend, beBytesLength] at body
    have count : (word mem src).toNat = chunk.length := by
      rw [standsWord body.1, BitVec.toNat_ofNat, Nat.mod_eq_of_lt (by omega)]
    have room : ¬len < 4 := by omega
    have inner := chunkRead first.1 first.2 body.2.1.1 depth
    rw [← count] at inner
    by_cases short : chunk.length < 4
    · rw [count, if_pos short] at inner
      have failed : ¬Succeeds (cmdIterateStructs mem (depth + 1) (src + 4) (word mem src).toNat) := by
        rw [count, inner]
        simp [Succeeds]
      obtain ⟨result,same,negative⟩ := iterateElementsFailed left room failed
      rw [same]
      constructor
      · rintro ⟨zero,-⟩
        exact absurd ⟨0,zero,le_refl 0⟩ negative
      · rintro ⟨-,match_⟩
        obtain ⟨one,more,-,head,-⟩ := List.map_eq_cons_iff.mp match_
        rw [← head, List.length_append, beBytesLength] at short
        omega
    · rw [if_neg (count ▸ short)] at inner
      have fine : Succeeds (cmdIterateStructs mem (depth + 1) (src + 4) (word mem src).toNat) :=
        ⟨0,by rw [inner],le_refl 0⟩
      have long := not_lt.mp short
      have data := chunkData (first.2 long) body.2.1.1
      rw [iterateElementsNext left room fine, inner, count]
      simp only [List.cons_append,List.nil_append,List.filterMap_cons,given,data]
      cases expected with
      | nil => simp
      | cons one more =>
        rw [List.forall_mem_cons] at whole
        rw [List.cons.injEq, List.map_cons, List.cons.injEq, chunkIs (first.2 long) one, List.length_cons,
          Nat.add_right_cancel_iff]
        by_cases good : beBytes one.1 ++ one.2 = chunk
        · have words : paddedSize chunk.length = chunk.length := by
            have aligned := whole.1
            have length := congrArg List.length good
            rw [List.length_append, beBytesLength] at length
            rw [paddedSize, pad]
            omega
          have rest' : (len - 4 + 2 ^ 64 - chunk.length) % 2 ^ 64 = (chunks.map opaqueBytes).flatten.length := by omega
          have after := stands.2
          rw [words, ← Nat.add_assoc] at after
          have left' : chunks.length ≤ left := by
            rw [List.length_cons] at enough
            omega
          have further := ih small.2 left' after rfl (by omega) whole.2
          rw [rest']
          simp only [good,true_and]
          exact further
        · simp only [good,false_and,and_false]

theorem arrayRead (depth : Nat) {types : List (BitVec 32)} {chunks : List (List Byte)}
    (headed : List.Forall₂ (fun type chunk => type ≠ opaqueStructArr ∧ (4 ≤ chunk.length → chunk.take 4 = beBytes type))
      types chunks) (small : ∀ chunk ∈ chunks, chunk.length < 2 ^ 31) {count : BitVec 32}
    (enough : chunks.length ≤ count.toNat) (stands : Stands mem 0 (arrayBytes count chunks))
    (size : (arrayBytes count chunks).length < 2 ^ 64) {expected : List (BitVec 32 × List Byte)}
    (whole : ∀ one ∈ expected, one.2.length % 4 = 0) :
    ((cmdIterateStructs mem (depth + 2) 0 (arrayBytes count chunks).length).result = some 0 ∧
      (cmdIterateStructs mem (depth + 2) 0 (arrayBytes count chunks).length).events.filterMap (given mem) = expected) ↔
      count.toNat = chunks.length ∧ expected.map (fun one => beBytes one.1 ++ one.2) = chunks := by
  have length : (arrayBytes count chunks).length = 8 + (chunks.map opaqueBytes).flatten.length := by
    simp only [arrayBytes,List.length_append,beBytesLength,List.length_nil]
    omega
  rw [arrayBytes, standsAppend, standsAppend, List.append_nil, beBytesLength, beBytesLength] at stands
  have type := standsWord stands.1
  have ents := standsWord stands.2.1
  have first : ¬(arrayBytes count chunks).length < 4 := by omega
  have second : ¬(arrayBytes count chunks).length - 4 < 4 := by omega
  have left : (arrayBytes count chunks).length - 8 = (chunks.map opaqueBytes).flatten.length := by omega
  rw [← elementsRead depth headed small enough stands.2.2 left (by omega) whole]
  simp only [cmdIterateStructs,decodeUint32,first,second,if_false,type,ents,ne_eq,not_true,List.filterMap_cons,given,
    Nat.zero_add]

end Reading

def Wrote (r : Encoded) (e : List Byte) : Prop := 0 ≤ r.res ∧ r.used % 2 ^ 32 = e.length ∧ r.buf.take e.length = e

/- When a struct is converted: its 256 bytes are there and enough, or the encoder asks for
more than 256 bytes, gets them with 16 to spare, and these are enough. -/
def Converts (env : Env) (fuel : Nat) (pair : Reported) : Prop :=
  pair.value ≠ .null ∧ pair.bytes.length < 2 ^ 31 ∧ ∃ small first, block pair.heap 0 firstLen = some small ∧
    encodeUnionInto env fuel pair.type pair.value (some small) firstLen = .ok first ∧
    (Wrote first pair.bytes ∨ first.res < 0 ∧ firstLen < first.used ∧
      ∃ large second, block pair.heap 1 (first.used + 16) = some large ∧
        encodeUnionInto env fuel pair.type pair.value (some large) (first.used + 16) = .ok second ∧
        Wrote second pair.bytes)

section Conversion
variable {env : Env} {fuel : Nat} {pair : Reported}

theorem keepChunk {r : Encoded} {buff e : List Byte} (words : e.length % 4 = 0) (good : 0 ≤ r.res) :
    Chunk (keep r (some buff)) e ↔ e.length < 2 ^ 31 ∧ Wrote r e := by
  have plain : paddedSize e.length = e.length := by
    rw [paddedSize, pad]
    omega
  constructor
  · rintro ⟨data,present,counted,small,taken⟩
    cases present
    rw [plain] at small
    refine ⟨small,good,?_,taken⟩
    have length := BitVec.eq_of_toInt_eq (counted.trans (lengthWord small).symm)
    have same := congrArg BitVec.toNat length
    simp only [keep,BitVec.toNat_ofNat] at same
    omega
  · rintro ⟨small,-,used,taken⟩
    have length : (keep r (some buff)).length = BitVec.ofNat 32 e.length := by
      apply BitVec.eq_of_toNat_eq
      simp only [keep,BitVec.toNat_ofNat]
      omega
    refine ⟨r.buf,rfl,?_,by rw [plain]; exact small,taken⟩
    rw [length, lengthWord small]

theorem enterSizes {d : StructDefinition} {src : Val} (there : src ≠ .null) {max : Nat} {buf : List Byte} {r : Encoded}
    (done : enterEncoder env (fuel + 1) d src .null 0 max none buf = .ok r) : r.res = 0 := by
  cases coder : d.coder with
  | struct =>
    simp only [enterEncoder,coder] at done
    cases src with
    | struct cells => exact structLoopSizes (.inl rfl) done
    | null => exact absurd rfl there
    | _ => cases done
  | bitfieldStruct =>
    simp only [enterEncoder,coder] at done
    cases src with
    | struct cells =>
      simp only [bitfieldStructEncoder,bind,Except.bind] at done
      split at done
      · cases done
      · cases done
        rfl
    | _ => cases done

theorem nullUnion {type : BitVec 32} {src : Val} (there : src ≠ .null) {max : Nat} {r : Encoded}
    (done : encodeUnionInto env fuel type src none max = .ok r) : 0 ≤ r.res ∨ r.used ≤ firstLen := by
  simp only [encodeUnionInto,if_true,encodeUnion,encodeWord,bind,Except.bind,Option.getD_none] at done
  cases registered : env.definitionForType type with
  | none =>
    simp only [registered] at done
    cases done
    exact .inr (by decide)
  | some d =>
    simp only [registered,ne_eq,not_true,false_and,if_false] at done
    cases entered : enterEncoder env (fuel + 1) d src .null 0 max none [] with
    | error stop => simp [entered] at done
    | ok body =>
      have fine := enterSizes there entered
      simp only [entered,fine] at done
      cases done
      exact .inl (le_refl 0)

theorem structToOpaque {heap : Heap} {src : Val} {type : BitVec 32} (there : src ≠ .null) :
    cmdStructToOpaqueStruct env fuel heap src type = (do
      let first ← encodeUnionInto env fuel type src (block heap 0 firstLen) firstLen
      if 0 ≤ first.res then .ok (keep first (block heap 0 firstLen))
      else if first.used ≤ firstLen then .ok ⟨0,none⟩
      else
        let second ← encodeUnionInto env fuel type src (block heap 1 (first.used + 16)) (first.used + 16)
        if 0 ≤ second.res then .ok (keep second (block heap 1 (first.used + 16))) else .ok ⟨0,none⟩) := by
  cases src with
  | null => exact absurd rfl there
  | _ => rfl

def Source (env : Env) (fuel : Nat) (heap : Heap) (src : Val) (type : BitVec 32) (kept : OpaqueStruct) : Prop :=
  ∃ small first, block heap 0 firstLen = some small ∧
    encodeUnionInto env fuel type src (some small) firstLen = .ok first ∧
    ((0 ≤ first.res ∧ kept = keep first (some small)) ∨ (first.res < 0 ∧ firstLen < first.used ∧
      ∃ large second, block heap 1 (first.used + 16) = some large ∧
        encodeUnionInto env fuel type src (some large) (first.used + 16) = .ok second ∧ 0 ≤ second.res ∧
        kept = keep second (some large)))

theorem structToOpaqueSource {heap : Heap} {src : Val} {type : BitVec 32} {kept : OpaqueStruct} :
    (cmdStructToOpaqueStruct env fuel heap src type = .ok kept ∧ kept.data ≠ none) ↔
      src ≠ .null ∧ Source env fuel heap src type kept := by
  by_cases there : src ≠ .null
  swap
  · rw [not_not.mp there]
    constructor
    · rintro ⟨done,present⟩
      cases done
      exact absurd rfl present
    · rintro ⟨there,-⟩
      exact absurd rfl there
  rw [structToOpaque there]
  constructor
  · rintro ⟨done,present⟩
    refine ⟨there,?_⟩
    cases called : encodeUnionInto env fuel type src (block heap 0 firstLen) firstLen with
    | error stop => simp [called,bind,Except.bind] at done
    | ok first =>
      simp only [called,bind,Except.bind] at done
      cases given : block heap 0 firstLen with
      | none =>
        rw [given] at called done
        rcases nullUnion there called with good | small
        · rw [if_pos good] at done
          cases done
          exact absurd rfl present
        · split at done
          · cases done
            exact absurd rfl present
          · cases done
            exact absurd rfl present
      | some small =>
        rw [given] at called done
        refine ⟨small,first,given,called,?_⟩
        split at done
        · rename_i good
          cases done
          exact .inl ⟨good,rfl⟩
        · rename_i failed
          split at done
          · cases done
            exact absurd rfl present
          · rename_i more
            refine .inr ⟨not_le.mp failed,not_le.mp more,?_⟩
            cases again : encodeUnionInto env fuel type src (block heap 1 (first.used + 16)) (first.used + 16) with
            | error stop => simp [again] at done
            | ok second =>
              simp only [again] at done
              split at done
              · rename_i fine
                cases done
                cases given' : block heap 1 (first.used + 16) with
                | none =>
                  rw [given'] at present
                  exact absurd rfl present
                | some large =>
                  rw [given'] at again
                  exact ⟨large,second,rfl,again,fine,rfl⟩
              · cases done
                exact absurd rfl present
  · rintro ⟨-,small,first,given,called,from_⟩
    rw [given, called]
    simp only [bind,Except.bind]
    rcases from_ with ⟨good,rfl⟩ | ⟨failed,more,large,second,given',called',good,rfl⟩
    · rw [if_pos good]
      exact ⟨rfl,Option.some_ne_none _⟩
    · rw [if_neg (not_le.mpr failed), if_neg (not_le.mpr more), given', called']
      show (if 0 ≤ second.res then _ else _) = _ ∧ _
      rw [if_pos good]
      exact ⟨rfl,Option.some_ne_none _⟩

theorem chunkPresent {kept : OpaqueStruct} {e : List Byte} (counts : Chunk kept e) : kept.data ≠ none := by
  obtain ⟨data,present,-⟩ := counts
  rw [present]
  exact Option.some_ne_none data

theorem convertsIff (words : pair.bytes.length % 4 = 0) : Converts env fuel pair ↔
    ∃ kept, cmdStructToOpaqueStruct env fuel pair.heap pair.value pair.type = .ok kept ∧ Chunk kept pair.bytes := by
  constructor
  · rintro ⟨there,size,small,first,given,called,wrote | ⟨failed,more,large,second,given',called',wrote⟩⟩
    · have source : Source env fuel pair.heap pair.value pair.type (keep first (some small)) :=
        ⟨small,first,given,called,.inl ⟨wrote.1,rfl⟩⟩
      exact ⟨_,(structToOpaqueSource.mpr ⟨there,source⟩).1,(keepChunk words wrote.1).mpr ⟨size,wrote⟩⟩
    · have source : Source env fuel pair.heap pair.value pair.type (keep second (some large)) :=
        ⟨small,first,given,called,.inr ⟨failed,more,large,second,given',called',wrote.1,rfl⟩⟩
      exact ⟨_,(structToOpaqueSource.mpr ⟨there,source⟩).1,(keepChunk words wrote.1).mpr ⟨size,wrote⟩⟩
  · rintro ⟨kept,done,counts⟩
    obtain ⟨there,small,first,given,called,source⟩ := structToOpaqueSource.mp ⟨done,chunkPresent counts⟩
    rcases source with ⟨good,rfl⟩ | ⟨failed,more,large,second,given',called',good,rfl⟩
    · obtain ⟨size,wrote⟩ := (keepChunk words good).mp counts
      exact ⟨there,size,small,first,given,called,.inl wrote⟩
    · obtain ⟨size,wrote⟩ := (keepChunk words good).mp counts
      exact ⟨there,size,small,first,given,called,.inr ⟨failed,more,large,second,given',called',wrote⟩⟩

theorem unionHead {type : BitVec 32} {src : Val} {buff : List Byte} {max : Nat} {r : Encoded} (size : buff.length = max)
    (done : encodeUnionInto env fuel type src (some buff) max = .ok r) (good : 0 ≤ r.res) :
    r.buf.take 4 = beBytes type := by
  obtain ⟨four,d,body,-,entered,-,rfl⟩ := unionSucceeds (le_of_eq size.symm) done good
  have kept := (enterEncoderFrames env (fuel + 1) d 4 src (.at 4) 0 (max - 4) none _
    (fun pos same => by cases same; exact le_refl 4) body entered).1
  rw [kept]
  rfl

theorem chunkHead {heap : Heap} {src : Val} {type : BitVec 32} {kept : OpaqueStruct} {chunk : List Byte}
    (done : cmdStructToOpaqueStruct env fuel heap src type = .ok kept) (counts : Chunk kept chunk)
    (long : 4 ≤ chunk.length) : chunk.take 4 = beBytes type := by
  obtain ⟨-,small,first,given,called,source⟩ := structToOpaqueSource.mp ⟨done,chunkPresent counts⟩
  have taken : ∀ r buff, kept = keep r (some buff) → chunk.take 4 = r.buf.take 4 := by
    rintro r buff rfl
    obtain ⟨data,present,-,-,same⟩ := counts
    cases present
    rw [← same, List.take_take, Nat.min_eq_left long]
  rcases source with ⟨good,same⟩ | ⟨-,-,large,second,given',called',good,same⟩
  · rw [taken first small same]
    exact unionHead (blockLength given) called good
  · rw [taken second large same]
    exact unionHead (blockLength given') called' good

end Conversion

theorem mapConverts {α β : Type} {f : α → Except Stop β} {as : List α} {bs : List β} :
    as.mapM f = .ok bs ↔ List.Forall₂ (fun a b => f a = .ok b) as bs := by
  constructor
  · intro done
    induction as generalizing bs with
    | nil =>
      cases done
      exact .nil
    | cons a as ih =>
      rw [List.mapM_cons] at done
      cases head : f a with
      | error stop =>
        rw [head] at done
        cases done
      | ok b =>
        cases rest : as.mapM f with
        | error stop =>
          rw [head, rest] at done
          cases done
        | ok more =>
          rw [head, rest] at done
          cases done
          exact .cons head (ih rest)
  · intro all
    induction all with
    | nil => rfl
    | cons first _ ih =>
      rw [List.mapM_cons, first, ih]
      rfl

section Pairs
variable {env : Env} {fuel : Nat} {pairs : List Reported}

theorem allConverted (words : ∀ pair ∈ pairs, pair.bytes.length % 4 = 0) : (∀ pair ∈ pairs, Converts env fuel pair) ↔
    ∃ structs, pairs.mapM (fun pair => cmdStructToOpaqueStruct env fuel pair.heap pair.value pair.type) = .ok structs ∧
      List.Forall₂ Chunk structs (pairs.map Reported.bytes) := by
  simp only [mapConverts]
  induction pairs with
  | nil => simp
  | cons pair pairs ih =>
    rw [List.forall_mem_cons] at words
    rw [List.forall_mem_cons, ih words.2, convertsIff words.1]
    constructor
    · rintro ⟨⟨kept,done,counts⟩,structs,all,chunks⟩
      exact ⟨kept :: structs,.cons done all,.cons counts chunks⟩
    · rintro ⟨structs,all,chunks⟩
      cases all with
      | cons done more =>
        cases chunks with
        | cons counts rest => exact ⟨⟨_,done,counts⟩,_,more,rest⟩

theorem chunksHeaded (single : ∀ pair ∈ pairs, pair.type ≠ opaqueStructArr) {structs : List OpaqueStruct}
    (all : List.Forall₂ (fun (pair : Reported) kept =>
      cmdStructToOpaqueStruct env fuel pair.heap pair.value pair.type = .ok kept) pairs structs)
    {chunks : List (List Byte)} (each : List.Forall₂ Chunk structs chunks) :
    List.Forall₂ (fun type chunk => type ≠ opaqueStructArr ∧ (4 ≤ chunk.length → chunk.take 4 = beBytes type))
      (pairs.map Reported.type) chunks := by
  induction all generalizing chunks with
  | nil =>
    cases each
    exact .nil
  | cons done _ ih =>
    rw [List.forall_mem_cons] at single
    cases each with
    | cons counts rest => exact .cons ⟨single.1,chunkHead done counts⟩ (ih single.2 rest)

theorem chunksSmall {structs : List OpaqueStruct} {chunks : List (List Byte)} (each : List.Forall₂ Chunk structs chunks) :
    ∀ chunk ∈ chunks, chunk.length < 2 ^ 31 := by
  induction each with
  | nil => exact fun chunk member => by cases member
  | cons counts _ ih =>
    obtain ⟨data,-,-,small,-⟩ := counts
    rw [paddedSize] at small
    exact List.forall_mem_cons.mpr ⟨by omega,ih⟩

variable (registered : env.definitionForType opaqueStructArr = some opaqueStructArrDefinition)
  (single : ∀ pair ∈ pairs, pair.type ≠ opaqueStructArr) (words : ∀ pair ∈ pairs, pair.body.length % 4 = 0)
include registered single words

theorem readBackConverts {depth : Nat} {buf : List Byte} (size : buf.length < 2 ^ 63)
    (back : ReadBack env fuel depth pairs buf) : pairs.length < 2 ^ 31 ∧ ∀ pair ∈ pairs, Converts env fuel pair := by
  obtain ⟨r,done,fine,result,calls⟩ := back
  cases converted : pairs.mapM (fun pair => cmdStructToOpaqueStruct env fuel pair.heap pair.value pair.type) with
  | error stop =>
    rw [encodeStructs, converted] at done
    cases done
  | ok structs =>
    rw [encodeStructs, converted] at done
    have all := mapConverts.mp converted
    have counted := all.length_eq
    obtain ⟨chunks,each,enough,inside,rfl⟩ := arraySucceeds registered size done fine
    have elements : chunks.length = (BitVec.ofNat 32 structs.length).toInt.toNat := by
      rw [← each.length_eq, List.length_take, Nat.min_eq_left enough]
    have headed := chunksHeaded (fun pair member => single pair (List.mem_of_mem_take member))
      (List.forall₂_take _ all) each
    have unsigned : chunks.length ≤ (BitVec.ofNat 32 structs.length).toNat := by
      rw [elements]
      rw [BitVec.toInt_eq_toNat_cond]
      split <;> omega
    have whole : ∀ one ∈ pairs.map fun pair => (pair.type,pair.body), one.2.length % 4 = 0 :=
      List.forall_mem_map.mpr words
    obtain ⟨-,same⟩ := (arrayRead depth headed (chunksSmall each) unsigned (standsStart buf _) (by omega) whole).mp ⟨result,calls⟩
    rw [List.map_map] at same
    have number : pairs.length = chunks.length := by rw [← same, List.length_map]
    have below := BitVec.toInt_lt (x := BitVec.ofNat 32 structs.length)
    refine ⟨by omega,(allConverted fun pair member => ?_).mpr ⟨structs,converted,?_⟩⟩
    · rw [Reported.bytes, List.length_append, beBytesLength]
      have := words pair member
      omega
    · rw [← elements, ← number, counted, List.take_length, ← same] at each
      exact each

theorem convertsReadBack (depth : Nat) {buf : List Byte} (size : buf.length < 2 ^ 63)
    (room : (arrayBytes (BitVec.ofNat 32 pairs.length) (pairs.map Reported.bytes)).length < buf.length)
    (few : pairs.length < 2 ^ 31) (converts : ∀ pair ∈ pairs, Converts env fuel pair) :
    ReadBack env fuel depth pairs buf := by
  obtain ⟨structs,converted,each⟩ := (allConverted fun pair member => by
    rw [Reported.bytes, List.length_append, beBytesLength]
    have := words pair member
    omega).mp converts
  have all := mapConverts.mp converted
  have counted := all.length_eq
  have count : (BitVec.ofNat 32 structs.length).toInt.toNat = structs.length := by
    rw [lengthWord (by omega)]
    omega
  have taken : List.Forall₂ Chunk (structs.take (BitVec.ofNat 32 structs.length).toInt.toNat)
      (pairs.map Reported.bytes) := by
    rw [count, List.take_length]
    exact each
  obtain ⟨tight,resizes⟩ := arrayResizing registered taken (by omega)
  rw [counted] at room
  have encoded := resizes.written 0 0 buf.length buf ⟨by omega,fun _ => room⟩ (by omega)
  have unsigned : (pairs.map Reported.bytes).length ≤ (BitVec.ofNat 32 structs.length).toNat := by
    rw [List.length_map, BitVec.toNat_ofNat]
    omega
  have whole : ∀ one ∈ pairs.map fun pair => (pair.type,pair.body), one.2.length % 4 = 0 :=
    List.forall_mem_map.mpr words
  obtain ⟨result,calls⟩ := (arrayRead depth (chunksHeaded single all each) (chunksSmall each) unsigned
    (standsStart buf _) (by omega) whole).mpr ⟨by rw [BitVec.toNat_ofNat, List.length_map]; omega,by rw [List.map_map]; rfl⟩
  refine ⟨⟨0,_,splice buf 0 _⟩,?_,le_refl 0,result,calls⟩
  rw [encodeStructs, converted]
  exact encoded

end Pairs

def Blocks (heap : Heap) (tight : Prop) (n : Nat) : Prop :=
  heap 0 firstLen ≠ none ∧ (n < firstLen ∨ n = firstLen ∧ ¬tight ∨ firstLen < n ∧ heap 1 (n + 16) ≠ none)

section Sizes
variable {env : Env} {fuel depth : Nat} {pair : Reported} {d : StructDefinition}

theorem wroteWhole {buff e : List Byte} (small : e.length < 2 ^ 31) : Wrote ⟨0,e.length,splice buff 0 e⟩ e := by
  refine ⟨le_refl 0,Nat.mod_eq_of_lt (Nat.lt_trans small (by decide)),?_⟩
  simp [splice]

theorem blockSome {heap : Heap} {call size : Nat} (given : heap call size ≠ none) :
    ∃ buff, block heap call size = some buff ∧ buff.length = size := by
  cases found : block heap call size with
  | none => exact absurd (blockNone.mp found) given
  | some buff => exact ⟨buff,rfl,blockLength found⟩

theorem convertsBlocks (message : Parameters env depth pair.type pair.value pair.body d) (deep : depth ≤ fuel + 1) :
    Converts env fuel pair ↔ pair.value ≠ .null ∧ pair.bytes.length < 2 ^ 31 ∧
      Blocks pair.heap (objectEndsOpaque env depth d pair.value) pair.bytes.length := by
  have resizes : Resizes (encodeUnion env (enterEncoder env (fuel + 1))) (.union pair.type pair.value) none pair.bytes
      (objectEndsOpaque env depth d pair.value) := message.resizes deep none
  have fits : ∀ buff : List Byte, Room (objectEndsOpaque env depth d pair.value) pair.bytes.length buff.length →
      encodeUnionInto env fuel pair.type pair.value (some buff) buff.length =
        .ok ⟨0,pair.bytes.length,splice buff 0 pair.bytes⟩ := by
    intro buff room
    exact resizes.written 0 0 buff.length buff room (by omega)
  have overflows : ∀ buff : List Byte, ¬Room (objectEndsOpaque env depth d pair.value) pair.bytes.length buff.length →
      ∃ res buf', res < 0 ∧ encodeUnionInto env fuel pair.type pair.value (some buff) buff.length =
        .ok ⟨res,pair.bytes.length,buf'⟩ := by
    intro buff short
    obtain ⟨res,buf',failed,-,done⟩ := resizes.refused 0 0 buff.length buff short (by omega)
    exact ⟨res,buf',failed,done⟩
  constructor
  · rintro ⟨there,size,small,first,given,called,outcome⟩
    have length := blockLength given
    have present : pair.heap 0 firstLen ≠ none := fun missing => by
      cases (blockNone.mpr missing).symm.trans given
    refine ⟨there,size,present,?_⟩
    by_cases room : Room (objectEndsOpaque env depth d pair.value) pair.bytes.length small.length
    · rw [length] at room
      by_cases exact_ : pair.bytes.length = firstLen
      · exact .inr (.inl ⟨exact_,fun tight => by have := room.2 tight; omega⟩)
      · exact .inl (lt_of_le_of_ne room.1 exact_)
    · obtain ⟨res,buf',failed,done⟩ := overflows small room
      rw [length] at done
      cases done.symm.trans called
      rcases outcome with wrote | ⟨-,more,large,second,given',-⟩
      · exact absurd wrote.1 (not_le.mpr failed)
      · exact .inr (.inr ⟨more,fun missing => by cases (blockNone.mpr missing).symm.trans given'⟩)
  · rintro ⟨there,size,present,enough⟩
    obtain ⟨small,given,length⟩ := blockSome present
    by_cases room : Room (objectEndsOpaque env depth d pair.value) pair.bytes.length small.length
    · have done := fits small room
      rw [length] at done
      exact ⟨there,size,small,_,given,done,.inl (wroteWhole size)⟩
    · have more : firstLen < pair.bytes.length ∧ pair.heap 1 (pair.bytes.length + 16) ≠ none := by
        rw [length] at room
        rcases enough with less | ⟨exact_,loose⟩ | more
        · exact absurd ⟨by omega,fun _ => less⟩ room
        · exact absurd ⟨by omega,fun tight => absurd tight loose⟩ room
        · exact more
      obtain ⟨res,buf',failed,done⟩ := overflows small room
      rw [length] at done
      obtain ⟨large,given',length'⟩ := blockSome more.2
      have done' := fits large ⟨by omega,fun _ => by omega⟩
      rw [length'] at done'
      exact ⟨there,size,small,_,given,done,.inr ⟨failed,more.1,large,_,given',done',wroteWhole size⟩⟩

end Sizes

/- Exactly when the structs are read back: each is converted. For values whose size the
encoder always reports, of integers, opaque arrays, arrays, structs and unions, the second
part says when that is. -/
theorem structsReadBack {env : Env} {pairs : List Reported}
    (registered : env.definitionForType opaqueStructArr = some opaqueStructArrDefinition)
    (single : ∀ pair ∈ pairs, pair.type ≠ opaqueStructArr) (words : ∀ pair ∈ pairs, pair.body.length % 4 = 0)
    (fuel depth : Nat) {buf : List Byte} (size : buf.length < 2 ^ 63)
    (room : (arrayBytes (BitVec.ofNat 32 pairs.length) (pairs.map Reported.bytes)).length < buf.length) :
    (ReadBack env fuel depth pairs buf ↔ pairs.length < 2 ^ 31 ∧ ∀ pair ∈ pairs, Converts env fuel pair) ∧
    ∀ pair ∈ pairs, ∀ nesting d, nesting ≤ fuel + 1 → Parameters env nesting pair.type pair.value pair.body d →
      (Converts env fuel pair ↔ pair.value ≠ .null ∧ pair.bytes.length < 2 ^ 31 ∧
        Blocks pair.heap (objectEndsOpaque env nesting d pair.value) pair.bytes.length) := by
  refine ⟨⟨?_,?_⟩,?_⟩
  · exact readBackConverts registered single words size
  · rintro ⟨few,converts⟩
    exact convertsReadBack registered single words depth size room few converts
  · intro pair member nesting d deep message
    exact convertsBlocks message deep

def arrayEnv : Env :=
  { ipcEnv with
    definitionForType := fun type =>
      if type = opaqueStructArr then some opaqueStructArrDefinition else ipcEnv.definitionForType type }

def reportedOpaque (data : List Byte) : Reported := ⟨typesOpaqueStruct,opaqueStruct data,plenty,opaqueBytes data⟩

theorem reportedParameters {data : List Byte} (small : data.length + pad data.length < 2 ^ 31) :
    Parameters arrayEnv 1 (reportedOpaque data).type (reportedOpaque data).value (reportedOpaque data).body
      opaqueDefinition where
  registered := rfl
  wire := by
    have counted : (BitVec.ofNat 32 data.length).toInt = data.length := lengthWord (by omega)
    refine .inl ⟨_,rfl,_,_,_,_,rfl,rfl,rfl,.int32 _,_,_,_,_,rfl,rfl,rfl,?_,rfl,rfl⟩
    exact .chars data counted small

theorem reportedEnds (data : List Byte) : objectEndsOpaque arrayEnv 1 opaqueDefinition (reportedOpaque data).value :=
  ⟨_,rfl,.inl (.inr ⟨trivial,rfl,rfl⟩)⟩

theorem reportedLength (data : List Byte) : (reportedOpaque data).bytes.length = 8 + paddedSize data.length := by
  rw [Reported.bytes, List.length_append, beBytesLength]
  show 4 + (opaqueBytes data).length = _
  rw [opaqueBytesLength]
  omega

def reportedPairs : List Reported := [reportedOpaque [1,2,3],reportedOpaque (List.replicate 300 7)]

theorem twoStructsReadBack : ReadBack arrayEnv 0 0 reportedPairs (zeros 400) := by
  have exactly := structsReadBack (show arrayEnv.definitionForType opaqueStructArr = some opaqueStructArrDefinition from rfl)
    (show ∀ pair ∈ reportedPairs, pair.type ≠ opaqueStructArr by decide +kernel)
    (show ∀ pair ∈ reportedPairs, pair.body.length % 4 = 0 by decide +kernel) 0 0
    (show (zeros 400).length < 2 ^ 63 by decide +kernel) (by decide +kernel)
  refine exactly.1.mpr ⟨by decide,fun pair member => ?_⟩
  have converts : ∀ data, reportedOpaque data ∈ reportedPairs → data.length ≤ 300 → paddedSize data.length ≠ 248 →
      Converts arrayEnv 0 (reportedOpaque data) := by
    intro data member short other
    have near : paddedSize data.length < 304 := by
      rw [paddedSize, pad]
      omega
    have size := reportedLength data
    refine (exactly.2 _ member 1 opaqueDefinition le_rfl (reportedParameters (show paddedSize data.length < 2 ^ 31 by omega))).mpr
      ⟨fun null => (by cases null),by omega,Option.some_ne_none _,?_⟩
    rcases lt_trichotomy (reportedOpaque data).bytes.length firstLen with less | same | more
    · exact .inl less
    · rw [size, firstLen] at same
      omega
    · exact .inr (.inr ⟨more,Option.some_ne_none _⟩)
  rcases List.mem_cons.mp member with rfl | later
  · exact converts _ member (by decide) (by decide)
  · rw [List.mem_singleton] at later
    subst later
    exact converts _ member (by decide +kernel) (by decide +kernel)

def reportedExactly : Reported := reportedOpaque (List.replicate 248 7)

theorem exactStructLost :
    (∃ r, encodeUnionInto arrayEnv 0 reportedExactly.type reportedExactly.value (some (zeros 257)) 257 = .ok r ∧
      Wrote r reportedExactly.bytes) ∧ reportedExactly.bytes.length = 256 ∧
      (arrayBytes (BitVec.ofNat 32 1) [reportedExactly.bytes]).length < (zeros 400).length ∧
      ¬ReadBack arrayEnv 0 0 [reportedExactly] (zeros 400) := by
  have count : (List.replicate 248 (7 : Byte)).length = 248 := List.length_replicate
  have size : reportedExactly.bytes.length = 256 := by
    rw [reportedExactly, reportedLength, count]
    rfl
  have params := reportedParameters (show (List.replicate 248 (7 : Byte)).length +
    pad (List.replicate 248 (7 : Byte)).length < 2 ^ 31 by rw [count]; decide)
  refine ⟨?_,size,by decide +kernel,fun back => ?_⟩
  · have resizes := params.resizes (show 1 ≤ 1 from le_rfl) none
    have length : (zeros 257).length = 257 := List.length_replicate
    refine ⟨_,resizes.written 0 0 257 (zeros 257) ⟨?_,fun _ => ?_⟩ (by rw [length]),wroteWhole ?_⟩
    · exact le_of_lt (show reportedExactly.bytes.length < 257 by omega)
    · exact show reportedExactly.bytes.length < 257 by omega
    · exact show reportedExactly.bytes.length < 2 ^ 31 by omega
  · have converts := (readBackConverts (show arrayEnv.definitionForType opaqueStructArr = some opaqueStructArrDefinition from rfl)
      (show ∀ pair ∈ [reportedExactly], pair.type ≠ opaqueStructArr by decide +kernel)
      (show ∀ pair ∈ [reportedExactly], pair.body.length % 4 = 0 by decide +kernel)
      (show (zeros 400).length < 2 ^ 63 by decide +kernel) back).2 reportedExactly List.mem_cons_self
    obtain ⟨-,-,-,less | ⟨-,loose⟩ | ⟨more,-⟩⟩ := (convertsBlocks params le_rfl).mp converts
    · exact absurd (size ▸ less) (by decide)
    · exact loose (reportedEnds _)
    · exact absurd (size ▸ more) (by decide)

end LibProc.MultiStruct
