import LibProc.DataRequest
import LibProc.Delivery
import LibProc.MultiStruct

/-! A request for data, from IPC_data to the printing of the response. The caller lists types; what the
populators of the other process supply for them is handed to the printer in that order, if the types are
known, there is memory and the response fits 1023 bytes. -/
namespace LibProc.DataQuery
open XdrBytes Ipc
open DataRequest
open Xdr hiding decodeUint32
open IterateStructs (Iter IterEvent cmdIterateStructs opaqueStructArr)
open MultiStruct (Reported OpaqueStruct Chunk Blocks arrayBytes opaqueArray cmdStructToOpaqueStruct opaqueStructArrDefinition memory stretch given Stands)

def cmdsDataReq : BitVec 32 := 0x102

structure Filling where
  allocLen : Nat
  length : Nat
  reqs : Option (List (BitVec 32))

def realloc (old : List (BitVec 32)) (size : Nat) (fresh : Nat → BitVec 32) : List (BitVec 32) :=
  (List.range size).map fun i => old.getD i (fresh i)

abbrev Memory := Nat → Option (Nat → BitVec 32)

/- A turn of the loop; the result of realloc is not checked. -/
def append (memory : Memory) (req : Filling) (item : BitVec 32) : Except Stop Filling :=
  let req := if req.reqs = none ∨ req.length = req.allocLen then
      let allocLen := req.allocLen * 2
      {req with allocLen := allocLen, reqs := (memory allocLen).map (realloc (req.reqs.getD []) allocLen)}
    else req
  match req.reqs with
  | none => .error .nullWrite
  | some cells =>
    if req.length < cells.length then .ok {req with length := req.length + 1, reqs := some (cells.set req.length item)}
    else .error .overrun

/- The arguments end with one that is not positive; behind the last one nothing is defined. -/
def ipcFillDatareqVa (memory : Memory) : List (BitVec 32) → Filling → Except Stop Filling
  | [],_ => .error .undefined
  | item :: rest,req =>
    if 0 < item.toInt then do
      let req ← append memory req item
      ipcFillDatareqVa memory rest req
    else .ok req

def Filling.val (req : Filling) : Val :=
  .struct [.word (BitVec.ofNat 32 req.length),req.reqs.elim .null fun cells => .array ((cells.take req.length).map .word)]

def ipcData (env : Env) (fuel : Nat) (heap : Heap) (memory : Memory) (nextCmdRef : BitVec 32) (items : List (BitVec 32))
    (addr : Address) : Except Stop (Option Handed × BitVec 32) := do
  let req ← ipcFillDatareqVa memory items ⟨8,0,none⟩
  if req.reqs.isSome then ipcCommandInternal env fuel heap nextCmdRef true cmdsDataReq typesDatareq req.val addr
  else .ok (none,nextCmdRef)

def number : Val → Option (BitVec 32)
  | .word w => some w
  | _ => none

def dataReqOf : Val → Option DataReq
  | .struct [.word length,.array vs] => do
    let types ← vs.mapM number
    if counted : types.length = length.toInt.toNat then some ⟨length,some types,fun _ same => by cases same; exact counted⟩ else none
  | .struct [.word length,.null] => some ⟨length,none,fun _ same => by cases same⟩
  | _ => none

def commandOf : Val → Option Command
  | .struct [_,.word ipcref,.union type data] => some ⟨ipcref,type,dataReqOf data⟩
  | _ => none

inductive PrintStyle where
  | human | kvp | csvHeader | csvData
  deriving DecidableEq

/- A line of text, the message of an error, or the structs of a response: what the walk over them returns,
and the types and the bytes it calls XDR_print_structure with. -/
inductive Printed where
  | notResponse
  | error (result : BitVec 32)
  | structs (style : PrintStyle) (result : Option Int) (given : List (BitVec 32 × List Byte))

def cmdPrintResponse (env : Env) (depth : Nat) (style : PrintStyle) (respBuff : List Byte) : Except Stop (List Printed) := do
  let hdr ← xdrStructDecoder env 0 Requests.responseHeaderFields respBuff (.struct [.null,.null,.null]) respBuff.length
  if hdr.res < 0 then .ok []
  else match hdr.dst with
    | .struct [.word cmd,_,.word result] =>
      if cmd ≠ cmdsResponse then .ok [.notResponse]
      else if result ≠ resultcodeSuccess then .ok [.error result]
      else
        let src := memory (respBuff.drop hdr.inc)
        let iter := cmdIterateStructs src depth 0 (respBuff.length - hdr.inc)
        let print := fun style => Printed.structs style iter.result (iter.events.filterMap (given src))
        .ok ((if style = .csvData then [print .csvHeader] else []) ++ [print style])
    | _ => .ok []

section Filled
variable {memory : Memory}

structure Holds (req : Filling) (types : List (BitVec 32)) : Prop where
  positive : 0 < req.allocLen
  length : req.length = types.length
  cells : (req.reqs = none ∧ types = []) ∨
    ∃ cells, req.reqs = some cells ∧ cells.length = req.allocLen ∧ types.length ≤ req.allocLen ∧ cells.take types.length = types

@[simp] theorem reallocLength (old : List (BitVec 32)) (size : Nat) (fresh : Nat → BitVec 32) : (realloc old size fresh).length = size := by
  rw [realloc, List.length_map, List.length_range]

theorem reallocKeeps {old : List (BitVec 32)} {size : Nat} (fresh : Nat → BitVec 32) (more : old.length ≤ size) :
    (realloc old size fresh).take old.length = old := by
  apply List.ext_getElem
  · rw [List.length_take, reallocLength, Nat.min_eq_left more]
  · intro i left right
    simp [realloc,right]

theorem takeSet {cells types : List (BitVec 32)} (front : cells.take types.length = types) (room : types.length < cells.length)
    (item : BitVec 32) : (cells.set types.length item).take (types ++ [item]).length = types ++ [item] := by
  rw [List.length_append, List.length_singleton, List.take_add_one, List.take_set_of_le le_rfl, front,
    List.getElem?_set_self room]
  rfl

theorem Holds.append {req : Filling} {types : List (BitVec 32)} (holds : Holds req types) (granted : ∀ size, memory size ≠ none)
    (item : BitVec 32) : ∃ req', append memory req item = .ok req' ∧ Holds req' (types ++ [item]) := by
  obtain ⟨fresh,given⟩ := Option.ne_none_iff_exists'.mp (granted (req.allocLen * 2))
  have stored : ∀ (allocLen : Nat) (cells : List (BitVec 32)), types.length < allocLen → cells.length = allocLen →
      cells.take types.length = types →
      Holds ⟨allocLen,req.length + 1,some (cells.set req.length item)⟩ (types ++ [item]) := by
    intro allocLen cells room size front
    refine ⟨Nat.zero_lt_of_lt room,?_,.inr ⟨_,rfl,?_,?_,?_⟩⟩
    · rw [List.length_append, holds.length]
      rfl
    · rw [List.length_set, size]
    · rw [List.length_append]
      exact room
    · rw [holds.length]
      exact takeSet front (by omega) item
  have positive := holds.positive
  unfold DataQuery.append
  dsimp only
  rcases holds.cells with ⟨none_,rfl⟩ | ⟨cells,some_,size,room,front⟩
  · rw [if_pos (.inl none_), given, none_]
    have grown := reallocLength ([] : List (BitVec 32)) (req.allocLen * 2) fresh
    dsimp only [Option.map_some,Option.getD_none]
    rw [if_pos (by rw [grown, holds.length, List.length_nil]; omega)]
    exact ⟨_,rfl,stored _ _ (by rw [List.length_nil]; omega) grown (List.take_zero ..)⟩
  · by_cases full : req.length = req.allocLen
    · rw [if_pos (.inr full), given, some_]
      have grown := reallocLength cells (req.allocLen * 2) fresh
      have kept : (realloc cells (req.allocLen * 2) fresh).take types.length = types := by
        rw [← holds.length, full, ← size, reallocKeeps fresh (by omega)]
        rw [← holds.length, full, ← size, List.take_length] at front
        exact front
      dsimp only [Option.map_some,Option.getD_some]
      rw [if_pos (by rw [grown, full]; omega)]
      exact ⟨_,rfl,stored _ _ (by rw [← holds.length, full]; omega) grown kept⟩
    · have neither : ¬(req.reqs = none ∨ req.length = req.allocLen) := by
        rw [some_]
        exact fun either => either.elim (fun is => by cases is) full
      rw [if_neg neither, some_]
      dsimp only
      have less : types.length < req.allocLen := by
        rw [← holds.length] at room ⊢
        omega
      rw [if_pos (by rw [holds.length, size]; exact less)]
      exact ⟨_,rfl,stored _ _ less size front⟩

theorem fillHolds (granted : ∀ size, memory size ≠ none) {stop : BitVec 32} (stops : stop.toInt ≤ 0) (rest types : List (BitVec 32))
    (positive : ∀ type ∈ types, 0 < type.toInt) : ∀ {req : Filling} {before : List (BitVec 32)}, Holds req before →
      ∃ req', ipcFillDatareqVa memory (types ++ stop :: rest) req = .ok req' ∧ Holds req' (before ++ types) := by
  induction types with
  | nil =>
    intro req before holds
    rw [List.nil_append, ipcFillDatareqVa, if_neg (not_lt.mpr stops), List.append_nil]
    exact ⟨req,rfl,holds⟩
  | cons type types ih =>
    intro req before holds
    obtain ⟨next,done,holds'⟩ := holds.append granted type
    obtain ⟨req',filled,all⟩ := ih (fun t member => positive t (List.mem_cons_of_mem _ member)) holds'
    rw [List.append_assoc, List.singleton_append] at all
    refine ⟨req',?_,all⟩
    rw [List.cons_append, ipcFillDatareqVa, if_pos (positive type List.mem_cons_self), done]
    exact filled

end Filled
section Words

theorem flattenWords {es : List (List Byte)} (each : ∀ e ∈ es, e.length % 4 = 0) : es.flatten.length % 4 = 0 := by
  induction es with
  | nil => rfl
  | cons e es ih =>
    rw [List.forall_mem_cons] at each
    have rest := ih each.2
    rw [List.flatten_cons, List.length_append]
    omega

theorem paddedWords (s : List Byte) : (s ++ zeros (pad s.length)).length % 4 = 0 := by
  rw [List.length_append, zeros, List.length_replicate, pad]
  omega

theorem scalarWords {s : Scalar} {v : Val} {e : List Byte} (wire : ScalarWire s v e) : e.length % 4 = 0 := by
  have words : ∀ n, n = 4 ∨ n = 8 → n % 4 = 0 := by
    omega
  cases wire with
  | int32 | uint32 | float => exact words _ (.inl rfl)
  | int64 | uint64 | double => exact words _ (.inr rfl)

theorem stringWords {rules : Rules} {v : Val} {e : List Byte} (wire : StringWire rules v e) : e.length % 4 = 0 := by
  have whole : ∀ s, (stringWire s).length % 4 = 0 := by
    intro s
    have padded := paddedWords s
    rw [stringWire, List.append_assoc, List.length_append, beBytesLength]
    omega
  cases wire with
  | null => exact whole []
  | chars s => exact whole s

theorem bytesWords {rules : Rules} {len : Int} {v : Val} {e : List Byte} (wire : BytesWire rules len v e) : e.length % 4 = 0 := by
  cases wire with
  | chars s => exact paddedWords s
  | null => rfl

theorem arrayWords {wire : Val → List Byte → Prop} (each : ∀ v e, wire v e → e.length % 4 = 0) {len : Int} {v : Val} {e : List Byte}
    (array : ArrayWire wire len v e) : e.length % 4 = 0 := by
  cases array with
  | array vs es counted wired =>
    refine flattenWords fun e member => ?_
    obtain ⟨i,inside,rfl⟩ := List.getElem_of_mem member
    exact each _ _ (wired.get (by rw [wired.length_eq]; exact inside) inside)
  | null => rfl

variable {env : Env} {rules : Rules} {enter : StructDefinition → Val → List Byte → Prop}
  (inner : ∀ d v e, enter d v e → e.length % 4 = 0)
include inner

theorem unionWords {v : Val} {e : List Byte} (wire : UnionWire env rules enter v e) : e.length % 4 = 0 := by
  cases wire with
  | union type data d body registered admitted entered =>
    have words := inner d data body entered
    rw [List.length_append, beBytesLength]
    omega

theorem entryWords (entry : Entry) {v : Val} {e : List Byte} (wire : entryWire env rules enter entry v e) : e.length % 4 = 0 := by
  cases entry with
  | scalar s => exact scalarWords wire
  | stringArr => exact stringWords wire
  | byteArr =>
    obtain ⟨len,bytes⟩ := wire
    exact bytesWords bytes
  | union => exact unionWords inner wire

theorem dictWords {entry : Entry} {v : Val} {e : List Byte} (wire : DictWire rules (entryWire env rules enter entry) v e) :
    e.length % 4 = 0 := by
  cases wire with
  | dict table es counted each =>
    have flat : es.flatten.length % 4 = 0 := by
      refine flattenWords fun e member => ?_
      obtain ⟨i,inside,rfl⟩ := List.getElem_of_mem member
      obtain ⟨key,value,keyWire,valueWire,is⟩ := each.get (by rw [each.length_eq]; exact inside) inside
      have front := stringWords keyWire
      have behind := entryWords inner entry valueWire
      rw [List.get_eq_getElem] at is
      rw [is, List.length_append]
      omega
    rw [List.length_append, beBytesLength]
    omega

omit inner

mutual
theorem wireWords (inner : ∀ d v e, enter d v e → e.length % 4 = 0) : ∀ (funcs : TypeFunctions) (len : BitVec 32) (v : Val) (e : List Byte),
    wireOf env rules enter funcs len v e → e.length % 4 = 0
  | .scalar _,_,_,_,wire => scalarWords wire
  | .array _,_,_,_,wire => arrayWords (fun _ _ scalar => scalarWords scalar) wire
  | .dict _,_,_,_,wire => dictWords inner wire
  | .string,_,_,_,wire => stringWords wire
  | .stringArr,_,_,_,wire => stringWords wire
  | .byteArr,_,_,_,wire => bytesWords wire
  | .union,_,_,_,wire => unionWords inner wire
  | .unionArr,_,_,_,wire => unionWords inner wire
  | .uint32Bitfield,_,_,_,wire => scalarWords wire
  | .int32Bitfield,_,_,_,wire => scalarWords wire
  | .struct fields,_,_,e,wire => by
    obtain ⟨cells,-,wires⟩ := wire
    exact wiresWords inner cells fields 0 cells e wires
  | .structArr fields,_,_,_,wire => by
    refine arrayWords (fun v e one => ?_) wire
    obtain ⟨cells,-,wires⟩ := one
    exact wiresWords inner cells fields 0 cells e wires
theorem wiresWords (inner : ∀ d v e, enter d v e → e.length % 4 = 0) (cells : List Val) :
    ∀ (fields : FieldList) (i : Nat) (vs : List Val) (e : List Byte), wiresOf env rules enter cells fields i vs e → e.length % 4 = 0
  | .nil,_,_,_,wires => by
    obtain ⟨-,rfl⟩ := wires
    rfl
  | .cons funcs _ _ rest,i,_,_,wires => by
    obtain ⟨v,vs,a,b,-,rfl,-,wire,more⟩ := wires
    have front := wireWords inner funcs _ v a wire
    have behind := wiresWords inner cells rest (i + 1) vs b more
    rw [List.length_append]
    omega
end

end Words

theorem objectWords {env : Env} {rules : Rules} {depth : Nat} {d : StructDefinition} {v : Val} {e : List Byte}
    (wire : objectWire env rules depth d v e) : e.length % 4 = 0 := by
  induction depth generalizing d v e with
  | zero => exact wire.elim
  | succ depth ih =>
    cases coder : d.coder with
    | struct =>
      simp only [objectWire,coder] at wire
      rcases wire with ⟨cells,-,wires⟩ | ⟨-,-,-,rfl⟩
      · exact wiresWords (fun d v e entered => ih entered) cells d.fields 0 cells e wires
      · rfl
    | bitfieldStruct =>
      simp only [objectWire,coder] at wire
      obtain ⟨cells,val,-,-,rfl⟩ := wire
      exact scalarWords (.uint32 val)

structure Reportable (host : Host) (pair : Reported) : Prop where
  single : pair.type ≠ opaqueStructArr
  known : ∃ depth d, depth ≤ host.fuel ∧ Parameters host.env depth pair.type pair.value pair.body d ∧
    Blocks pair.heap (objectEndsOpaque host.env depth d pair.value) pair.bytes.length

def reportOf (host : Host) (bodies : Nat → List Byte) (i : Nat) (type : BitVec 32) : Val × BitVec 32 → List Reported
  | (.null,_) => []
  | (data,error) =>
    if error ≠ resultcodeSuccess then
      [⟨typesPopulatorError,.struct [.word type,.word error],host.itemHeap i,bodies i⟩]
    else [⟨type,data,host.itemHeap i,bodies i⟩]

def reports (host : Host) (bodies : Nat → List Byte) : Nat → List (BitVec 32) → List Reported
  | _,[] => []
  | i,type :: rest => ((host.populator type).elim [] fun populate => reportOf host bodies i type (populate i)) ++
      reports host bodies (i + 1) rest

def structsBody (pairs : List Reported) : List Byte :=
  beBytes (BitVec.ofNat 32 pairs.length) ++ (((pairs.map Reported.bytes).map opaqueBytes).flatten ++ [])

section Answers
variable {host : Host} {bodies : Nat → List Byte}

theorem Reportable.words {pair : Reported} (reportable : Reportable host pair) : pair.body.length % 4 = 0 := by
  obtain ⟨depth,d,-,message,-⟩ := reportable.known
  exact objectWords message.wire

theorem Reportable.long {pair : Reported} (reportable : Reportable host pair) : pair.bytes.length % 4 = 0 := by
  have words := reportable.words
  rw [Reported.bytes, List.length_append, beBytesLength]
  omega

theorem converts {pair : Reported} (reportable : Reportable host pair) (there : pair.value ≠ .null)
    (small : pair.bytes.length < 2 ^ 31) : ∃ kept,
      cmdStructToOpaqueStruct host.env host.fuel pair.heap pair.value pair.type = .ok kept ∧ Chunk kept pair.bytes := by
  obtain ⟨depth,d,deep,message,blocks⟩ := reportable.known
  exact (MultiStruct.convertsIff reportable.long).mp
    ((MultiStruct.convertsBlocks message (Nat.le_succ_of_le deep)).mpr ⟨there,small,blocks⟩)

theorem reportIs {i : Nat} {type : BitVec 32} {answer : Val × BitVec 32} (there : answer.1 ≠ .null) :
    reportOf host bodies i type answer = if answer.2 ≠ resultcodeSuccess then
      [⟨typesPopulatorError,.struct [.word type,.word answer.2],host.itemHeap i,bodies i⟩]
    else [⟨type,answer.1,host.itemHeap i,bodies i⟩] := by
  obtain ⟨data,error⟩ := answer
  cases data with
  | null => exact absurd rfl there
  | _ => rfl

theorem itemIs {i : Nat} {type : BitVec 32} {answer : Val × BitVec 32}
    (reportable : ∀ pair ∈ reportOf host bodies i type answer, Reportable host pair ∧ pair.bytes.length < 2 ^ 31) :
    ∃ item, populatedItem host type i answer = .ok item ∧
      List.Forall₂ Chunk item.toList ((reportOf host bodies i type answer).map Reported.bytes) := by
  obtain ⟨data,error⟩ := answer
  by_cases absent : data = .null
  · subst absent
    exact ⟨none,rfl,.nil⟩
  have item : populatedItem host type i (data,error) = opaqueItem host type i data error := by
    cases data with
    | null => exact absurd rfl absent
    | _ => rfl
  have stored : ∀ {pair : Reported} {kept : OpaqueStruct}, Chunk kept pair.bytes →
      List.Forall₂ Chunk (if kept.data = none then none else some kept).toList [pair.bytes] := by
    intro pair kept counts
    rw [if_neg (MultiStruct.chunkPresent counts)]
    exact .cons counts .nil
  rw [reportIs absent] at reportable ⊢
  rw [item, opaqueItem]
  by_cases failed : error ≠ resultcodeSuccess
  · rw [if_pos failed] at reportable
    rw [if_pos failed, if_pos failed]
    obtain ⟨known,small⟩ := reportable _ (List.mem_singleton_self _)
    obtain ⟨kept,done,counts⟩ := converts known (fun null => by cases null) small
    refine ⟨_,?_,stored counts⟩
    rw [done]
    rfl
  · rw [if_neg failed] at reportable
    rw [if_neg failed, if_neg failed]
    obtain ⟨known,small⟩ := reportable _ (List.mem_singleton_self _)
    obtain ⟨kept,done,counts⟩ := converts known absent small
    refine ⟨_,?_,stored counts⟩
    rw [done]
    rfl

theorem answersAre (types : List (BitVec 32)) : ∀ {i : Nat},
    (∀ pair ∈ reports host bodies i types, Reportable host pair ∧ pair.bytes.length < 2 ^ 31) → ∃ structs,
      answerItems host i types = .ok structs ∧ List.Forall₂ Chunk structs ((reports host bodies i types).map Reported.bytes) := by
  induction types with
  | nil => exact fun _ => ⟨[],rfl,.nil⟩
  | cons type rest ih =>
    intro i reportable
    rw [reports, List.forall_mem_append] at reportable
    obtain ⟨structs,later,chunks⟩ := ih reportable.2
    rw [answerItems, reports]
    cases known : host.populator type with
    | none => exact ⟨structs,later,chunks⟩
    | some populate =>
      rw [known] at reportable
      obtain ⟨item,done,first⟩ := itemIs reportable.1
      refine ⟨item.toList ++ structs,by simp only [done,later,bind,Except.bind],?_⟩
      rw [Option.elim_some, List.map_append]
      exact List.rel_append first chunks

theorem reportsLength (types : List (BitVec 32)) : ∀ i, (reports host bodies i types).length ≤ types.length := by
  induction types with
  | nil => exact fun i => le_rfl
  | cons type rest ih =>
    intro i
    have later := ih (i + 1)
    have one : ((host.populator type).elim [] fun populate => reportOf host bodies i type (populate i)).length ≤ 1 := by
      cases host.populator type with
      | none => exact Nat.zero_le 1
      | some populate =>
        rw [Option.elim_some, reportOf.eq_def]
        split
        · exact Nat.zero_le 1
        · split <;> exact le_rfl
    rw [reports, List.length_append, List.length_cons]
    omega

end Answers

section Response
variable {host : Host} {pairs : List Reported}

theorem inBody {pair : Reported} (member : pair ∈ pairs) : pair.bytes.length ≤ (structsBody pairs).length := by
  have inside : (opaqueBytes pair.bytes).length ≤ ((pairs.map Reported.bytes).map opaqueBytes).flatten.length :=
    (List.sublist_flatten_of_mem (List.mem_map_of_mem (List.mem_map_of_mem member))).length_le
  rw [MultiStruct.opaqueBytesLength, paddedSize] at inside
  rw [structsBody, List.length_append, List.length_append]
  omega

theorem responseExactly {ipcref type : BitVec 32} {params : Val} {body : List Byte} {tight : Prop}
    (resizes : ∀ len, Resizes (encodeUnion host.env (enterEncoder host.env host.fuel)) (.union type params) len (beBytes type ++ body) tight)
    (memory : host.heap 0 buffLen ≠ none) (fits : 16 + body.length < buffLen) (dest : Address) :
    ∃ packet, ipcResponse host.env host.fuel host.heap ipcref type params dest = .ok (some (.rawSockaddr packet dest)) ∧
      packet.Exactly (responseBytes ipcref type body) := by
  have all : FieldsResize host.env (enterEncoder host.env host.fuel) (responseCells ipcref type params) responseFields
      (responseCells ipcref type params) (responseBytes ipcref type body) tight :=
    wordResizes (.inl rfl) (wordResizes (.inr rfl) (wordResizes (.inl rfl) (lastResizes (resizes _))))
  rw [← Delivery.responseLength ipcref type] at fits
  obtain ⟨packet,sent,exact_⟩ := (retryTransmits host.heap all).mpr ⟨memory,.inl fits⟩
  refine ⟨packet,?_,exact_⟩
  rw [responseCells] at sent
  simp only [ipcResponse,sent,bind,Except.bind]
  rfl

theorem structsSent (registered : host.env.definitionForType opaqueStructArr = some opaqueStructArrDefinition) (deep : 0 < host.fuel)
    (memory : host.heap 0 buffLen ≠ none) {structs : List OpaqueStruct} (chunks : List.Forall₂ Chunk structs (pairs.map Reported.bytes))
    (few : pairs.length < 2 ^ 31) (fits : 16 + (structsBody pairs).length < buffLen) (ipcref : BitVec 32) (dest : Address) :
    ∃ packet, ipcResponse host.env host.fuel host.heap ipcref typesOpaqueStructArr (opaqueArray structs) dest =
        .ok (some (.rawSockaddr packet dest)) ∧
      packet.Exactly (responseBytes ipcref opaqueStructArr (structsBody pairs)) := by
  obtain ⟨fuel,is⟩ : ∃ n, host.fuel = n + 1 := ⟨host.fuel - 1,by omega⟩
  have same : structs.length = pairs.length := by
    rw [chunks.length_eq, List.length_map]
  have count : (BitVec.ofNat 32 pairs.length).toInt.toNat = pairs.length := by
    rw [lengthWord few]
    exact Int.toNat_natCast _
  have each : List.Forall₂ Chunk (structs.take (BitVec.ofNat 32 pairs.length).toInt.toNat) (pairs.map Reported.bytes) := by
    rwa [count, List.take_of_length_le same.le]
  obtain ⟨tight,resizes⟩ := @MultiStruct.arrayResizing host.env fuel registered _ _ _ each (by rw [count, same])
  rw [← is] at resizes
  rw [opaqueArray, same]
  exact responseExactly (fun len => ⟨resizes.sized,resizes.written,resizes.refused⟩) memory fits dest

theorem errorExactly (ready : Ready host) (ipcref code : BitVec 32) (dest : Address) :
    ∃ packet, ipcError host.env host.fuel host.heap ipcref code dest = .ok (some (.rawSockaddr packet dest)) ∧
      packet.Exactly (beBytes cmdsResponse ++ (beBytes ipcref ++ (beBytes code ++ ((beBytes typesVoid ++ []) ++ [])))) := by
  obtain ⟨tight,all⟩ := voidResizes ready ipcref code
  cases given : block host.heap 0 errorLen with
  | none => exact absurd (blockNone.mp given) (ready.heap 0 errorLen)
  | some bytes =>
    have room : 16 < errorLen := by decide
    obtain ⟨packet,exact_,taken⟩ := (encodeAttempt all (blockLength given)).1 ⟨room.le,fun _ => room⟩
    rw [typesVoid] at taken
    refine ⟨packet,?_,exact_⟩
    simp only [ipcError,given,taken,bind,Except.bind]
    rfl

end Response

def structsPrinted (style : PrintStyle) (pairs : List (BitVec 32 × List Byte)) : List Printed :=
  (if style = .csvData then [.structs .csvHeader (some 0) pairs] else []) ++ [.structs style (some 0) pairs]

theorem standsWhole (bytes : List Byte) : Stands (memory bytes) 0 bytes := by
  have whole := MultiStruct.standsStart [] bytes
  have same : splice [] 0 bytes = bytes := by simp [splice]
  rwa [same] at whole

section Printing
variable {env : Env} (allocates : ∀ p, env.alloc p = true) (ipcref : BitVec 32) (style : PrintStyle)
include allocates

theorem errorPrinted {code : BitVec 32} (failed : code ≠ resultcodeSuccess) (depth : Nat) (rest : List Byte) :
    cmdPrintResponse env depth style (beBytes cmdsResponse ++ (beBytes ipcref ++ (beBytes code ++ rest))) = .ok [.error code] := by
  have header := Delivery.headerDecodes allocates ipcref code rest rfl
  simp only [cmdPrintResponse,header,bind,Except.bind,lt_irrefl,if_false,ne_eq,not_true,failed,not_false_eq_true,if_true]

theorem iterates {type : BitVec 32} {body : List Byte} {depth : Nat} {pairs : List (BitVec 32 × List Byte)}
    (walk : (cmdIterateStructs (memory (beBytes type ++ body)) depth 0 (beBytes type ++ body).length).result = some 0 ∧
      (cmdIterateStructs (memory (beBytes type ++ body)) depth 0 (beBytes type ++ body).length).events.filterMap
        (given (memory (beBytes type ++ body))) = pairs) :
    cmdPrintResponse env depth style (responseBytes ipcref type body) = .ok (structsPrinted style pairs) := by
  have front : responseBytes ipcref type body =
      beBytes cmdsResponse ++ (beBytes ipcref ++ (beBytes resultcodeSuccess ++ (beBytes type ++ body))) := by
    simp [responseBytes]
  have header := Delivery.headerDecodes allocates ipcref resultcodeSuccess (beBytes type ++ body) front
  have behind : (responseBytes ipcref type body).drop 12 = beBytes type ++ body := by
    rw [front]
    rfl
  have length : (responseBytes ipcref type body).length - 12 = (beBytes type ++ body).length := by
    rw [← behind, List.length_drop]
  simp only [cmdPrintResponse,header,bind,Except.bind,lt_irrefl,if_false,ne_eq,not_true,behind,length,walk.1,walk.2]
  rfl

theorem onePrinted {type : BitVec 32} (single : type ≠ opaqueStructArr) (body : List Byte) (depth : Nat) :
    cmdPrintResponse env (depth + 1) style (responseBytes ipcref type body) = .ok (structsPrinted style [(type,body)]) := by
  refine iterates allocates ipcref style ?_
  have stands := standsWhole (beBytes type ++ body)
  have long : ¬(beBytes type ++ body).length < 4 := by
    rw [List.length_append, beBytesLength]
    omega
  have head : (beBytes type ++ body).take 4 = beBytes type := rfl
  have data := MultiStruct.chunkData head stands
  rw [MultiStruct.chunkRead single (fun _ => head) stands, if_neg long]
  refine ⟨rfl,?_⟩
  simp only [List.filterMap_cons,List.filterMap_nil,given,data]
  rfl

theorem structsArePrinted {pairs : List Reported} (single : ∀ pair ∈ pairs, pair.type ≠ opaqueStructArr)
    (words : ∀ pair ∈ pairs, pair.body.length % 4 = 0) (few : pairs.length < 2 ^ 31) (small : (structsBody pairs).length < 2 ^ 31)
    (depth : Nat) : cmdPrintResponse env (depth + 2) style (responseBytes ipcref opaqueStructArr (structsBody pairs)) =
      .ok (structsPrinted style (pairs.map fun pair => (pair.type,pair.body))) := by
  refine iterates allocates ipcref style ?_
  have count : (BitVec.ofNat 32 pairs.length).toNat = (pairs.map Reported.bytes).length := by
    rw [BitVec.toNat_ofNat, List.length_map]
    omega
  have headed : List.Forall₂ (fun type chunk => type ≠ opaqueStructArr ∧ (4 ≤ chunk.length → chunk.take 4 = beBytes type))
      (pairs.map Reported.type) (pairs.map Reported.bytes) := by
    rw [List.forall₂_map_left_iff, List.forall₂_map_right_iff]
    exact List.forall₂_same.mpr fun pair member => ⟨single pair member,fun _ => rfl⟩
  have inside : ∀ chunk ∈ pairs.map Reported.bytes, chunk.length < 2 ^ 31 :=
    List.forall_mem_map.mpr fun pair member => lt_of_le_of_lt (inBody member) small
  have whole : ∀ one ∈ pairs.map fun pair => (pair.type,pair.body), one.2.length % 4 = 0 := List.forall_mem_map.mpr words
  have size : (arrayBytes (BitVec.ofNat 32 pairs.length) (pairs.map Reported.bytes)).length < 2 ^ 64 := by
    have is : (arrayBytes (BitVec.ofNat 32 pairs.length) (pairs.map Reported.bytes)).length = 4 + (structsBody pairs).length := by
      rw [arrayBytes, List.length_append, beBytesLength]
      rfl
    omega
  refine (MultiStruct.arrayRead depth headed inside count.ge (standsWhole _) size whole).mpr ⟨count,?_⟩
  rw [List.map_map]
  rfl

end Printing

def dataReqFields : FieldList := .cons (.scalar .int32) 0 0 (.cons (.array .uint32) 0 0 .nil)

structure Knows (env : Env) (d : StructDefinition) : Prop where
  registered : env.definitionForType typesDatareq = some d
  size : d.inMemorySize ≠ 0
  coder : d.coder = .struct
  fields : d.fields = dataReqFields

def typesVal (types : List (BitVec 32)) : Val := .struct [.word (BitVec.ofNat 32 types.length),.array (types.map .word)]

def typesBody (types : List (BitVec 32)) : List Byte :=
  beBytes (BitVec.ofNat 32 types.length) ++ ((types.map beBytes).flatten ++ [])

section Asking
variable {types : List (BitVec 32)}

theorem typesBodyLength (types : List (BitVec 32)) : (typesBody types).length = 4 + 4 * types.length := by
  have flat : (types.map beBytes).flatten.length = 4 * types.length := by
    induction types with
    | nil => rfl
    | cons type rest ih =>
      rw [List.map_cons, List.flatten_cons, List.length_append, beBytesLength, List.length_cons, ih]
      omega
  rw [typesBody, List.append_nil, List.length_append, beBytesLength, flat]

theorem countWord (small : types.length < 2 ^ 31) : (BitVec.ofNat 32 types.length).toInt.toNat = types.length := by
  rw [lengthWord small]
  exact Int.toNat_natCast _

theorem typesWire {env : Env} {rules : Rules} {d : StructDefinition} (knows : Knows env d) (small : types.length < 2 ^ 31)
    (first : rules.field (.scalar .int32) 0 0 [.word (BitVec.ofNat 32 types.length),.array (types.map .word)])
    (second : rules.field (.array .uint32) 1 0 [.word (BitVec.ofNat 32 types.length),.array (types.map .word)]) :
    objectWire env rules 1 d (typesVal types) (typesBody types) := by
  have numbers : List.Forall₂ (ScalarWire .uint32) (types.map .word) (types.map beBytes) := by
    rw [List.forall₂_map_left_iff, List.forall₂_map_right_iff]
    exact List.forall₂_same.mpr fun type _ => .uint32 type
  have array : ArrayWire (ScalarWire .uint32) (BitVec.ofNat 32 types.length).toInt (.array (types.map .word)) (types.map beBytes).flatten :=
    .array _ _ (by rw [countWord small, List.length_map]) numbers
  simp only [objectWire,knows.coder,knows.fields]
  exact .inl ⟨_,rfl,_,_,_,_,rfl,rfl,first,.int32 _,_,_,_,_,rfl,rfl,second,array,rfl,rfl⟩

theorem typesParameters {env : Env} {d : StructDefinition} (knows : Knows env d) (small : types.length < 2 ^ 31) :
    Parameters env 1 typesDatareq (typesVal types) (typesBody types) d where
  registered := knows.registered
  wire := typesWire knows small rfl rfl

theorem typesUnderstood {env : Env} {d : StructDefinition} (knows : Knows env d) (small : types.length < 2 ^ 31)
    (allocates : ∀ p, env.alloc p = true) {fuel : Nat} (deep : 1 ≤ fuel) :
    Delivery.Understood env 1 fuel typesDatareq (typesVal types) (typesBody types) d where
  allocates := allocates
  deep := deep
  registered := knows.registered
  admitted := ⟨knows.size,knows.coder⟩
  wire := by
    refine typesWire knows small ⟨rfl,fun has => by cases has⟩ ⟨rfl,fun _ => ⟨Nat.zero_lt_one,_,rfl,?_⟩⟩
    rw [lengthWord small]
    exact Int.natCast_nonneg _

theorem typesLoose {env : Env} {d : StructDefinition} (knows : Knows env d) : ¬objectEndsOpaque env 1 d (typesVal types) := by
  simp [objectEndsOpaque,knows.coder,knows.fields,dataReqFields,typesVal,endOpaque,endsOpaque]

theorem typesOnly {v : Val} (same : Equal (typesVal types) v) : v = typesVal types := by
  cases same with
  | refl => rfl
  | struct same => cases same with
    | cons first same => cases same with
      | cons second same =>
        cases same
        cases second
        rw [first.word]
        rfl

theorem filledVal {req : Filling} (holds : Holds req types) (some_ : types ≠ []) : req.reqs.isSome = true ∧ req.val = typesVal types := by
  rcases holds.cells with ⟨-,empty⟩ | ⟨cells,is,-,-,front⟩
  · exact absurd empty some_
  · rw [Filling.val, is, holds.length, Option.elim_some, front]
    exact ⟨rfl,rfl⟩

theorem numbersOf (types : List (BitVec 32)) : (types.map Val.word).mapM number = some types := by
  induction types with
  | nil => rfl
  | cons type rest ih =>
    rw [List.map_cons, List.mapM_cons, ih]
    rfl

theorem commandAsks (command ipcref : BitVec 32) (small : types.length < 2 ^ 31) : ∃ cmd,
    commandOf (.struct [.word command,.word ipcref,.union typesDatareq (typesVal types)]) = some cmd ∧ cmd.ipcref = ipcref ∧
      cmd.type = typesDatareq ∧
      (cmd.data.bind fun req => req.reqs.map fun types => (req.length.toInt,types)) = some ((types.length : Int),types) := by
  have counted := (countWord small).symm
  refine ⟨_,rfl,rfl,rfl,?_⟩
  simp only [dataReqOf,typesVal,numbersOf,Option.bind_eq_bind,Option.bind_some]
  rw [dif_pos counted, Option.bind_some, Option.map_some, lengthWord small]

end Asking

section Handling
variable {host : Host} {cmd : Command} {dest : Address} {types : List (BitVec 32)} (typed : cmd.type = typesDatareq)
  (asked : (cmd.data.bind fun req => req.reqs.map fun types => (req.length.toInt,types)) = some ((types.length : Int),types))
  (some_ : types ≠ []) (most : types.length ≤ 1024) (structs : host.structsMalloc = true)
include typed asked some_ most structs

theorem handlerLoops : cmdHandleDataReq host cmd dest = (do
    let s ← populateLoop host cmd dest types.length 0 types ⟨false,[],[]⟩
    if s.direct then .ok s.sent
    else do
      let sent ← ipcResponse host.env host.fuel host.heap cmd.ipcref typesOpaqueStructArr (opaqueArray s.structs) dest
      .ok (s.sent ++ sent.toList)) := by
  have positive : 0 < types.length := List.length_pos_iff.mpr some_
  rw [cmdHandleDataReq, if_neg (not_not.mpr typed), asked]
  dsimp only
  rw [if_neg (by omega), structs, if_neg (by decide)]

theorem handlerCollects (slow : types.length ≠ 1 ∨ ∃ type, types = [type] ∧ host.populator type = none) {items : List OpaqueStruct}
    (collected : answerItems host 0 types = .ok items) {packet : Handed}
    (sent : ipcResponse host.env host.fuel host.heap cmd.ipcref typesOpaqueStructArr (opaqueArray items) dest =
      .ok (some packet)) : cmdHandleDataReq host cmd dest = .ok [packet] := by
  have loop : populateLoop host cmd dest types.length 0 types ⟨false,[],[]⟩ = .ok ⟨false,items,[]⟩ := by
    rcases slow with several | ⟨type,rfl,unknown⟩
    · rw [loopCollects (.inr (by omega)) types [], collected]
      rfl
    · simp only [answerItems,unknown] at collected
      cases collected
      simp only [populateLoop,unknown]
  rw [handlerLoops typed asked some_ most structs, loop]
  simp only [bind,Except.bind,sent]
  rfl

theorem handlerDirect {type : BitVec 32} (is : types = [type]) {populate : Populator} (known : host.populator type = some populate)
    (there : (populate 0).1 ≠ .null) {packet : Handed}
    (sent : directAnswer host cmd dest type (populate 0).1 (populate 0).2 = .ok (some packet)) :
    cmdHandleDataReq host cmd dest = .ok [packet] := by
  have callback : dataReqPopulateCb host cmd dest true type 0 (populate 0) = (do
      let sent ← directAnswer host cmd dest type (populate 0).1 (populate 0).2
      .ok (sent,none)) := directCallback type there (populate 0).2
  have path : (false || ((0 : Nat) == 0 && (([type] : List (BitVec 32)).length : Int) == 1)) = true := rfl
  rw [handlerLoops typed asked some_ most structs, is]
  simp only [populateLoop,known,path,callback,sent,bind,Except.bind]
  rfl

end Handling

structure Supplies (host : Host) (bodies : Nat → List Byte) (types : List (BitVec 32)) : Prop where
  ready : Ready host
  array : host.env.definitionForType opaqueStructArr = some opaqueStructArrDefinition
  reportable : ∀ pair ∈ reports host bodies 0 types, Reportable host pair
  fits : 16 + (structsBody (reports host bodies 0 types)).length < buffLen
  sole : ∀ type populate, types = [type] → host.populator type = some populate → (populate 0).1 ≠ .null

def soleError (host : Host) : List (BitVec 32) → Option (BitVec 32)
  | [type] => (host.populator type).bind fun populate =>
      if (populate 0).2 ≠ resultcodeSuccess then some (populate 0).2 else none
  | _ => none

def printing (host : Host) (bodies : Nat → List Byte) (style : PrintStyle) (types : List (BitVec 32)) : List Printed :=
  match soleError host types with
  | some code => [.error code]
  | none => structsPrinted style ((reports host bodies 0 types).map fun pair => (pair.type,pair.body))

def Prints (env : Env) (ipcref : BitVec 32) (bytes : List Byte) (lines : PrintStyle → List Printed) : Prop :=
  (∃ result rest, bytes = beBytes cmdsResponse ++ (beBytes ipcref ++ (beBytes result ++ rest))) ∧
    ∀ depth style, cmdPrintResponse env (depth + 2) style bytes = .ok (lines style)

section Answering
variable {host : Host} {bodies : Nat → List Byte} {types : List (BitVec 32)} {cmd : Command} {env : Env}
  (supplies : Supplies host bodies types) (typed : cmd.type = typesDatareq)
  (asked : (cmd.data.bind fun req => req.reqs.map fun types => (req.length.toInt,types)) = some ((types.length : Int),types))
  (some_ : types ≠ []) (most : types.length ≤ 1024) (allocates : ∀ p, env.alloc p = true)
include supplies typed asked some_ most allocates

theorem severalAnswered (slow : types.length ≠ 1 ∨ ∃ type, types = [type] ∧ host.populator type = none) (dest : Address) :
    ∃ reply buff, cmdHandleDataReq host cmd dest = .ok [.rawSockaddr reply dest] ∧ reply.buff = some buff ∧
      Prints env cmd.ipcref (buff.take reply.len) fun style => printing host bodies style types := by
  have words : ∀ pair ∈ reports host bodies 0 types, pair.body.length % 4 = 0 := fun pair member => (supplies.reportable pair member).words
  have few : (reports host bodies 0 types).length < 2 ^ 31 :=
    lt_of_le_of_lt (reportsLength types 0) (lt_of_le_of_lt most (by decide))
  have small : (structsBody (reports host bodies 0 types)).length < 2 ^ 31 := by
    have fits := supplies.fits
    rw [buffLen] at fits
    omega
  have known : ∀ pair ∈ reports host bodies 0 types, Reportable host pair ∧ pair.bytes.length < 2 ^ 31 :=
    fun pair member => ⟨supplies.reportable pair member,lt_of_le_of_lt (inBody member) small⟩
  obtain ⟨structs,collected,chunks⟩ := answersAre types known
  obtain ⟨reply,sent,-,buff,there,is⟩ := structsSent supplies.array supplies.ready.deep (supplies.ready.heap 0 buffLen) chunks few
    supplies.fits cmd.ipcref dest
  refine ⟨reply,buff,handlerCollects typed asked some_ most supplies.ready.structs slow collected sent,there,?_⟩
  have none_ : soleError host types = none := by
    rcases slow with several | ⟨type,rfl,unknown⟩
    · unfold soleError
      split
      · exact absurd rfl several
      · rfl
    · rw [soleError, unknown]
      rfl
  rw [is]
  refine ⟨⟨resultcodeSuccess,beBytes opaqueStructArr ++ structsBody (reports host bodies 0 types),by simp [responseBytes]⟩,
    fun depth style => ?_⟩
  dsimp only
  rw [printing, none_]
  exact structsArePrinted allocates cmd.ipcref style (fun pair member => (supplies.reportable pair member).single) words few small depth

theorem oneAnswered {type : BitVec 32} (is : types = [type]) {populate : Populator} (known : host.populator type = some populate)
    (dest : Address) : ∃ reply buff, cmdHandleDataReq host cmd dest = .ok [.rawSockaddr reply dest] ∧ reply.buff = some buff ∧
      Prints env cmd.ipcref (buff.take reply.len) fun style => printing host bodies style types := by
  have there := supplies.sole type populate is known
  have handled : ∀ {packet : Handed}, directAnswer host cmd dest type (populate 0).1 (populate 0).2 = .ok (some packet) →
      cmdHandleDataReq host cmd dest = .ok [packet] :=
    fun sent => handlerDirect typed asked some_ most supplies.ready.structs is known there sent
  by_cases failed : (populate 0).2 ≠ resultcodeSuccess
  · have sole : soleError host types = some (populate 0).2 := by
      rw [is, soleError, known, Option.bind_some, if_pos failed]
    obtain ⟨reply,sent,-,buff,there',bytes⟩ := errorExactly supplies.ready cmd.ipcref (populate 0).2 dest
    refine ⟨reply,buff,handled (by rw [directAnswer, if_pos failed, sent]),there',?_⟩
    rw [bytes]
    refine ⟨⟨_,_,rfl⟩,fun depth style => ?_⟩
    dsimp only
    rw [printing, sole]
    exact errorPrinted allocates cmd.ipcref style failed _ _
  · have sole : soleError host types = none := by
      rw [is, soleError, known, Option.bind_some, if_neg failed]
    have only : reports host bodies 0 types = [⟨type,(populate 0).1,host.itemHeap 0,bodies 0⟩] := by
      rw [is, reports, known, Option.elim_some, reportIs there, if_neg failed]
      rfl
    have member : ⟨type,(populate 0).1,host.itemHeap 0,bodies 0⟩ ∈ reports host bodies 0 types := only ▸ List.mem_singleton_self _
    have reportable := supplies.reportable _ member
    obtain ⟨depth,d,deep,message,-⟩ := reportable.known
    have fits : 16 + (bodies 0).length < buffLen := by
      have inside := inBody member
      have fits := supplies.fits
      rw [Reported.bytes, List.length_append] at inside
      dsimp only at inside
      omega
    obtain ⟨reply,sent,-,buff,there',bytes⟩ := responseExactly (fun len => message.resizes deep len) (supplies.ready.heap 0 buffLen) fits dest
    refine ⟨reply,buff,handled (by rw [directAnswer, if_neg failed, sent]),there',?_⟩
    rw [bytes]
    refine ⟨⟨resultcodeSuccess,beBytes type ++ bodies 0,by simp [responseBytes]⟩,fun depth style => ?_⟩
    dsimp only
    rw [printing, sole, only]
    exact onePrinted allocates cmd.ipcref style reportable.single (bodies 0) (depth + 1)

theorem requestAnswered (dest : Address) : ∃ reply buff, cmdHandleDataReq host cmd dest = .ok [.rawSockaddr reply dest] ∧
    reply.buff = some buff ∧ Prints env cmd.ipcref (buff.take reply.len) fun style => printing host bodies style types := by
  by_cases slow : types.length ≠ 1
  · exact severalAnswered supplies typed asked some_ most allocates (.inl slow) dest
  · obtain ⟨type,is⟩ := List.length_eq_one_iff.mp (not_not.mp slow)
    cases known : host.populator type with
    | none => exact severalAnswered supplies typed asked some_ most allocates (.inr ⟨type,is,known⟩) dest
    | some populate => exact oneAnswered supplies typed asked some_ most allocates is known dest

end Answering

/- What becomes of a call of IPC_data: one command is sent, which the receiver hands to its handler, and
the handler sends one response to whomever it came from. The response finds the request it answers, and
prints as `lines`. -/
def Answered (sender : Env) (fuel : Nat) (heap : Heap) (memory : Memory) (next : BitVec 32) (items : List (BitVec 32)) (addr : Address)
    (p : Receives.Process) (handler : Nat) (host : Host) (env : Env) (lines : PrintStyle → List Printed) : Prop :=
  ∃ packet buff command cmd,
    ipcData sender fuel heap memory next items addr = .ok (some (.rawSockaddr packet addr),next + 1) ∧ packet.buff = some buff ∧
    Delivery.Handles p (buff.take packet.len) handler command ∧
    commandOf command = some cmd ∧
    ∀ src, ∃ reply replyBuff, cmdHandleDataReq host cmd src = .ok [.rawSockaddr reply src] ∧ reply.buff = some replyBuff ∧
      (∀ (q : Requests.Process) s peer, q.resp.find? (fun s => (q.states s).id = next ∧ (q.states s).host = peer) = some s →
        (q.states s).cbType = .raw → Requests.cmdHandleXdrResponse q env (replyBuff.take reply.len) peer =
          Requests.callBack {q with resp := q.resp.erase s} s false (.response s none)) ∧
      ∀ depth style, cmdPrintResponse env (depth + 2) style (replyBuff.take reply.len) = .ok (lines style)

/- A call of IPC_data prints what the populators of the other process supply for the types up to the end
of the list, in the order of the types: their structs, an error where one calls back with an error, and
nothing for a type without a populator. -/
theorem dataPrinted {sender : Env} {fuel : Nat} (deep : 0 < fuel) {heap : Heap} (enough : ∀ call size, heap call size ≠ none)
    {memory : Memory} (granted : ∀ size, memory size ≠ none) {d : StructDefinition} (knows : Knows sender d)
    {p : Receives.Process} (receives : ∀ path, p.env.alloc path = true) (deep' : 0 < p.fuel) (knows' : Knows p.env d)
    {handler : Nat} (registered : p.xdrCommand cmdsDataReq = some (some handler))
    {host : Host} {bodies : Nat → List Byte} {types : List (BitVec 32)} (some_ : types ≠ [])
    (most : types.length ≤ 1024) (positive : ∀ type ∈ types, 0 < type.toInt) (supplies : Supplies host bodies types)
    {stop : BitVec 32} (stops : stop.toInt ≤ 0) (rest : List (BitVec 32)) {env : Env} (allocates : ∀ path, env.alloc path = true)
    (next : BitVec 32) (addr : Address) : Answered sender fuel heap memory next (types ++ stop :: rest) addr p handler host env
      fun style => printing host bodies style types := by
  have small : types.length < 2 ^ 31 := lt_of_le_of_lt most (by decide)
  have begins : Holds ⟨8,0,none⟩ [] := ⟨by decide,rfl,.inl ⟨rfl,rfl⟩⟩
  obtain ⟨req,filled,holds⟩ := fillHolds granted stops rest types positive begins
  obtain ⟨there,val⟩ := filledVal holds some_
  have size := typesBodyLength types
  have message := typesParameters knows small
  have inPacket : 12 + (typesBody types).length ≤ Receives.maxIpPacketSize := by
    rw [size, Receives.maxIpPacketSize]
    omega
  obtain ⟨packet,buff,sent,buffer,bytes⟩ := Delivery.commandSent message deep
    ⟨enough 0 buffLen,.inr ⟨typesLoose knows,.inr (enough 1 _)⟩⟩ cmdsDataReq next addr
  obtain ⟨params',same,handled⟩ := Delivery.commandHandled (typesUnderstood knows' small receives deep') (by decide) (by decide)
    registered inPacket next
  rw [← bytes] at handled
  cases typesOnly same
  obtain ⟨cmd,is,ipcref,typed,asked⟩ := commandAsks cmdsDataReq next small
  refine ⟨packet,buff,_,cmd,?_,buffer,handled,is,fun src => ?_⟩
  · simp only [ipcData,filled,bind,Except.bind,there,if_true,val]
    exact sent
  · obtain ⟨reply,replyBuff,answered,there',front,prints⟩ := requestAnswered supplies typed asked some_ most allocates src
    obtain ⟨result,rest,bytes⟩ := front
    refine ⟨reply,replyBuff,answered,there',fun q s peer waits raw => ?_,prints⟩
    have ref := Delivery.headerReads allocates bytes
    rw [ipcref] at ref
    have found : Requests.answered q env (replyBuff.take reply.len) peer = some s := by
      rw [Requests.answered, ref]
      exact waits
    simp only [Requests.cmdHandleXdrResponse,found,Requests.cmdResolveCallback,raw]

def dataEnv : Env where
  definitionForType type :=
    if type = 7 then some Delivery.numberDefinition
    else if type = typesDatareq then some ⟨16,.struct,dataReqFields⟩
    else if type = typesPopulatorError then some ⟨8,.struct,.cons (.scalar .uint32) 0 0 (.cons (.scalar .int32) 0 0 .nil)⟩
    else if type = opaqueStructArr then some opaqueStructArrDefinition
    else if type = typesVoid then some ⟨0,.struct,.nil⟩ else none
  alloc _ := true
  address _ := 0
  firstPointerNull _ := true

def dataHost : Host :=
  ⟨dataEnv,2,fun type => if type = 7 then some fun _ => (Delivery.numberParams,resultcodeSuccess)
    else if type = 5 then some fun _ => (Delivery.numberParams,3) else none,true,fun _ => plenty,plenty⟩

def dataBodies (i : Nat) : List Byte := if i = 0 then beBytes 9 ++ [] else beBytes 5 ++ (beBytes 3 ++ [])

def dataProcess : Receives.Process := ⟨dataEnv,1,LegacyCommands.dirty,fun cmd => if cmd = cmdsDataReq then some (some 4) else none⟩

theorem dataSupplied : Supplies dataHost dataBodies [7,6,5] where
  ready := ⟨by decide,⟨_,rfl,rfl,rfl⟩,rfl,fun call size => Option.some_ne_none _⟩
  array := rfl
  reportable := by
    have is : reports dataHost dataBodies 0 [7,6,5] = [⟨7,Delivery.numberParams,plenty,beBytes 9 ++ []⟩,
        ⟨typesPopulatorError,.struct [.word 5,.word 3],plenty,beBytes 5 ++ (beBytes 3 ++ [])⟩] := rfl
    rw [is, List.forall_mem_cons, List.forall_mem_singleton]
    constructor
    · refine ⟨by decide,1,_,by decide,⟨rfl,.inl ⟨_,rfl,_,_,_,_,rfl,rfl,rfl,.uint32 9,rfl,rfl⟩⟩,Option.some_ne_none _,.inl (by decide)⟩
    · refine ⟨by decide,1,_,by decide,⟨rfl,.inl ⟨_,rfl,_,_,_,_,rfl,rfl,rfl,.uint32 5,_,_,_,_,rfl,rfl,rfl,.int32 3,rfl,rfl⟩⟩,
        Option.some_ne_none _,.inl (by decide)⟩
  fits := by decide
  sole := fun type populate is => by cases is

theorem numberPrinted : Answered dataEnv 1 plenty (fun _ => some fun _ => 0) 1 [7,6,5,0] ⟨99,1⟩ dataProcess 4 dataHost dataEnv
    fun style => structsPrinted style [(7,beBytes 9 ++ []),(typesPopulatorError,beBytes 5 ++ (beBytes 3 ++ []))] :=
  have positive : ∀ type ∈ [(7 : BitVec 32),6,5], 0 < type.toInt :=
    List.forall_mem_cons.mpr ⟨by decide,List.forall_mem_cons.mpr ⟨by decide,List.forall_mem_singleton.mpr (by decide)⟩⟩
  dataPrinted (by decide) (fun call size => Option.some_ne_none _) (fun size => Option.some_ne_none _) ⟨rfl,by decide,rfl,rfl⟩
    (fun path => rfl) (by decide) ⟨rfl,by decide,rfl,rfl⟩ rfl (by decide) (by decide) positive dataSupplied
    (show (0 : BitVec 32).toInt ≤ 0 by decide) [] (fun path => rfl) 1 ⟨99,1⟩

end LibProc.DataQuery
