import LibProc.MultiStruct

/-! cmd.c: the handler of IPC_CMDS_DATA_REQ. It asks the populator of each requested type
for its data, and answers with all that came back, as opaque structs; a request for one
type is answered from inside the populator's callback. -/
namespace LibProc.DataRequest
open XdrBytes Xdr Ipc
open MultiStruct (OpaqueStruct opaqueArray cmdStructToOpaqueStruct)

def typesVoid : BitVec 32 := 0
def typesOpaqueStructArr : BitVec 32 := 0x01000102
def typesDatareq : BitVec 32 := 0x01000105
def typesPopulatorError : BitVec 32 := 0x01000108
def resultcodeIncorrectParameterType : BitVec 32 := 0x02000101

structure DataReq where
  length : BitVec 32
  reqs : Option (List (BitVec 32))
  counted : ∀ types, reqs = some types → types.length = length.toInt.toNat

/- What the handler reads of struct IPC_Command; `data` is looked at for one type only. -/
structure Command where
  ipcref : BitVec 32
  type : BitVec 32
  data : Option DataReq

abbrev Populator := Nat → Val × BitVec 32

structure Host where
  env : Env
  fuel : Nat
  populator : BitVec 32 → Option Populator
  structsMalloc : Bool
  itemHeap : Nat → Heap
  heap : Heap

/- What is left at `*params->dest`, as far as it has data. -/
def opaqueItem (host : Host) (type : BitVec 32) (i : Nat) (data : Val) (error : BitVec 32) : Except Stop (Option OpaqueStruct) := do
  let kept ← if error ≠ resultcodeSuccess then
      cmdStructToOpaqueStruct host.env host.fuel (host.itemHeap i) (.struct [.word type,.word error]) typesPopulatorError
    else cmdStructToOpaqueStruct host.env host.fuel (host.itemHeap i) data type
  .ok (if kept.data = none then none else some kept)

def dataReqPopulateCb (host : Host) (cmd : Command) (dest : Address) (direct : Bool) (type : BitVec 32) (i : Nat) :
    Val × BitVec 32 → Except Stop (Option Handed × Option OpaqueStruct)
  | (.null,_) => .ok (none,none)
  | (data,error) =>
    if direct then
      if error ≠ resultcodeSuccess then do
        let sent ← ipcError host.env host.fuel host.heap cmd.ipcref error dest
        .ok (sent,none)
      else do
        let sent ← ipcResponse host.env host.fuel host.heap cmd.ipcref type data dest
        .ok (sent,none)
    else do
      let item ← opaqueItem host type i data error
      .ok (none,item)

structure LoopState where
  direct : Bool
  structs : List OpaqueStruct
  sent : List Handed

def populateLoop (host : Host) (cmd : Command) (dest : Address) (length : Int) :
    Nat → List (BitVec 32) → LoopState → Except Stop LoopState
  | _,[],s => .ok s
  | i,type :: rest,s => match host.populator type with
    | none => populateLoop host cmd dest length (i + 1) rest s
    | some populate => do
      let direct := s.direct || (i == 0 && length == 1)
      let r ← dataReqPopulateCb host cmd dest direct type i (populate i)
      populateLoop host cmd dest length (i + 1) rest ⟨direct,s.structs ++ r.2.toList,s.sent ++ r.1.toList⟩

/- The packets the handler sends. Without memory for `resp.structs` it sends an error and
goes on with a NULL pointer. -/
def cmdHandleDataReq (host : Host) (cmd : Command) (dest : Address) : Except Stop (List Handed) :=
  if cmd.type ≠ typesDatareq then do
    let sent ← ipcError host.env host.fuel host.heap cmd.ipcref resultcodeIncorrectParameterType dest
    .ok sent.toList
  else match cmd.data.bind fun req => req.reqs.map fun types => (req.length.toInt,types) with
    | none => do
      let sent ← ipcResponse host.env host.fuel host.heap cmd.ipcref typesVoid .null dest
      .ok sent.toList
    | some (length,types) =>
      if length ≤ 0 ∨ 1024 < length then do
        let sent ← ipcResponse host.env host.fuel host.heap cmd.ipcref typesVoid .null dest
        .ok sent.toList
      else if host.structsMalloc = false then .error .nullWrite
      else do
        let s ← populateLoop host cmd dest length 0 types ⟨false,[],[]⟩
        if s.direct then .ok s.sent
        else do
          let sent ← ipcResponse host.env host.fuel host.heap cmd.ipcref typesOpaqueStructArr
            (opaqueArray s.structs) dest
          .ok (s.sent ++ sent.toList)

def responseCells (ipcref : BitVec 32) (type : BitVec 32) (params : Val) : List Val :=
  [.word cmdsResponse,.word ipcref,.word resultcodeSuccess,.union type params]

/- IPC_Response_encode takes the response in 1024 bytes, or asks for more there and takes it
in a buffer of what it asked for. -/
def Encodable (host : Host) (ipcref type : BitVec 32) (params : Val) : Prop :=
  ∃ res packet, encodeInto host.env host.fuel responseFields (responseCells ipcref type params)
      (block host.heap 0 buffLen) buffLen = .ok (res,packet) ∧
    (0 ≤ res ∨ buffLen < packet.len ∧ ∃ bytes, block host.heap 1 packet.len = some bytes ∧
      ∃ res' packet', encodeInto host.env host.fuel responseFields (responseCells ipcref type params) (some bytes)
        packet.len = .ok (res',packet') ∧ 0 ≤ res')

structure Ready (host : Host) : Prop where
  deep : 0 < host.fuel
  void : ∃ d, host.env.definitionForType typesVoid = some d ∧ d.coder = .struct ∧ d.fields = .nil
  structs : host.structsMalloc = true
  heap : ∀ call size, host.heap call size ≠ none

def Once (sent : Except Stop (List Handed)) : Prop := ∃ packets, sent = .ok packets ∧ packets.length = 1

section Sending
variable {host : Host}

theorem onceSent {sent : Except Stop (Option Handed)} :
    Once (do let sent ← sent; .ok sent.toList) ↔ ∃ packet, sent = .ok (some packet) := by
  cases sent with
  | error s => simp [Once,bind,Except.bind]
  | ok sent =>
    cases sent with
    | none => simp [Once,bind,Except.bind]
    | some packet => simp [Once,bind,Except.bind]

theorem againSent (cells : List Val) (len : Nat) :
    (∃ packet, encodeAgain host.env host.fuel host.heap responseFields cells len = .ok (some packet)) ↔
      ∃ bytes, block host.heap 1 len = some bytes ∧ ∃ res packet,
        encodeInto host.env host.fuel responseFields cells (some bytes) len = .ok (res,packet) ∧ 0 ≤ res := by
  simp only [encodeAgain]
  cases block host.heap 1 len with
  | none => simp
  | some bytes =>
    simp only [Option.some.injEq,exists_eq_left']
    cases encodeInto host.env host.fuel responseFields cells (some bytes) len with
    | error s => simp [bind,Except.bind]
    | ok r =>
      obtain ⟨res,packet⟩ := r
      by_cases failed : res < 0
      · simp [bind,Except.bind,failed]
      · simpa [bind,Except.bind,failed] using not_lt.mp failed

theorem responseSent (ipcref type : BitVec 32) (params : Val) (dest : Address) :
    (∃ packet, ipcResponse host.env host.fuel host.heap ipcref type params dest = .ok (some packet)) ↔
      Encodable host ipcref type params := by
  have handed : ∀ sent : Except Stop (Option Packet),
      (∃ packet, (do let sent ← sent; .ok (sent.map (handOver true dest))) = Except.ok (some packet)) ↔
        ∃ packet, sent = .ok (some packet) := by
    intro sent
    cases sent with
    | error s => simp [bind,Except.bind]
    | ok sent => cases sent <;> simp [bind,Except.bind]
  rw [ipcResponse, handed, growAndRetry, Encodable, ← responseCells]
  cases encodeInto host.env host.fuel responseFields (responseCells ipcref type params) (block host.heap 0 buffLen)
      buffLen with
  | error s => simp [bind,Except.bind]
  | ok r =>
    obtain ⟨res,packet⟩ := r
    simp only [bind,Except.bind,Except.ok.injEq,Prod.mk.injEq]
    by_cases failed : res < 0
    · have refused : ¬ 0 ≤ res := not_le.mpr failed
      rw [if_pos failed]
      by_cases more : buffLen < packet.len
      · rw [if_pos more, againSent]
        simp [refused,more]
      · rw [if_neg more]
        simp [refused,more]
    · rw [if_neg failed]
      exact iff_of_true ⟨packet,rfl⟩ ⟨res,packet,⟨rfl,rfl⟩,.inl (not_lt.mp failed)⟩

variable (ready : Ready host)
include ready

theorem voidResizes (ipcref code : BitVec 32) : ∃ tight, FieldsResize host.env (enterEncoder host.env host.fuel)
      [.word cmdsResponse,.word ipcref,.word code,.union typesVoid .null] responseFields
      [.word cmdsResponse,.word ipcref,.word code,.union typesVoid .null]
      (beBytes cmdsResponse ++ (beBytes ipcref ++ (beBytes code ++ ((beBytes typesVoid ++ []) ++ [])))) tight := by
  obtain ⟨d,registered,coder,fields⟩ := ready.void
  have message : Parameters host.env 1 typesVoid .null [] d := by
    refine ⟨registered,?_⟩
    simp only [objectWire,coder]
    exact .inr ⟨trivial,trivial,fields,trivial⟩
  exact ⟨_,wordResizes (.inl rfl) (wordResizes (.inr rfl) (wordResizes (.inl rfl)
    (lastResizes (message.resizes ready.deep _))))⟩

theorem voidFits (ipcref code : BitVec 32) {size : Nat} (large : 16 < size) :
    ∃ packet, encodeInto host.env host.fuel responseFields
      [.word cmdsResponse,.word ipcref,.word code,.union typesVoid .null] (block host.heap 0 size) size = .ok (0,packet) := by
  obtain ⟨tight,all⟩ := voidResizes ready ipcref code
  cases given : block host.heap 0 size with
  | none => exact absurd (blockNone.mp given) (ready.heap 0 size)
  | some bytes =>
    obtain ⟨packet,-,taken⟩ := (encodeAttempt all (blockLength given)).1 ⟨large.le,fun _ => large⟩
    exact ⟨packet,taken⟩

theorem errorSent (ipcref code : BitVec 32) (dest : Address) :
    ∃ packet, ipcError host.env host.fuel host.heap ipcref code dest = .ok (some packet) := by
  obtain ⟨packet,taken⟩ := voidFits ready ipcref code (show 16 < errorLen by decide)
  refine ⟨handOver true dest packet,?_⟩
  simp only [ipcError]
  rw [show (0 : BitVec 32) = typesVoid from rfl, taken]
  rfl

theorem voidSent (ipcref : BitVec 32) (dest : Address) :
    ∃ packet, ipcResponse host.env host.fuel host.heap ipcref typesVoid .null dest = .ok (some packet) := by
  obtain ⟨packet,taken⟩ := voidFits ready ipcref resultcodeSuccess (show 16 < buffLen by decide)
  exact (responseSent ipcref typesVoid .null dest).mpr ⟨0,packet,taken,.inl le_rfl⟩

end Sending

def populatedItem (host : Host) (type : BitVec 32) (i : Nat) : Val × BitVec 32 → Except Stop (Option OpaqueStruct)
  | (.null,_) => .ok none
  | (data,error) => opaqueItem host type i data error

def answerItems (host : Host) : Nat → List (BitVec 32) → Except Stop (List OpaqueStruct)
  | _,[] => .ok []
  | i,type :: rest => match host.populator type with
    | none => answerItems host (i + 1) rest
    | some populate => do
      let item ← populatedItem host type i (populate i)
      let items ← answerItems host (i + 1) rest
      .ok (item.toList ++ items)

/- The one populator of a request for one type calls back with data. Without an error that
data is the response and can be encoded; so can the response for any other list. -/
def Answerable (host : Host) (cmd : Command) : Prop :=
  ∀ req types, cmd.type = typesDatareq → cmd.data = some req → req.reqs = some types →
    0 < req.length.toInt → req.length.toInt ≤ 1024 →
    (∀ type populate, types = [type] → host.populator type = some populate →
      (populate 0).1 ≠ .null ∧
        ((populate 0).2 = resultcodeSuccess → Encodable host cmd.ipcref type (populate 0).1)) ∧
    ((∀ type, types = [type] → host.populator type = none) →
      ∃ items, answerItems host 0 types = .ok items ∧
        Encodable host cmd.ipcref typesOpaqueStructArr (opaqueArray items))

section Handler
variable {host : Host} {cmd : Command} {dest : Address}

theorem callbackItem (type : BitVec 32) (i : Nat) (answer : Val × BitVec 32) :
    dataReqPopulateCb host cmd dest false type i answer = (do
      let item ← populatedItem host type i answer
      .ok (none,item)) := by
  obtain ⟨data,error⟩ := answer
  cases data <;> rfl

theorem loopCollects {length : Int} {i : Nat} (slow : i ≠ 0 ∨ length ≠ 1) (types : List (BitVec 32)) (structs : List OpaqueStruct) :
    populateLoop host cmd dest length i types ⟨false,structs,[]⟩ = (do
      let items ← answerItems host i types
      .ok ⟨false,structs ++ items,[]⟩) := by
  induction types generalizing i structs with
  | nil => simp [populateLoop,answerItems,bind,Except.bind]
  | cons type rest ih =>
    have path : (false || (i == 0 && length == 1)) = false := by
      rcases slow with late | several
      · simp [late]
      · simp [several]
    simp only [populateLoop,answerItems]
    cases host.populator type with
    | none => exact ih (.inl (by omega)) structs
    | some populate =>
      simp only [path,callbackItem]
      cases populatedItem host type i (populate i) with
      | error s => rfl
      | ok item =>
        simp only [bind,Except.bind,Option.toList_none,List.append_nil]
        rw [ih (.inl (by omega))]
        cases answerItems host (i + 1) rest with
        | error s => rfl
        | ok items => simp [bind,Except.bind]

def directAnswer (host : Host) (cmd : Command) (dest : Address) (type : BitVec 32) (data : Val) (error : BitVec 32) :
    Except Stop (Option Handed) :=
  if error ≠ resultcodeSuccess then ipcError host.env host.fuel host.heap cmd.ipcref error dest
  else ipcResponse host.env host.fuel host.heap cmd.ipcref type data dest

theorem directCallback (type : BitVec 32) {data : Val} (there : data ≠ .null) (error : BitVec 32) :
    dataReqPopulateCb host cmd dest true type 0 (data,error) = (do
      let sent ← directAnswer host cmd dest type data error
      .ok (sent,none)) := by
  have body : dataReqPopulateCb host cmd dest true type 0 (data,error) =
      if error ≠ resultcodeSuccess then (do
        let sent ← ipcError host.env host.fuel host.heap cmd.ipcref error dest
        .ok (sent,none))
      else (do
        let sent ← ipcResponse host.env host.fuel host.heap cmd.ipcref type data dest
        .ok (sent,none)) := by
    cases data with
    | null => exact absurd rfl there
    | word | dword | chars | array | union | dict | struct => rfl
  rw [body, directAnswer]
  split <;> rfl

theorem directSent (ready : Ready host) (dest : Address) (type : BitVec 32) (data : Val) (error : BitVec 32) :
    (∃ packet, directAnswer host cmd dest type data error = .ok (some packet)) ↔
      (error = resultcodeSuccess → Encodable host cmd.ipcref type data) := by
  rw [directAnswer]
  by_cases fine : error = resultcodeSuccess
  · rw [if_neg (not_not.mpr fine), responseSent]
    exact ⟨fun encodable _ => encodable,fun encodable => encodable fine⟩
  · rw [if_pos fine]
    exact iff_of_true (errorSent ready cmd.ipcref error dest) fun success => absurd success fine

theorem directAnswers (ready : Ready host) {type : BitVec 32} {populate : Populator}
    (known : host.populator type = some populate) :
    Once (do
      let s ← populateLoop host cmd dest 1 0 [type] ⟨false,[],[]⟩
      if s.direct then .ok s.sent
      else do
        let sent ← ipcResponse host.env host.fuel host.heap cmd.ipcref typesOpaqueStructArr (opaqueArray s.structs) dest
        .ok (s.sent ++ sent.toList)) ↔
      (populate 0).1 ≠ .null ∧
        ((populate 0).2 = resultcodeSuccess → Encodable host cmd.ipcref type (populate 0).1) := by
  simp only [populateLoop,known,beq_self_eq_true,Bool.and_self,Bool.or_true]
  rcases populate 0 with ⟨data,error⟩
  by_cases absent : data = .null
  · subst absent
    refine iff_of_false ?_ fun both => both.1 rfl
    rintro ⟨packets,same,one⟩
    cases same
    cases one
  · rw [directCallback type absent, and_iff_right absent, ← directSent ready dest, ← onceSent]
    cases directAnswer host cmd dest type data error with
    | error s => rfl
    | ok sent => rfl

theorem slowAnswers {length : Int} {types : List (BitVec 32)}
    (slow : length ≠ 1 ∨ ∃ type, types = [type] ∧ host.populator type = none) :
    Once (do
      let s ← populateLoop host cmd dest length 0 types ⟨false,[],[]⟩
      if s.direct then .ok s.sent
      else do
        let sent ← ipcResponse host.env host.fuel host.heap cmd.ipcref typesOpaqueStructArr (opaqueArray s.structs) dest
        .ok (s.sent ++ sent.toList)) ↔
      ∃ items, answerItems host 0 types = .ok items ∧
        Encodable host cmd.ipcref typesOpaqueStructArr (opaqueArray items) := by
  have collected : populateLoop host cmd dest length 0 types ⟨false,[],[]⟩ = (do
      let items ← answerItems host 0 types
      .ok ⟨false,[] ++ items,[]⟩) := by
    rcases slow with several | ⟨type,rfl,unknown⟩
    · exact loopCollects (.inr several) types []
    · simp only [populateLoop,answerItems,unknown]
      rfl
  rw [collected]
  cases answerItems host 0 types with
  | error s => simp [Once,bind,Except.bind]
  | ok items =>
    simp only [bind,Except.bind,List.nil_append,Bool.false_eq_true,if_false,Except.ok.injEq,exists_eq_left']
    rw [← responseSent _ _ _ dest, ← onceSent]
    rfl

theorem answerableIff (typed : cmd.type = typesDatareq) {req : DataReq} {types : List (BitVec 32)}
    (here : cmd.data = some req) (list : req.reqs = some types)
    (inside : 0 < req.length.toInt ∧ req.length.toInt ≤ 1024) :
    Answerable host cmd ↔
      (∀ type populate, types = [type] → host.populator type = some populate →
        (populate 0).1 ≠ .null ∧
          ((populate 0).2 = resultcodeSuccess → Encodable host cmd.ipcref type (populate 0).1)) ∧
      ((∀ type, types = [type] → host.populator type = none) →
        ∃ items, answerItems host 0 types = .ok items ∧
          Encodable host cmd.ipcref typesOpaqueStructArr (opaqueArray items)) := by
  refine ⟨fun all => all req types typed here list inside.1 inside.2,fun both req' types' _ here' list' _ _ => ?_⟩
  rw [here] at here'
  cases here'
  rw [list] at list'
  cases list'
  exact both

/- Exactly when a data request gets one response. -/
theorem dataRequestAnsweredOnce (ready : Ready host) (dest : Address) :
    Once (cmdHandleDataReq host cmd dest) ↔ Answerable host cmd := by
  rw [cmdHandleDataReq]
  by_cases typed : cmd.type = typesDatareq
  · rw [if_neg (not_not.mpr typed)]
    cases given : cmd.data.bind fun req => req.reqs.map fun types => (req.length.toInt,types) with
    | none =>
      refine iff_of_true (onceSent.mpr (voidSent ready cmd.ipcref dest)) ?_
      intro req types _ here list
      rw [here, Option.bind_some, list] at given
      cases given
    | some pair =>
      obtain ⟨req,here,mapped⟩ := Option.bind_eq_some_iff.mp given
      obtain ⟨types,list,rfl⟩ := Option.map_eq_some_iff.mp mapped
      simp only
      by_cases outside : req.length.toInt ≤ 0 ∨ 1024 < req.length.toInt
      · rw [if_pos outside]
        refine iff_of_true (onceSent.mpr (voidSent ready cmd.ipcref dest)) ?_
        intro req' types' _ here' _ low high
        rw [here] at here'
        cases here'
        omega
      · rw [if_neg outside, if_neg (by simp [ready.structs])]
        have counted := req.counted types list
        rw [answerableIff typed here list (by omega)]
        by_cases fast : ∃ type populate, types = [type] ∧ host.populator type = some populate
        · obtain ⟨type,populate,rfl,known⟩ := fast
          have one : req.length.toInt = 1 := by
            rw [List.length_singleton] at counted
            omega
          rw [one, directAnswers ready known]
          refine ⟨fun answered => ⟨fun type' populate' is known' => ?_,fun unknown => ?_⟩,fun both => both.1 _ _ rfl known⟩
          · cases is
            rw [known] at known'
            cases known'
            exact answered
          · rw [unknown type rfl] at known
            cases known
        · have unknown : ∀ type, types = [type] → host.populator type = none := fun type is =>
            Option.eq_none_iff_forall_ne_some.mpr fun populate known => fast ⟨type,populate,is,known⟩
          have slow : req.length.toInt ≠ 1 ∨ ∃ type, types = [type] ∧ host.populator type = none := by
            by_cases one : req.length.toInt = 1
            · rw [one] at counted
              obtain ⟨type,rfl⟩ := List.length_eq_one_iff.mp counted
              exact .inr ⟨type,rfl,unknown type rfl⟩
            · exact .inl one
          rw [slowAnswers slow]
          refine ⟨fun answered => ⟨fun type populate is known => ?_,fun _ => answered⟩,fun both => both.2 unknown⟩
          exact absurd ⟨type,populate,is,known⟩ fast
  · rw [if_pos typed]
    exact iff_of_true (onceSent.mpr (errorSent ready cmd.ipcref _ dest)) fun req types same => absurd same typed

end Handler

def sampleHost (answer : Val × BitVec 32) : Host where
  env := ipcEnv
  fuel := 1
  populator type := if type = typesOpaqueStruct then some fun _ => answer else none
  structsMalloc := true
  itemHeap _ := plenty
  heap := plenty

def sampleCommand : Command := ⟨5,typesDatareq,some ⟨1,some [typesOpaqueStruct],by
  intro types same
  cases same
  rfl⟩⟩

theorem sampleReady (answer : Val × BitVec 32) : Ready (sampleHost answer) :=
  ⟨Nat.one_pos,⟨_,rfl,rfl,rfl⟩,rfl,fun _ _ gone => by cases gone⟩

theorem sampleAttempt (answer : Val × BitVec 32) {data : List Byte} (small : data.length + pad data.length < 2 ^ 31) :
    (16 + (4 + data.length + pad data.length) < buffLen → Encodable (sampleHost answer) 5 typesOpaqueStruct (opaqueStruct data)) ∧
      (16 + (4 + data.length + pad data.length) = buffLen → ¬ Encodable (sampleHost answer) 5 typesOpaqueStruct (opaqueStruct data)) := by
  have all : FieldsResize ipcEnv (enterEncoder ipcEnv 1) _ responseFields _ _ _ :=
    (opaqueParameters small).response le_rfl 5
  have size : (responseBytes 5 typesOpaqueStruct (opaqueBytes data)).length = 16 + (4 + data.length + pad data.length) := by
    simp [responseBytes,opaqueBytes,zeros]
    omega
  have given : block plenty 0 buffLen = some ((List.range buffLen).map fun _ => 0) := rfl
  obtain ⟨fits,fails⟩ := encodeAttempt all (blockLength given)
  refine ⟨fun less => ?_,fun full => ?_⟩
  · obtain ⟨packet,-,taken⟩ := fits ⟨by omega,fun _ => by omega⟩
    exact ⟨0,packet,taken,.inl le_rfl⟩
  · obtain ⟨res,buff,failed,refused⟩ := fails fun room => by
      have less := room.2 (opaqueEnds data)
      omega
    rintro ⟨res',packet,same,fine | ⟨longer,_⟩⟩
    · have equal := refused.symm.trans same
      cases equal
      omega
    · have equal := refused.symm.trans same
      cases equal
      simp only at longer
      omega

theorem threeBytesAnswered : Once (cmdHandleDataReq (sampleHost (opaqueStruct [1,2,3],resultcodeSuccess)) sampleCommand ⟨99,1⟩) := by
  refine (dataRequestAnsweredOnce (sampleReady _) ⟨99,1⟩).mpr ?_
  refine (answerableIff rfl rfl rfl (by decide)).mpr ⟨fun type populate is known => ?_,fun unknown => ?_⟩
  · cases is
    cases known
    exact ⟨by simp [opaqueStruct],fun _ => (sampleAttempt _ (by decide)).1 (by decide)⟩
  · exact absurd (unknown typesOpaqueStruct rfl) (by simp [sampleHost])

/- A populator without data leaves the request unanswered, and a response of 1024 bytes
that ends with an opaque array is dropped by IPC_response. -/
theorem dataRequestUnanswered :
    cmdHandleDataReq (sampleHost (.null,resultcodeIncorrectParameterType)) sampleCommand ⟨99,1⟩ = .ok [] ∧
      ¬ Once (cmdHandleDataReq (sampleHost (opaqueStruct opaqueKilobyte,resultcodeSuccess)) sampleCommand ⟨99,1⟩) := by
  refine ⟨rfl,fun once => ?_⟩
  have count : opaqueKilobyte.length = 1004 := List.length_replicate
  have fast := @directAnswers (sampleHost (opaqueStruct opaqueKilobyte,resultcodeSuccess)) sampleCommand ⟨99,1⟩
    (sampleReady _) typesOpaqueStruct _ rfl
  refine (sampleAttempt _ ?_).2 ?_ ((fast.mp once).2 rfl)
  · rw [count]
    decide
  · rw [count]
    decide

end LibProc.DataRequest
