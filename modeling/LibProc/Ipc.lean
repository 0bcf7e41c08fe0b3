import LibProc.XdrResize

/-! ipc.c: a message is encoded into 1024 bytes and, when it needs more, once again into a
buffer of the size the first attempt asked for. The encode functions generated from
cmd-pkt.xp are XDR_struct_encoder on the fields it lists. -/
namespace LibProc.Ipc
open XdrBytes Xdr

def cmdsResponse : BitVec 32 := 0x100
def resultcodeSuccess : BitVec 32 := 0x02000100

def commandFields : FieldList :=
  .cons (.scalar .int32) 0 0 (.cons (.scalar .uint32) 0 0 (.cons .union 0 0 .nil))

def responseFields : FieldList :=
  .cons (.scalar .int32) 0 0 (.cons (.scalar .uint32) 0 0 (.cons (.scalar .int32) 0 0 (.cons .union 0 0 .nil)))

/- malloc of a call, by the order of the calls and the size asked for: what the block holds. -/
abbrev Heap := Nat → Nat → Option (Nat → Byte)

def block (heap : Heap) (call size : Nat) : Option (List Byte) :=
  (heap call size).map fun bytes => (List.range size).map bytes

structure Address where
  port : BitVec 16
  addr : BitVec 32
  deriving DecidableEq, Repr

structure Packet where
  buff : Option (List Byte)
  len : Nat
  deriving DecidableEq, Repr

def encodeInto (env : Env) (fuel : Nat) (fields : FieldList) (cells : List Val) (buff : Option (List Byte)) (max : Nat) :
    Except Stop (Int × Packet) :=
  match buff with
  | none => do
    let r ← xdrStructEncoder env fuel fields (.struct cells) .null max []
    .ok (r.res,⟨none,r.used⟩)
  | some bytes => do
    let r ← xdrStructEncoder env fuel fields (.struct cells) (.at 0) max bytes
    .ok (r.res,⟨some r.buf,r.used⟩)

def buffLen : Nat := 1024

def encodeAgain (env : Env) (fuel : Nat) (heap : Heap) (fields : FieldList) (cells : List Val) (len : Nat) :
    Except Stop (Option Packet) :=
  match block heap 1 len with
  | none => .ok none
  | some bytes => do
    let r ← encodeInto env fuel fields cells (some bytes) len
    if r.1 < 0 then .ok none else .ok (some r.2)

def growAndRetry (env : Env) (fuel : Nat) (heap : Heap) (fields : FieldList) (cells : List Val) :
    Except Stop (Option Packet) := do
  let r ← encodeInto env fuel fields cells (block heap 0 buffLen) buffLen
  if r.1 < 0 then
    if buffLen < r.2.len then encodeAgain env fuel heap fields cells r.2.len else .ok none
  else .ok (some r.2)

inductive Handed where
  | rawSockaddr (packet : Packet) (dest : Address)
  | blocking (packet : Packet) (dest : Address)
  deriving DecidableEq, Repr

def handOver (proc : Bool) (dest : Address) (packet : Packet) : Handed :=
  if proc then .rawSockaddr packet dest else .blocking packet dest

def ipcResponse (env : Env) (fuel : Nat) (heap : Heap) (ipcref paramType : BitVec 32) (params : Val) (dest : Address) :
    Except Stop (Option Handed) := do
  let cells := [.word cmdsResponse,.word ipcref,.word resultcodeSuccess,.union paramType params]
  let sent ← growAndRetry env fuel heap responseFields cells
  .ok (sent.map (handOver true dest))

def errorLen : Nat := 128

def ipcError (env : Env) (fuel : Nat) (heap : Heap) (ipcref errCode : BitVec 32) (dest : Address) :
    Except Stop (Option Handed) := do
  let cells := [.word cmdsResponse,.word ipcref,.word errCode,.union 0 .null]
  let r ← encodeInto env fuel responseFields cells (block heap 0 errorLen) errorLen
  .ok (if r.1 < 0 then none else some (handOver true dest r.2))

/- `nextCmdRef` is the static counter; the second component is its next value. -/
def ipcCommandInternal (env : Env) (fuel : Nat) (heap : Heap) (nextCmdRef : BitVec 32) (proc : Bool)
    (command paramType : BitVec 32) (params : Val) (dest : Address) : Except Stop (Option Handed × BitVec 32) := do
  let cells := [.word command,.word nextCmdRef,.union paramType params]
  let sent ← growAndRetry env fuel heap commandFields cells
  .ok (sent.map (handOver proc dest),nextCmdRef + 1)

section Retry
variable {env : Env} {fuel : Nat} {fields : FieldList} {cells : List Val} {e : List Byte} {tight : Prop}

def Packet.Exactly (packet : Packet) (e : List Byte) : Prop :=
  packet.len = e.length ∧ ∃ buff, packet.buff = some buff ∧ buff.take packet.len = e

/- The first buffer is there, and the encoding fits it with a byte to spare, or it does not
end with an opaque array and a buffer of its size is there. -/
def Enough (heap : Heap) (tight : Prop) (n : Nat) : Prop :=
  heap 0 buffLen ≠ none ∧ (n < buffLen ∨ ¬ tight ∧ (n = buffLen ∨ heap 1 n ≠ none))

theorem blockLength {heap : Heap} {call size : Nat} {bytes : List Byte} (given : block heap call size = some bytes) :
    bytes.length = size := by
  obtain ⟨content,_,rfl⟩ := Option.map_eq_some_iff.mp given
  simp

theorem blockNone {heap : Heap} {call size : Nat} : block heap call size = none ↔ heap call size = none := by
  simp [block]

theorem encodeNull (all : FieldsResize env (enterEncoder env fuel) cells fields cells e tight) (max : Nat) :
    encodeInto env fuel fields cells none max = .ok (0,⟨none,e.length⟩) := by
  have loop := all.sized .null 0 max 0 0 [] (.inl rfl)
  simp only [encodeInto,xdrStructEncoder,structEncoder]
  rw [loop]
  simp only [Except.bind,bind,Nat.zero_add]

theorem encodeAttempt (all : FieldsResize env (enterEncoder env fuel) cells fields cells e tight) {bytes : List Byte}
    {max : Nat} (size : bytes.length = max) :
    (Room tight e.length max → ∃ packet, packet.Exactly e ∧
      encodeInto env fuel fields cells (some bytes) max = .ok (0,packet)) ∧
    (¬ Room tight e.length max → ∃ res buff, res < 0 ∧
      encodeInto env fuel fields cells (some bytes) max = .ok (res,⟨buff,e.length⟩)) := by
  have struct := FieldsResize.struct none all
  constructor
  · intro room
    have written := struct.written 0 0 max bytes room (by omega)
    refine ⟨⟨some (splice bytes 0 e),e.length⟩,⟨rfl,_,rfl,?_⟩,?_⟩
    · simp [splice]
    · simp only [encodeInto,xdrStructEncoder]
      rw [written]
      rfl
  · intro short
    obtain ⟨res,buf,failed,_,done⟩ := struct.refused 0 0 max bytes short (by omega)
    refine ⟨res,some buf,failed,?_⟩
    simp only [encodeInto,xdrStructEncoder]
    rw [done]
    rfl

theorem secondTransmits (heap : Heap) (all : FieldsResize env (enterEncoder env fuel) cells fields cells e tight) :
    (∃ packet, encodeAgain env fuel heap fields cells e.length = .ok (some packet) ∧ packet.Exactly e) ↔
      ¬ tight ∧ heap 1 e.length ≠ none := by
  simp only [encodeAgain]
  cases second : block heap 1 e.length with
  | none => exact iff_of_false (by simp) fun both => both.2 (blockNone.mp second)
  | some bytes =>
    have there : heap 1 e.length ≠ none := fun gone => by simp [blockNone.mpr gone] at second
    obtain ⟨fits,fails⟩ := encodeAttempt all (blockLength second)
    by_cases loose : tight
    · obtain ⟨res,buff,failed,done⟩ := fails fun room => lt_irrefl _ (room.2 loose)
      refine iff_of_false ?_ fun both => both.1 loose
      simp only
      rw [done]
      simp [bind,Except.bind,failed]
    · obtain ⟨packet,exact_,done⟩ := fits ⟨le_rfl,fun holds => (loose holds).elim⟩
      refine iff_of_true ⟨packet,?_,exact_⟩ ⟨loose,there⟩
      simp only
      rw [done]
      rfl

theorem retryTransmits (heap : Heap) (all : FieldsResize env (enterEncoder env fuel) cells fields cells e tight) :
    (∃ packet, growAndRetry env fuel heap fields cells = .ok (some packet) ∧ packet.Exactly e) ↔
      Enough heap tight e.length := by
  cases first : block heap 0 buffLen with
  | none =>
    -- the message is sent from NULL
    have sent : growAndRetry env fuel heap fields cells = .ok (some ⟨none,e.length⟩) := by
      simp only [growAndRetry]
      rw [first, encodeNull all]
      rfl
    refine iff_of_false ?_ fun enough => enough.1 (blockNone.mp first)
    rintro ⟨packet,same,_,buff,there,_⟩
    rw [sent] at same
    cases same
    contradiction
  | some bytes =>
    have there : heap 0 buffLen ≠ none := fun gone => by simp [blockNone.mpr gone] at first
    obtain ⟨fits,fails⟩ := encodeAttempt all (blockLength first)
    by_cases room : Room tight e.length buffLen
    · obtain ⟨packet,exact_,done⟩ := fits room
      refine iff_of_true ⟨packet,?_,exact_⟩ ⟨there,?_⟩
      · simp only [growAndRetry]
        rw [first, done]
        rfl
      · by_cases less : e.length < buffLen
        · exact .inl less
        · exact .inr ⟨fun holds => less (room.2 holds),.inl (le_antisymm room.1 (not_lt.mp less))⟩
    · obtain ⟨res,buff,failed,done⟩ := fails room
      have again : growAndRetry env fuel heap fields cells =
          if buffLen < e.length then encodeAgain env fuel heap fields cells e.length else .ok none := by
        simp only [growAndRetry]
        rw [first, done]
        simp only [Except.bind,bind]
        rw [if_pos failed]
      rw [again]
      by_cases longer : buffLen < e.length
      · rw [if_pos longer, secondTransmits heap all]
        refine ⟨fun second => ⟨there,.inr ⟨second.1,.inr second.2⟩⟩,?_⟩
        rintro ⟨_,small | ⟨loose,same | given⟩⟩
        · omega
        · omega
        · exact ⟨loose,given⟩
      · rw [if_neg longer]
        refine iff_of_false (by simp) ?_
        rintro ⟨_,small | ⟨loose,_⟩⟩
        · exact room ⟨small.le,fun _ => small⟩
        · exact room ⟨not_lt.mp longer,fun holds => (loose holds).elim⟩

end Retry

def responseBytes (ipcref type : BitVec 32) (body : List Byte) : List Byte :=
  beBytes cmdsResponse ++ (beBytes ipcref ++ (beBytes resultcodeSuccess ++ ((beBytes type ++ body) ++ [])))

def commandBytes (command ipcref type : BitVec 32) (body : List Byte) : List Byte :=
  beBytes command ++ (beBytes ipcref ++ ((beBytes type ++ body) ++ []))

section Messages
variable {env : Env} {depth fuel : Nat} {type : BitVec 32} {params : Val} {body : List Byte} {d : StructDefinition}

structure Parameters (env : Env) (depth : Nat) (type : BitVec 32) (params : Val) (body : List Byte)
    (d : StructDefinition) : Prop where
  registered : env.definitionForType type = some d
  wire : objectWire env resizeRules depth d params body

theorem Parameters.resizes (message : Parameters env depth type params body d) (deep : depth ≤ fuel)
    (len : Option (BitVec 32)) : Resizes (encodeUnion env (enterEncoder env fuel)) (.union type params) len
      (beBytes type ++ body) (objectEndsOpaque env depth d params) := by
  have wire : UnionWire env resizeRules (objectWire env resizeRules depth) (.union type params) (beBytes type ++ body) :=
    .union type params d body message.registered trivial message.wire
  have same : tightUnion env (objectEndsOpaque env depth) (.union type params) ↔ objectEndsOpaque env depth d params :=
    unionObjectIff message.registered
  exact Resizes.congr same (unionResizes (fun d v e wired => objectResizes deep wired) wire len)

theorem lastResizes {cells : List Val} {last : List Byte} {v : Val} {tight : Prop} {lenOffset structId : Nat}
    (resizes : Resizes (encodeUnion env (enterEncoder env fuel)) v (some (wordAt env cells[lenOffset]?)) last tight) :
    FieldsResize env (enterEncoder env fuel) cells (.cons .union lenOffset structId .nil) [v] (last ++ []) tight := by
  have both : FieldsResize env (enterEncoder env fuel) cells (.cons .union lenOffset structId .nil) [v] (last ++ []) _ :=
    FieldsResize.cons resizes FieldsResize.nil
  simpa using both

theorem wordResizes {cells vs : List Val} {w : BitVec 32} {s : Scalar} (word : s = .int32 ∨ s = .uint32)
    {rest : FieldList} {b : List Byte} {tight : Prop} {lenOffset structId : Nat}
    (more : FieldsResize env (enterEncoder env fuel) cells rest vs b tight) :
    FieldsResize env (enterEncoder env fuel) cells (.cons (.scalar s) lenOffset structId rest) (.word w :: vs)
      (beBytes w ++ b) tight := by
  have wire : ScalarWire s (.word w) (beBytes w) := by
    rcases word with rfl | rfl
    · exact .int32 w
    · exact .uint32 w
  have whole : integer s = true := by rcases word with rfl | rfl <;> rfl
  have both : FieldsResize env (enterEncoder env fuel) cells (.cons (.scalar s) lenOffset structId rest) (.word w :: vs)
      (beBytes w ++ b) _ := FieldsResize.cons (integerResizes whole wire _) more
  simpa using both

theorem Parameters.response (message : Parameters env depth type params body d) (deep : depth ≤ fuel)
    (ipcref : BitVec 32) : FieldsResize env (enterEncoder env fuel)
      [.word cmdsResponse,.word ipcref,.word resultcodeSuccess,.union type params] responseFields
      [.word cmdsResponse,.word ipcref,.word resultcodeSuccess,.union type params] (responseBytes ipcref type body)
      (objectEndsOpaque env depth d params) :=
  wordResizes (.inl rfl) (wordResizes (.inr rfl) (wordResizes (.inl rfl) (lastResizes (message.resizes deep _))))

theorem Parameters.command (message : Parameters env depth type params body d) (deep : depth ≤ fuel)
    (command ipcref : BitVec 32) : FieldsResize env (enterEncoder env fuel)
      [.word command,.word ipcref,.union type params] commandFields
      [.word command,.word ipcref,.union type params] (commandBytes command ipcref type body)
      (objectEndsOpaque env depth d params) :=
  wordResizes (.inl rfl) (wordResizes (.inr rfl) (lastResizes (message.resizes deep _)))

theorem handOverInj {proc : Bool} {dest : Address} {p q : Packet} (same : handOver proc dest p = handOver proc dest q) :
    p = q := by
  cases proc with
  | true =>
    cases same
    rfl
  | false =>
    cases same
    rfl

theorem handOverSent {proc : Bool} {dest : Address} {sent : Option Packet} {p : Packet} :
    sent.map (handOver proc dest) = some (handOver proc dest p) ↔ sent = some p := by
  constructor
  · intro same
    obtain ⟨q,rfl,equal⟩ := Option.map_eq_some_iff.mp same
    rw [handOverInj equal]
  · rintro rfl
    rfl

theorem handedOver {β : Type} {x : Except Stop (Option Packet)} {after : Option Packet → β} {out : Packet → β}
    (only_ : ∀ sent p, after sent = out p ↔ sent = some p) {P : Packet → Prop} :
    (∃ p, (do let sent ← x; .ok (after sent)) = Except.ok (out p) ∧ P p) ↔ ∃ p, x = .ok (some p) ∧ P p := by
  refine exists_congr fun p => and_congr_left fun _ => ?_
  cases x with
  | error s => simp [bind,Except.bind]
  | ok sent =>
    simp only [bind,Except.bind,Except.ok.injEq]
    exact only_ sent p

/- Exactly when a message goes out as its encoding: to PROC_cmd_raw_sockaddr, or to the
blocking call where there is no process. -/
theorem messagesTransmitted (message : Parameters env depth type params body d) (deep : depth ≤ fuel) (heap : Heap)
    (dest : Address) :
    (∀ ipcref, (∃ packet, ipcResponse env fuel heap ipcref type params dest = .ok (some (.rawSockaddr packet dest)) ∧
        packet.Exactly (responseBytes ipcref type body)) ↔
      Enough heap (objectEndsOpaque env depth d params) (16 + body.length)) ∧
    (∀ nextCmdRef proc command, (∃ packet, ipcCommandInternal env fuel heap nextCmdRef proc command type params dest =
        .ok (some (handOver proc dest packet),nextCmdRef + 1) ∧
        packet.Exactly (commandBytes command nextCmdRef type body)) ↔
      Enough heap (objectEndsOpaque env depth d params) (12 + body.length)) := by
  constructor
  · intro ipcref
    have size : (responseBytes ipcref type body).length = 16 + body.length := by
      simp [responseBytes]
      omega
    rw [← size, ← retryTransmits heap (message.response deep ipcref)]
    exact handedOver fun sent p => handOverSent
  · intro nextCmdRef proc command
    have size : (commandBytes command nextCmdRef type body).length = 12 + body.length := by
      simp [commandBytes]
      omega
    rw [← size, ← retryTransmits heap (message.command deep command nextCmdRef)]
    refine handedOver fun sent p => ?_
    rw [Prod.mk.injEq, and_iff_left rfl]
    exact handOverSent

end Messages

def typesOpaqueStruct : BitVec 32 := 0x01000101

def opaqueDefinition : StructDefinition := ⟨16,.struct,ipcOpaqueStructFields⟩

def ipcEnv : Env where
  definitionForType type :=
    if type = 0 then some ⟨0,.struct,.nil⟩ else if type = typesOpaqueStruct then some opaqueDefinition else none
  alloc _ := true
  address _ := 0
  firstPointerNull _ := true

def opaqueStruct (data : List Byte) : Val := .struct [.word (BitVec.ofNat 32 data.length),.chars data]

def opaqueBytes (data : List Byte) : List Byte :=
  beBytes (BitVec.ofNat 32 data.length) ++ ((data ++ zeros (pad data.length)) ++ [])

theorem opaqueParameters {data : List Byte} (small : data.length + pad data.length < 2 ^ 31) :
    Parameters ipcEnv 1 typesOpaqueStruct (opaqueStruct data) (opaqueBytes data) opaqueDefinition where
  registered := rfl
  wire := by
    have counted : (BitVec.ofNat 32 data.length).toInt = data.length := lengthWord (by omega)
    refine .inl ⟨_,rfl,_,_,_,_,rfl,rfl,rfl,.int32 _,_,_,_,_,rfl,rfl,rfl,?_,rfl,rfl⟩
    exact .chars data counted small

theorem opaqueEnds (data : List Byte) : objectEndsOpaque ipcEnv 1 opaqueDefinition (opaqueStruct data) :=
  ⟨_,rfl,.inl (.inr ⟨trivial,rfl,rfl⟩)⟩

def plenty : Heap := fun _ _ => some fun _ => 0

theorem threeBytesTransmitted : ∃ packet,
    ipcResponse ipcEnv 1 plenty 5 typesOpaqueStruct (opaqueStruct [1,2,3]) ⟨99,1⟩ = .ok (some (.rawSockaddr packet ⟨99,1⟩)) ∧
      packet.Exactly (responseBytes 5 typesOpaqueStruct (opaqueBytes [1,2,3])) :=
  ((messagesTransmitted (opaqueParameters (by decide)) le_rfl plenty ⟨99,1⟩).1 5).mpr
    ⟨by simp [plenty],.inl (by decide)⟩

def opaqueKilobyte : List Byte := List.replicate 1004 1

theorem kilobyteDropped :
    (∃ packet, encodeInto ipcEnv 1 responseFields
        [.word cmdsResponse,.word 5,.word resultcodeSuccess,.union typesOpaqueStruct (opaqueStruct opaqueKilobyte)]
        (some (zeros 1025)) 1025 = .ok (0,packet) ∧
      packet.Exactly (responseBytes 5 typesOpaqueStruct (opaqueBytes opaqueKilobyte))) ∧
    ¬ ∃ packet, ipcResponse ipcEnv 1 plenty 5 typesOpaqueStruct (opaqueStruct opaqueKilobyte) ⟨99,1⟩ =
        .ok (some (.rawSockaddr packet ⟨99,1⟩)) ∧
      packet.Exactly (responseBytes 5 typesOpaqueStruct (opaqueBytes opaqueKilobyte)) := by
  have count : opaqueKilobyte.length = 1004 := List.length_replicate
  have size : (responseBytes 5 typesOpaqueStruct (opaqueBytes opaqueKilobyte)).length = 1024 := by
    simp [responseBytes,opaqueBytes,zeros,count,pad]
  have small : opaqueKilobyte.length + pad opaqueKilobyte.length < 2 ^ 31 := by
    rw [count]
    decide
  have all : FieldsResize ipcEnv (enterEncoder ipcEnv 1) _ responseFields _ _ _ :=
    (opaqueParameters small).response le_rfl 5
  constructor
  · obtain ⟨fits,_⟩ := encodeAttempt all (show (zeros 1025).length = 1025 from List.length_replicate)
    obtain ⟨packet,exact_,done⟩ := fits ⟨by omega,fun _ => by omega⟩
    exact ⟨packet,done,exact_⟩
  · intro sent
    have enough := (retryTransmits plenty all).mp ((handedOver fun sent p => handOverSent).mp sent)
    obtain ⟨_,small | ⟨loose,_⟩⟩ := enough
    · rw [size] at small
      exact absurd small (by decide)
    · exact loose (opaqueEnds opaqueKilobyte)

end LibProc.Ipc
