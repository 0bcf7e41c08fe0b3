import LibProc.Headers
import LibProc.Receives
import LibProc.Requests

/-! What a command carries. The parameters a process gives to IPC_command are the parameters the
handler of another one is called with, and the data of a response is what the callback of the
request is given, if both know the types and have memory. -/
namespace LibProc.Delivery
open XdrBytes Xdr Ipc
open Receives (maxIpPacketSize Stack)
open Requests (RequestId)

theorem equalUnion {type : BitVec 32} {data v : Val} (same : Equal (.union type data) v) :
    ∃ data', v = .union type data' ∧ Equal data data' := by
  cases same with
  | refl => exact ⟨data,rfl,.refl data⟩
  | union _ same => exact ⟨_,rfl,same⟩

/- Both processes know the type of the parameters, and the receiver has memory for them. -/
structure Understood (env : Env) (depth fuel : Nat) (type : BitVec 32) (params : Val) (body : List Byte) (d : StructDefinition) :
    Prop where
  allocates : ∀ p, env.alloc p = true
  deep : depth ≤ fuel
  registered : env.definitionForType type = some d
  admitted : plainRules.definition d
  wire : objectWire env plainRules depth d params body

section Decoding
variable {env : Env} {depth fuel : Nat} {type : BitVec 32} {params : Val} {body : List Byte} {d : StructDefinition}

theorem Understood.last (understood : Understood env depth fuel type params body d) (cells : List Val) (i : Nat) :
    wiresOf env plainRules (objectWire env plainRules depth) cells (.cons .union 0 0 .nil) i [.union type params]
      ((beBytes type ++ body) ++ []) :=
  ⟨_,_,_,_,rfl,rfl,⟨rfl,by simp [hasLength]⟩,
    .union type params d body understood.registered understood.admitted understood.wire,rfl,rfl⟩

theorem wordWires {s : Scalar} {w : BitVec 32} (wire : ScalarWire s (.word w) (beBytes w)) {enter : StructDefinition → Val → List Byte → Prop}
    {cells vs : List Val} {i : Nat} {rest : FieldList} {e : List Byte} (more : wiresOf env plainRules enter cells rest (i + 1) vs e) :
    wiresOf env plainRules enter cells (.cons (.scalar s) 0 0 rest) i (.word w :: vs) (beBytes w ++ e) :=
  ⟨_,_,_,_,rfl,rfl,⟨rfl,by simp [hasLength]⟩,wire,more⟩

theorem cellsDecode (allocates : ∀ p, env.alloc p = true) (deep : depth ≤ fuel) {fields : FieldList} {cells : List Val}
    {e : List Byte} (value : Value env plainRules depth fields cells e) {there : List Val} (fits : FitsAll fields there) :
    ∃ cells', List.Forall₂ Equal cells cells' ∧ ∀ rest inc max path, e.length ≤ max →
      structDecoder env (decodersOf env (enterDecoder env fuel) fields) (e ++ rest) (.struct there) inc max none path =
        .ok ⟨0,e.length,.struct cells'⟩ := by
  have all := fieldsDecode allocates (fun d v e ok inner => objectDecodes allocates deep ok inner) fields cells [] cells e rfl value
  obtain ⟨v,same,reads⟩ := FieldsDecode.struct all fits none
  cases same with
  | refl => exact ⟨cells,List.forall₂_same.mpr fun v _ => .refl v,reads⟩
  | struct equal => exact ⟨_,equal,reads⟩

@[simp] theorem commandLength (command ipcref type : BitVec 32) (body : List Byte) :
    (commandBytes command ipcref type body).length = 12 + body.length := by
  simp [commandBytes]
  omega

@[simp] theorem responseLength (ipcref type : BitVec 32) (body : List Byte) :
    (responseBytes ipcref type body).length = 16 + body.length := by
  simp [responseBytes]
  omega

theorem Understood.command (understood : Understood env depth fuel type params body d) (command ipcref : BitVec 32) :
    ∃ params', Equal params params' ∧ ∀ rest max, 12 + body.length ≤ max →
      xdrStructDecoder env fuel commandFields (commandBytes command ipcref type body ++ rest)
        (.struct (uninitsOf commandFields)) max =
          .ok ⟨0,12 + body.length,.struct [.word command,.word ipcref,.union type params']⟩ := by
  have value : Value env plainRules depth commandFields [.word command,.word ipcref,.union type params]
      (commandBytes command ipcref type body) :=
    wordWires (.int32 command) (wordWires (.uint32 ipcref) (understood.last _ 2))
  have there : FitsAll commandFields (uninitsOf commandFields) := ⟨_,_,rfl,trivial,_,_,rfl,trivial,_,_,rfl,⟨_,_,rfl⟩,rfl⟩
  obtain ⟨cells,same,reads⟩ := cellsDecode understood.allocates understood.deep value there
  rw [commandLength] at reads
  cases same with
  | cons first same => cases same with
    | cons second same => cases same with
      | cons third same =>
        cases same
        obtain ⟨params',rfl,equal⟩ := equalUnion third
        rw [first.word, second.word] at reads
        exact ⟨params',equal,fun rest max room => reads rest 0 max [] room⟩

theorem Understood.response (understood : Understood env depth fuel type params body d) (ipcref : BitVec 32) :
    ∃ params', Equal params params' ∧ ∀ rest inc max path, 16 + body.length ≤ max →
      structDecoder env (decodersOf env (enterDecoder env fuel) responseFields) (responseBytes ipcref type body ++ rest)
        (.struct (zerosOf responseFields)) inc max none path =
          .ok ⟨0,16 + body.length,.struct [.word cmdsResponse,.word ipcref,.word resultcodeSuccess,.union type params']⟩ := by
  have value : Value env plainRules depth responseFields
      [.word cmdsResponse,.word ipcref,.word resultcodeSuccess,.union type params] (responseBytes ipcref type body) :=
    wordWires (.int32 _) (wordWires (.uint32 ipcref) (wordWires (.int32 _) (understood.last _ 3)))
  obtain ⟨cells,same,reads⟩ := cellsDecode understood.allocates understood.deep value (zerosFit responseFields)
  rw [responseLength] at reads
  cases same with
  | cons first same => cases same with
    | cons second same => cases same with
      | cons third same => cases same with
        | cons fourth same =>
          cases same
          obtain ⟨params',rfl,equal⟩ := equalUnion fourth
          rw [first.word, second.word, third.word] at reads
          exact ⟨params',equal,reads⟩

theorem Understood.cooked (understood : Understood env depth (16 + body.length) type params body d) {r : StructDefinition}
    (known : env.definitionForType Requests.typesResponse = some r)
    (laidOut : r.inMemorySize ≠ 0 ∧ r.coder = .struct ∧ r.fields = responseFields) (ipcref : BitVec 32) :
    ∃ params', Equal params params' ∧ Requests.cookResponse env (responseBytes ipcref type body) =
      .ok (some (r,.struct [.word cmdsResponse,.word ipcref,.word resultcodeSuccess,.union type params'])) := by
  obtain ⟨params',same,reads⟩ := understood.response ipcref
  obtain ⟨sized,coder,fields⟩ := laidOut
  refine ⟨params',same,?_⟩
  have read := reads [] 0 (16 + body.length) [0] le_rfl
  rw [List.append_nil] at read
  simp only [Requests.cookResponse,known]
  rw [if_neg (by simp [sized,understood.allocates]), responseLength, enterDecoder, coder]
  simp only [fields]
  rw [read]
  rfl

theorem headerDecodes (allocates : ∀ p, env.alloc p = true) (ipcref result : BitVec 32) (rest : List Byte) {bytes : List Byte}
    (is : bytes = beBytes cmdsResponse ++ (beBytes ipcref ++ (beBytes result ++ rest))) :
    xdrStructDecoder env 0 Requests.responseHeaderFields bytes (.struct [.null,.null,.null]) bytes.length =
      .ok ⟨0,12,.struct [.word cmdsResponse,.word ipcref,.word result]⟩ := by
  have value : Value env plainRules 0 Requests.responseHeaderFields [.word cmdsResponse,.word ipcref,.word result]
      (beBytes cmdsResponse ++ (beBytes ipcref ++ (beBytes result ++ []))) :=
    wordWires (.int32 _) (wordWires (.uint32 ipcref) (wordWires (.int32 _) ⟨rfl,rfl⟩))
  have there : FitsAll Requests.responseHeaderFields [.null,.null,.null] := ⟨_,_,rfl,trivial,_,_,rfl,trivial,_,_,rfl,trivial,rfl⟩
  obtain ⟨cells,same,reads⟩ := cellsDecode allocates (Nat.le_refl 0) value there
  have words : cells = [.word cmdsResponse,.word ipcref,.word result] := by
    cases same with
    | cons first same => cases same with
      | cons second same => cases same with
        | cons third same =>
          cases same
          rw [first.word, second.word, third.word]
  have split : bytes = (beBytes cmdsResponse ++ (beBytes ipcref ++ (beBytes result ++ []))) ++ rest := by
    simp [is]
  rw [split, ← words]
  exact reads _ 0 _ [] (List.prefix_append _ _).length_le

theorem headerReads (allocates : ∀ p, env.alloc p = true) {ipcref result : BitVec 32} {rest bytes : List Byte}
    (is : bytes = beBytes cmdsResponse ++ (beBytes ipcref ++ (beBytes result ++ rest))) :
    Requests.responseRef env bytes = some ipcref := by
  rw [Requests.responseRef, headerDecodes allocates ipcref result rest is]
  rfl

end Decoding

section Arriving
variable {p : Receives.Process} {stack : Stack} {src : Address} {bytes : List Byte}

theorem receivedFront (fits : bytes.length ≤ maxIpPacketSize) :
    ∃ rest, stack.received (.packet bytes src fits) = bytes ++ rest := ⟨_,rfl⟩

theorem packetWord {w : BitVec 32} {rest : List Byte} {max : Nat} (room : 4 ≤ max) (v : Val) :
    decodeUint32 (beBytes w ++ rest) v 0 max none [] = .ok ⟨0,4,.word w⟩ := decodeUint32Reads w v none rest 0 max [] room

theorem xdrReceived (p : Receives.Process) (stack : Stack) (src : Address) (fits : bytes.length ≤ maxIpPacketSize)
    (zero : bytes.head? = some 0) :
    Receives.cmdHandlerCb p .read stack (.packet bytes src fits) =
      Receives.xdrPacket p stack (stack.received (.packet bytes src fits)) (Receives.dataLen (.packet bytes src fits)) src := by
  cases bytes with
  | nil => cases zero
  | cons b rest =>
    have first : (stack.received (.packet (b :: rest) src fits)).headD 0 = 0 := Option.some.inj zero
    unfold Receives.cmdHandlerCb
    dsimp only
    rw [if_pos rfl, if_pos (Receives.positiveLen src fits (List.cons_ne_nil b rest)), if_pos first]
    rfl

theorem responseCalls (p : Receives.Process) (stack : Stack) (src : Address) (fits : bytes.length ≤ maxIpPacketSize)
    {rest : List Byte} (begins : bytes = beBytes cmdsResponse ++ rest) :
    Receives.cmdHandlerCb p .read stack (.packet bytes src fits) =
      ⟨[.decode (stack.received (.packet bytes src fits)) (Receives.dataLen (.packet bytes src fits)),.countResponse,
        .xdrResponse (stack.received (.packet bytes src fits)) (Receives.dataLen (.packet bytes src fits)) src],true⟩ := by
  have room : 4 ≤ (Receives.dataLen (.packet bytes src fits)).toNat := by
    rw [Receives.dataLenPacket, begins, List.length_append, beBytesLength]
    omega
  have front : ∃ more, stack.received (.packet bytes src fits) = beBytes cmdsResponse ++ more :=
    ⟨_,by rw [Receives.Stack.received, begins, List.append_assoc]⟩
  rw [xdrReceived p stack src fits (by rw [begins]; rfl), Receives.xdrPacket]
  obtain ⟨more,is⟩ := front
  rw [is, packetWord room]
  simp [wordAt]

theorem topByte {command : BitVec 32} (small : command.toNat < 2 ^ 24) : (beBytes command).head? = some 0 := by
  have zero : command.extractLsb' 24 8 = 0 := by
    apply BitVec.eq_of_toNat_eq
    rw [BitVec.extractLsb'_toNat, Nat.shiftRight_eq_div_pow, Nat.div_eq_of_lt small]
    rfl
  simp [beBytes,zero]

theorem commandTrace {depth : Nat} {type : BitVec 32} {params : Val} {body : List Byte} {d : StructDefinition}
    (understood : Understood p.env depth p.fuel type params body d) {command : BitVec 32} (ipcref : BitVec 32)
    (small : command.toNat < 2 ^ 24) (other : command ≠ cmdsResponse) :
    ∃ params', Equal params params' ∧ ∀ (stack : Stack) (src : Address)
      (fits : (commandBytes command ipcref type body).length ≤ maxIpPacketSize),
      let data := stack.received (.packet (commandBytes command ipcref type body) src fits)
      let len := Receives.dataLen (.packet (commandBytes command ipcref type body) src fits)
      let handled := Receives.handleCommand p (.struct [.word command,.word ipcref,.union type params']) src
      Receives.cmdHandlerCb p .read stack (.packet (commandBytes command ipcref type body) src fits) =
        ⟨[.decode data len,.decode data len,.countCommand] ++ handled.calls,handled.returned⟩ := by
  obtain ⟨params',same,reads⟩ := understood.command command ipcref
  refine ⟨params',same,fun stack src fits => ?_⟩
  dsimp only
  have length : (Receives.dataLen (.packet (commandBytes command ipcref type body) src fits)).toNat = 12 + body.length := by
    rw [Receives.dataLenPacket, commandLength]
  have zero : (commandBytes command ipcref type body).head? = some 0 := topByte small
  obtain ⟨rest,front⟩ : ∃ rest, stack.received (.packet (commandBytes command ipcref type body) src fits) =
      commandBytes command ipcref type body ++ rest := receivedFront fits
  have first : decodeUint32 (commandBytes command ipcref type body ++ rest) (.word stack.cmdNum) 0 (12 + body.length) none [] =
      .ok ⟨0,4,.word command⟩ := packetWord (by omega) _
  rw [xdrReceived p stack src fits zero, Receives.xdrPacket, front, length, first]
  dsimp only
  rw [wordAt, if_neg other, reads rest _ le_rfl]
  rfl

/- What cmd_handler_cb calls for these bytes: the two decoders, the counter and the handler, which is given the command. -/
def Handles (p : Receives.Process) (bytes : List Byte) (handler : Nat) (command : Val) : Prop :=
  ∀ (stack : Stack) (src : Address), ∃ fits : bytes.length ≤ maxIpPacketSize,
    let data := stack.received (.packet bytes src fits)
    let len := Receives.dataLen (.packet bytes src fits)
    (Receives.cmdHandlerCb p .read stack (.packet bytes src fits)).calls =
      [.decode data len,.decode data len,.countCommand,.xdrHandler handler command src]

end Arriving

section Whole
variable {sender : Env} {depth fuel : Nat} {type : BitVec 32} {params : Val} {body : List Byte} {d : StructDefinition}

theorem commandSent (message : Parameters sender depth type params body d) (deep : depth ≤ fuel) {heap : Heap}
    (enough : Enough heap (objectEndsOpaque sender depth d params) (12 + body.length)) (command ipcref : BitVec 32) (dest : Address) :
    ∃ packet buff, ipcCommandInternal sender fuel heap ipcref true command type params dest =
        .ok (some (.rawSockaddr packet dest),ipcref + 1) ∧
      packet.buff = some buff ∧ buff.take packet.len = commandBytes command ipcref type body := by
  obtain ⟨packet,sent,exact_⟩ := (retryTransmits heap (message.command deep command ipcref)).mpr (by rwa [commandLength])
  obtain ⟨buff,there,bytes⟩ := exact_.2
  refine ⟨packet,buff,?_,there,bytes⟩
  simp only [ipcCommandInternal,sent,bind,Except.bind]
  rfl

theorem commandHandled {p : Receives.Process} (understood : Understood p.env depth p.fuel type params body d) {command : BitVec 32}
    (small : command.toNat < 2 ^ 24) (other : command ≠ cmdsResponse) {handler : Nat}
    (registered : p.xdrCommand command = some (some handler)) (fits : 12 + body.length ≤ maxIpPacketSize) (ipcref : BitVec 32) :
    ∃ params', Equal params params' ∧
      Handles p (commandBytes command ipcref type body) handler (.struct [.word command,.word ipcref,.union type params']) := by
  obtain ⟨params',same,trace⟩ := commandTrace understood ipcref small other
  refine ⟨params',same,fun stack src => ⟨by rwa [commandLength],?_⟩⟩
  rw [trace stack src]
  simp [Receives.handleCommand,registered]

/- One datagram goes out, and its receiver decodes it, counts it and calls the handler with what IPC_command was called
with: for every value of a type both processes know, whatever the bytes on the stack of the receiver are. -/
theorem commandReachesHandler (message : Parameters sender depth type params body d) (deep : depth ≤ fuel) {heap : Heap}
    (enough : Enough heap (objectEndsOpaque sender depth d params) (12 + body.length)) {p : Receives.Process}
    (understood : Understood p.env depth p.fuel type params body d) {command : BitVec 32} (small : command.toNat < 2 ^ 24)
    (other : command ≠ cmdsResponse) {handler : Nat} (registered : p.xdrCommand command = some (some handler))
    (fits : 12 + body.length ≤ maxIpPacketSize) (ipcref : BitVec 32) (dest : Address) :
    ∃ packet buff params', ipcCommandInternal sender fuel heap ipcref true command type params dest =
        .ok (some (.rawSockaddr packet dest),ipcref + 1) ∧ packet.buff = some buff ∧ Equal params params' ∧
      Handles p (buff.take packet.len) handler (.struct [.word command,.word ipcref,.union type params']) := by
  obtain ⟨packet,buff,sent,there,bytes⟩ := commandSent message deep enough command ipcref dest
  obtain ⟨params',same,handled⟩ := commandHandled understood small other registered fits ipcref
  exact ⟨packet,buff,params',sent,there,same,bytes ▸ handled⟩

def numberDefinition : StructDefinition := ⟨4,.struct,.cons (.scalar .uint32) 0 0 .nil⟩

def numberParams : Val := .struct [.word 9]

theorem numberMessage : Parameters sampleEnv 1 7 numberParams (beBytes 9 ++ []) numberDefinition where
  registered := rfl
  wire := .inl ⟨_,rfl,_,_,_,_,rfl,rfl,rfl,.uint32 9,rfl,rfl⟩

theorem numberUnderstood {env : Env} {fuel : Nat} (allocates : ∀ p, env.alloc p = true) (deep : 1 ≤ fuel)
    (registered : env.definitionForType 7 = some numberDefinition) :
    Understood env 1 fuel 7 numberParams (beBytes 9 ++ []) numberDefinition where
  allocates := allocates
  deep := deep
  registered := registered
  admitted := ⟨by decide,rfl⟩
  wire := .inl ⟨_,rfl,_,_,_,_,rfl,rfl,⟨rfl,by simp [hasLength]⟩,.uint32 9,rfl,rfl⟩

def numberProcess : Receives.Process := ⟨sampleEnv,1,LegacyCommands.dirty,fun cmd => if cmd = 5 then some (some 3) else none⟩

theorem numberReachesHandler : ∃ packet buff params', ipcCommandInternal sampleEnv 1 plenty 1 true 5 7 numberParams ⟨99,1⟩ =
      .ok (some (.rawSockaddr packet ⟨99,1⟩),2) ∧ packet.buff = some buff ∧ Equal numberParams params' ∧
    Handles numberProcess (buff.take packet.len) 3 (.struct [.word 5,.word 1,.union 7 params']) :=
  commandReachesHandler numberMessage le_rfl ⟨by simp [plenty],.inl (by decide)⟩
    (numberUnderstood (fun _ => rfl) le_rfl rfl) (by decide) (by decide) rfl (by decide) 1 ⟨99,1⟩

/- The first request that waits for the number of a response and its sender is answered, and a cooked
callback is given what IPC_response was given: for every value of a type both processes know. -/
theorem responseReachesCallback (message : Parameters sender depth type params body d) (deep : depth ≤ fuel) {heap : Heap}
    (enough : Enough heap (objectEndsOpaque sender depth d params) (16 + body.length)) {env : Env}
    (understood : Understood env depth (16 + body.length) type params body d) {r : StructDefinition}
    (known : env.definitionForType Requests.typesResponse = some r)
    (laidOut : r.inMemorySize ≠ 0 ∧ r.coder = .struct ∧ r.fields = responseFields)
    {p : Requests.Process} {s : RequestId} {ipcref : BitVec 32} {src : Address}
    (waits : p.resp.find? (fun s => (p.states s).id = ipcref ∧ (p.states s).host = src) = some s)
    (cooked : (p.states s).cbType = .cooked) (dest : Address) :
    ∃ packet buff params', ipcResponse sender fuel heap ipcref type params dest = .ok (some (.rawSockaddr packet dest)) ∧
      packet.buff = some buff ∧ Equal params params' ∧
      Requests.cmdHandleXdrResponse p env (buff.take packet.len) src =
        Requests.callBack {p with resp := p.resp.erase s} s false (.response s
          (some (r,.struct [.word cmdsResponse,.word ipcref,.word resultcodeSuccess,.union type params']))) := by
  obtain ⟨packet,sent,exact_⟩ := (retryTransmits heap (message.response deep ipcref)).mpr (by rwa [responseLength])
  obtain ⟨buff,there,bytes⟩ := exact_.2
  obtain ⟨params',same,cook⟩ := understood.cooked known laidOut ipcref
  refine ⟨packet,buff,params',?_,there,same,?_⟩
  · simp only [ipcResponse,sent,bind,Except.bind]
    rfl
  have ref : Requests.responseRef env (responseBytes ipcref type body) = some ipcref := headerReads understood.allocates rfl
  have answered : Requests.answered p env (responseBytes ipcref type body) src = some s := by
    rw [Requests.answered, ref]
    exact waits
  rw [bytes]
  simp only [Requests.cmdHandleXdrResponse,answered,Requests.cmdResolveCallback,cooked,cook]

def answerEnv : Env where
  definitionForType type :=
    if type = 7 then some numberDefinition
    else if type = Requests.typesResponse then some ⟨32,.struct,responseFields⟩ else none
  alloc _ := true
  address _ := 0
  firstPointerNull _ := true

def waiting : Requests.Process :=
  {Requests.blank with
    states := fun s => ⟨1,⟨99,BitVec.ofNat 32 s⟩,.cooked,none⟩, fresh := 2, resp := [1,0]}

theorem numberReachesCallback : ∃ packet buff params', ipcResponse sampleEnv 1 plenty 1 7 numberParams ⟨99,5⟩ =
      .ok (some (.rawSockaddr packet ⟨99,5⟩)) ∧ packet.buff = some buff ∧ Equal numberParams params' ∧
    Requests.cmdHandleXdrResponse waiting answerEnv (buff.take packet.len) ⟨99,0⟩ =
      Requests.callBack {waiting with resp := [1]} 0 false (.response 0
        (some (⟨32,.struct,responseFields⟩,.struct [.word cmdsResponse,.word 1,.word resultcodeSuccess,.union 7 params']))) :=
  responseReachesCallback numberMessage le_rfl ⟨by simp [plenty],.inl (by decide)⟩
    (numberUnderstood (fun _ => rfl) (by decide) rfl) rfl ⟨by decide,rfl,rfl⟩ (p := waiting) (s := 0) (by decide) rfl ⟨99,5⟩

end Whole
end LibProc.Delivery
