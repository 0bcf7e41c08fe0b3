import LibProc.FdRegistry
import LibProc.Ipc
import LibProc.LegacyCommands

/-! The callbacks of cmd.c that read a packet. What recvfrom returns is a ssize_t; socket_read keeps
it in a size_t and returns it as an int, and the callbacks keep that in a size_t again and take
whatever is above 0 for the length of a packet. -/
namespace LibProc.Receives
open XdrBytes Xdr Ipc
open FdRegistry (FdEvent)

def maxIpPacketSize : Nat := 65535

inductive Recv where
  | error
  | packet (bytes : List Byte) (src : Address) (fits : bytes.length ≤ maxIpPacketSize)

structure Stack where
  data : List Byte
  full : data.length = maxIpPacketSize
  src : Address
  cmdNum : BitVec 32

def recvfrom : Recv → BitVec 64
  | .error => -1
  | .packet bytes _ _ => BitVec.ofNat 64 bytes.length

def socketRead (recv : Recv) : BitVec 32 := (recvfrom recv).setWidth 32

def dataLen (recv : Recv) : BitVec 64 := (socketRead recv).signExtend 64

/- The buffer has a 0 in front when recvfrom writes to it. -/
def Stack.received (stack : Stack) : Recv → List Byte
  | .error => 0 :: stack.data.drop 1
  | .packet bytes _ _ => bytes ++ (0 :: stack.data.drop 1).drop bytes.length

def Stack.sender (stack : Stack) : Recv → Address
  | .error => stack.src
  | .packet _ src _ => src

inductive Call where
  | report (cmd : Byte)
  | decode (data : List Byte) (max : BitVec 64)
  | countResponse
  | countCommand
  | xdrResponse (data : List Byte) (len : BitVec 64) (src : Address)
  | xdrHandler (handler : Nat) (command : Val) (src : Address)
  | unsupported (command : Val) (src : Address)
  | legacy (handler : LegacyCommands.Handler) (cmd : Byte) (data : List Byte) (len : BitVec 64) (src : Address)
  | multicast (callback param : Nat) (cmd : Byte) (data : List Byte) (len : BitVec 64) (src : Address)

structure Trace where
  calls : List Call
  returned : Bool

structure Process where
  env : Env
  fuel : Nat
  table : LegacyCommands.Table
  xdrCommand : BitVec 32 → Option (Option Nat)

def handleCommand (p : Process) (command : Val) (src : Address) : Trace :=
  match command with
  | .struct [.word cmd,_,parameters] =>
    ⟨match p.xdrCommand cmd with
      | none => []
      | some none => [.unsupported command src]
      | some (some handler) => [.xdrHandler handler command src],
      match fieldDealloc p.env .union parameters with
      | .ok _ => true
      | .error _ => false⟩
  | _ => ⟨[],true⟩

def xdrPacket (p : Process) (stack : Stack) (data : List Byte) (len : BitVec 64) (src : Address) : Trace :=
  match decodeUint32 data (.word stack.cmdNum) 0 len.toNat none [] with
  | .error _ => ⟨[.decode data len],false⟩
  | .ok cmdNum =>
    if wordAt p.env (some cmdNum.dst) = cmdsResponse then
      ⟨[.decode data len,.countResponse,.xdrResponse data len src],true⟩
    else match xdrStructDecoder p.env p.fuel commandFields data (.struct (uninitsOf commandFields)) len.toNat with
      | .error _ => ⟨[.decode data len,.decode data len],false⟩
      | .ok xdrCmd =>
        if xdrCmd.res < 0 then ⟨[.decode data len,.decode data len,.countCommand],true⟩
        else
          let handled := handleCommand p xdrCmd.dst src
          ⟨[.decode data len,.decode data len,.countCommand] ++ handled.calls,handled.returned⟩

def legacyPacket (p : Process) (data : List Byte) (len : BitVec 64) (src : Address) : Trace :=
  let cmd := data.headD 0
  match LegacyCommands.cmdHandlerCb p.table cmd (data.drop 1) with
  | .error _ => ⟨[.countCommand,.report cmd],false⟩
  | .ok none => ⟨[.countCommand,.report cmd],true⟩
  | .ok (some called) => ⟨[.countCommand,.report cmd,.legacy called.handler called.cmd called.data (len - 1) src],true⟩

def cmdHandlerCb (p : Process) (type : FdEvent) (stack : Stack) (recv : Recv) : Trace :=
  if type = .read then
    let data := stack.received recv
    if 0 < (dataLen recv).toNat then
      if data.headD 0 = 0 then xdrPacket p stack data (dataLen recv) (stack.sender recv)
      else legacyPacket p data (dataLen recv) (stack.sender recv)
    else ⟨[],true⟩
  else ⟨[],true⟩

structure MulticastCommand where
  cmdNum : Int
  callback : Nat
  callbackParam : Nat
  deriving DecidableEq, Repr

def multicastCmdHandlerCb (state : Option (List MulticastCommand)) (type : FdEvent) (stack : Stack) (recv : Recv) : Trace :=
  match state with
  | none => ⟨[],true⟩
  | some cmds =>
    if type = .read then
      let data := stack.received recv
      let num := data.headD 0
      if 0 < (dataLen recv).toNat then
        ⟨.report num :: (cmds.filter fun cmd => cmd.cmdNum < 0 ∨ cmd.cmdNum = (num.toNat : Int)).map fun cmd =>
          .multicast cmd.callback cmd.callbackParam num (data.drop 1) (dataLen recv - 1) (stack.sender recv),true⟩
      else ⟨[],true⟩
    else ⟨[],true⟩

def txCmdHandlerCb (type : FdEvent) (stack : Stack) (recv : Recv) : Trace :=
  if type = .read then
    if 0 < (dataLen recv).toNat then ⟨[.report ((stack.received recv).headD 0)],true⟩ else ⟨[],true⟩
  else ⟨[],true⟩

def Call.Of (bytes : List Byte) : Call → Prop
  | .report cmd => bytes.head? = some cmd
  | .decode data max => max.toNat = bytes.length ∧ data.take bytes.length = bytes
  | .xdrResponse data len _ => len.toNat = bytes.length ∧ data.take bytes.length = bytes
  | .legacy _ cmd data len _ => len.toNat + 1 = bytes.length ∧ bytes = cmd :: data.take len.toNat
  | .multicast _ _ cmd data len _ => len.toNat + 1 = bytes.length ∧ bytes = cmd :: data.take len.toNat
  | _ => True

/- Whatever is done is done about bytes that were received. -/
def Faithful (recv : Recv) (calls : List Call) : Prop :=
  ∀ call ∈ calls, ∃ bytes src fits, recv = .packet bytes src fits ∧ bytes ≠ [] ∧ call.Of bytes

section
variable {stack : Stack} {recv : Recv} {bytes : List Byte} {src : Address} {fits : bytes.length ≤ maxIpPacketSize}

theorem dataLenPacket : (dataLen (.packet bytes src fits)).toNat = bytes.length := by
  have small : bytes.length < 2 ^ 16 := lt_of_le_of_lt fits (by decide)
  have word : (socketRead (.packet bytes src fits)).toNat = bytes.length := by
    rw [socketRead, recvfrom, BitVec.toNat_setWidth, BitVec.toNat_ofNat]
    omega
  have positive : (socketRead (.packet bytes src fits)).msb = false := by
    rw [BitVec.msb_eq_decide, word]
    exact decide_eq_false (by omega)
  rw [dataLen, BitVec.signExtend_eq_setWidth_of_msb_false positive, BitVec.toNat_setWidth, word]
  omega

theorem dataLenIs : dataLen .error = .allOnes 64 := by decide

theorem dataLenError : (dataLen .error).toNat = 2 ^ 64 - 1 := by rw [dataLenIs, BitVec.toNat_allOnes]

theorem receivedTake : (stack.received (.packet bytes src fits)).take bytes.length = bytes := List.take_left

theorem silentFaithful : Faithful recv [] := fun _ member => nomatch member

theorem errorUnfaithful {call : Call} {rest : List Call} : ¬Faithful .error (call :: rest) := by
  intro faithful
  obtain ⟨bytes,src,fits,is,-⟩ := faithful call List.mem_cons_self
  cases is

theorem packetFaithful {calls : List Call} (some_ : bytes ≠ []) (each : ∀ call ∈ calls, call.Of bytes) :
    Faithful (.packet bytes src fits) calls := fun call member => ⟨bytes,src,fits,rfl,some_,each call member⟩

theorem behindFirst (stack : Stack) (src : Address) (fits : bytes.length ≤ maxIpPacketSize) (some_ : bytes ≠ []) :
    ∃ len, dataLen (.packet bytes src fits) - 1 = len ∧ len.toNat + 1 = bytes.length ∧
      bytes = (stack.received (.packet bytes src fits)).headD 0 ::
        ((stack.received (.packet bytes src fits)).drop 1).take len.toNat := by
  have positive := List.length_pos_iff.mpr some_
  have small : bytes.length < 2 ^ 16 := lt_of_le_of_lt fits (by decide)
  have less : (dataLen (.packet bytes src fits) - 1).toNat = bytes.length - 1 := by
    rw [BitVec.toNat_sub, dataLenPacket]
    simp
    omega
  refine ⟨_,rfl,by omega,?_⟩
  rw [less]
  cases bytes with
  | nil => exact absurd rfl some_
  | cons b rest => simp [Stack.received]

theorem decodeOf (stack : Stack) (src : Address) (fits : bytes.length ≤ maxIpPacketSize) :
    (Call.decode (stack.received (.packet bytes src fits)) (dataLen (.packet bytes src fits))).Of bytes :=
  ⟨dataLenPacket,receivedTake⟩

theorem handledOf (p : Process) (command : Val) (from_ : Address) : ∀ call ∈ (handleCommand p command from_).calls, call.Of bytes := by
  unfold handleCommand
  split
  · split
    · exact fun _ member => nomatch member
    all_goals
      intro call member
      rw [List.mem_singleton.mp member]
      trivial
  · exact fun _ member => nomatch member

theorem xdrPacketOf (p : Process) (from_ : Address) : ∀ call ∈ (xdrPacket p stack (stack.received (.packet bytes src fits))
    (dataLen (.packet bytes src fits)) from_).calls, call.Of bytes := by
  have decoded := decodeOf stack src fits
  have response : (Call.xdrResponse (stack.received (.packet bytes src fits)) (dataLen (.packet bytes src fits)) from_).Of bytes :=
    decoded
  have counted : Call.countCommand.Of bytes := trivial
  have counted' : Call.countResponse.Of bytes := trivial
  have twice : ∀ call ∈ [Call.decode (stack.received (.packet bytes src fits)) (dataLen (.packet bytes src fits)),
      .decode (stack.received (.packet bytes src fits)) (dataLen (.packet bytes src fits)),.countCommand], call.Of bytes := by
    simpa using ⟨decoded,counted⟩
  unfold xdrPacket
  split
  · simpa using decoded
  · split
    · simpa using ⟨decoded,counted',response⟩
    split
    · simpa using decoded
    · split
      · exact twice
      · intro call member
        rcases List.mem_append.mp member with first | later
        · exact twice call first
        · exact handledOf p _ _ call later

theorem reportOf (stack : Stack) (src : Address) (fits : bytes.length ≤ maxIpPacketSize) (some_ : bytes ≠ []) :
    (Call.report ((stack.received (.packet bytes src fits)).headD 0)).Of bytes := by
  cases bytes with
  | nil => exact absurd rfl some_
  | cons b rest => rfl

theorem legacyCalled {table : LegacyCommands.Table} {cmd : Byte} {data : List Byte} {called : LegacyCommands.Called}
    (done : LegacyCommands.cmdHandlerCb table cmd data = .ok (some called)) : called.cmd = cmd ∧ called.data = data := by
  unfold LegacyCommands.cmdHandlerCb at done
  dsimp only at done
  split at done
  · cases done
  split at done
  · cases done
  · cases done
    exact ⟨rfl,rfl⟩

theorem legacyPacketOf (p : Process) (from_ : Address) (some_ : bytes ≠ []) : ∀ call ∈ (legacyPacket p
    (stack.received (.packet bytes src fits)) (dataLen (.packet bytes src fits)) from_).calls, call.Of bytes := by
  obtain ⟨len,is,less,rest⟩ := behindFirst stack src fits some_
  have reported := reportOf stack src fits some_
  have counted : Call.countCommand.Of bytes := trivial
  unfold legacyPacket
  generalize (stack.received (.packet bytes src fits)).headD 0 = first at reported rest ⊢
  dsimp only
  rw [is]
  split
  · simpa using ⟨counted,reported⟩
  · simpa using ⟨counted,reported⟩
  · rename_i called done
    obtain ⟨cmd,data⟩ := legacyCalled done
    have legacy : (Call.legacy called.handler called.cmd called.data len from_).Of bytes := by
      rw [cmd, data]
      exact ⟨less,rest⟩
    simpa using ⟨counted,reported,legacy⟩

theorem multicastOf (cmds : List MulticastCommand) (from_ : Address) (some_ : bytes ≠ []) :
    ∀ call ∈ cmds.map fun cmd => Call.multicast cmd.callback cmd.callbackParam ((stack.received (.packet bytes src fits)).headD 0)
      ((stack.received (.packet bytes src fits)).drop 1) (dataLen (.packet bytes src fits) - 1) from_, call.Of bytes := by
  obtain ⟨len,is,less,rest⟩ := behindFirst stack src fits some_
  intro call member
  obtain ⟨cmd,-,rfl⟩ := List.mem_map.mp member
  rw [is]
  exact ⟨less,rest⟩

theorem faithfulIff (trace : Recv → Trace) (reads : Prop) (idle : ¬reads → (trace recv).calls = [])
    (empty : ∀ src fits, (trace (.packet [] src fits)).calls = [])
    (packet : ∀ bytes src fits, bytes ≠ [] → ∀ call ∈ (trace (.packet bytes src fits)).calls, call.Of bytes)
    (error : reads → (trace .error).calls ≠ []) : Faithful recv (trace recv).calls ↔ (reads → recv ≠ .error) := by
  constructor
  · rintro faithful reads rfl
    obtain ⟨call,rest,is⟩ := List.exists_cons_of_ne_nil (error reads)
    rw [is] at faithful
    exact errorUnfaithful faithful
  · intro good
    by_cases on : reads
    · cases recv with
      | error => exact absurd rfl (good on)
      | packet bytes src fits =>
        by_cases none : bytes = []
        · subst none
          rw [empty]
          exact silentFaithful
        · exact packetFaithful none (packet bytes src fits none)
    · rw [idle on]
      exact silentFaithful

theorem xdrPacketActs (p : Process) (data : List Byte) (len : BitVec 64) (from_ : Address) :
    (xdrPacket p stack data len from_).calls ≠ [] := by
  unfold xdrPacket
  split
  · exact List.cons_ne_nil _ _
  split
  · exact List.cons_ne_nil _ _
  split
  · exact List.cons_ne_nil _ _
  split <;> exact List.cons_ne_nil _ _

theorem positiveLen (src : Address) (fits : bytes.length ≤ maxIpPacketSize) (some_ : bytes ≠ []) :
    0 < (dataLen (.packet bytes src fits)).toNat := by
  rw [dataLenPacket]
  exact List.length_pos_iff.mpr some_

theorem emptyLen (src : Address) (fits : ([] : List Byte).length ≤ maxIpPacketSize) : ¬0 < (dataLen (.packet [] src fits)).toNat := by
  rw [dataLenPacket]
  exact Nat.lt_irrefl 0

theorem errorPositive : 0 < (dataLen .error).toNat := by
  rw [dataLenError]
  decide

theorem cmdFaithfulIff (p : Process) (type : FdEvent) :
    Faithful recv (cmdHandlerCb p type stack recv).calls ↔ (type = .read → recv ≠ .error) := by
  refine faithfulIff (cmdHandlerCb p type stack) (type = .read) (fun other => ?_) (fun src fits => ?_)
    (fun bytes src fits some_ => ?_) fun reads => ?_
  · rw [cmdHandlerCb, if_neg other]
  · unfold cmdHandlerCb
    dsimp only
    rw [if_neg (emptyLen src fits)]
    split <;> rfl
  · unfold cmdHandlerCb
    dsimp only
    rw [if_pos (positiveLen src fits some_)]
    split
    · split
      · exact xdrPacketOf p _
      · exact legacyPacketOf p _ some_
    · exact fun _ member => nomatch member
  · have first : (stack.received .error).headD 0 = 0 := rfl
    unfold cmdHandlerCb
    dsimp only
    rw [if_pos reads, if_pos errorPositive, if_pos first]
    exact xdrPacketActs p _ _ _

theorem multicastFaithfulIff (cmds : List MulticastCommand) (type : FdEvent) :
    Faithful recv (multicastCmdHandlerCb (some cmds) type stack recv).calls ↔ (type = .read → recv ≠ .error) := by
  refine faithfulIff (multicastCmdHandlerCb (some cmds) type stack) (type = .read) (fun other => ?_) (fun src fits => ?_)
    (fun bytes src fits some_ => ?_) fun reads => ?_
  · simp only [multicastCmdHandlerCb]
    rw [if_neg other]
  · simp only [multicastCmdHandlerCb]
    rw [if_neg (emptyLen src fits)]
    split <;> rfl
  · simp only [multicastCmdHandlerCb]
    rw [if_pos (positiveLen src fits some_)]
    split
    · exact List.forall_mem_cons.mpr ⟨reportOf stack src fits some_,multicastOf _ _ some_⟩
    · exact fun _ member => nomatch member
  · simp only [multicastCmdHandlerCb]
    rw [if_pos reads, if_pos errorPositive]
    exact List.cons_ne_nil _ _

theorem txFaithfulIff (type : FdEvent) : Faithful recv (txCmdHandlerCb type stack recv).calls ↔ (type = .read → recv ≠ .error) := by
  refine faithfulIff (txCmdHandlerCb type stack) (type = .read) (fun other => ?_) (fun src fits => ?_)
    (fun bytes src fits some_ => ?_) fun reads => ?_
  · rw [txCmdHandlerCb, if_neg other]
  · unfold txCmdHandlerCb
    rw [if_neg (emptyLen src fits)]
    split <;> rfl
  · unfold txCmdHandlerCb
    rw [if_pos (positiveLen src fits some_)]
    split
    · exact List.forall_mem_singleton.mpr (reportOf stack src fits some_)
    · exact fun _ member => nomatch member
  · unfold txCmdHandlerCb
    rw [if_pos reads, if_pos errorPositive]
    exact List.cons_ne_nil _ _

end

/- Each of the callbacks does what it does about the bytes of a packet, and about nothing else, just when
recvfrom did not fail: for every content of the stack, every packet and every table. -/
theorem receivesFaithfulIff (p : Process) (state : Option (List MulticastCommand)) (type : FdEvent) (stack : Stack) (recv : Recv) :
    (Faithful recv (cmdHandlerCb p type stack recv).calls ↔ (type = .read → recv ≠ .error)) ∧
      (Faithful recv (multicastCmdHandlerCb state type stack recv).calls ↔ (type = .read → state ≠ none → recv ≠ .error)) ∧
      (Faithful recv (txCmdHandlerCb type stack recv).calls ↔ (type = .read → recv ≠ .error)) := by
  refine ⟨cmdFaithfulIff p type,?_,txFaithfulIff type⟩
  cases state with
  | none => exact iff_of_true silentFaithful fun _ there => absurd rfl there
  | some cmds =>
    rw [multicastFaithfulIff]
    exact ⟨fun good reads _ => good reads,fun good reads => good reads (Option.some_ne_none cmds)⟩

theorem errorResponse (p : Process) {stack : Stack} {rest : List Byte} (left : stack.received .error = beBytes cmdsResponse ++ rest) :
    (cmdHandlerCb p .read stack .error).calls =
      [.decode (stack.received .error) (.allOnes 64),.countResponse,.xdrResponse (stack.received .error) (.allOnes 64) stack.src] := by
  have positive := errorPositive
  have fits : 4 ≤ (dataLen .error).toNat := by
    rw [dataLenError]
    decide
  rw [← dataLenIs]
  unfold cmdHandlerCb xdrPacket
  generalize dataLen .error = len at positive fits ⊢
  have first : (beBytes cmdsResponse ++ rest).headD 0 = 0 := rfl
  have word : decodeUint32 (beBytes cmdsResponse ++ rest) (.word stack.cmdNum) 0 len.toNat none [] =
      .ok ⟨0,4,.word cmdsResponse⟩ := by
    rw [decodeUint32, decodeWordReads fits]
    rfl
  dsimp only
  simp only [left,positive,first,word,wordAt,if_true]
  rfl

def earlier : Stack :=
  ⟨[7,0,1,0] ++ List.replicate 65531 0,by rw [List.length_append, List.length_replicate]; rfl,⟨0,0⟩,0⟩

def bareProcess : Process := ⟨sampleEnv,0,LegacyCommands.dirty,fun _ => none⟩

theorem errorTakenForResponse :
    (cmdHandlerCb bareProcess .read earlier .error).calls = [.decode (earlier.received .error) (.allOnes 64),.countResponse,
      .xdrResponse (earlier.received .error) (.allOnes 64) ⟨0,0⟩] ∧
      ¬Faithful .error (cmdHandlerCb bareProcess .read earlier .error).calls := by
  have left : earlier.received .error = beBytes cmdsResponse ++ List.replicate 65531 0 := by
    simp only [Stack.received,earlier]
    generalize List.replicate 65531 (0 : Byte) = rest
    rfl
  have calls := errorResponse bareProcess left
  refine ⟨calls,?_⟩
  rw [calls]
  exact errorUnfaithful

end LibProc.Receives
