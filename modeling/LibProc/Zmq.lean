import LibProc.Buffers

/-! The ZMQ framing of the debugger connection. `zmqlClientProcess` is the buffer
callback of one client: three handshake states, then frames. A frame has a flag byte
and a length of one byte or, when the flags say so, of eight. Plain `char` is signed,
so the one-byte length is sign extended to the 64 bits it is compared in. -/
namespace LibProc.Zmq
open XdrBytes Buffers

inductive ZmqlState where
  | signature | vers1 | auth | data
  deriving DecidableEq, Repr

def zmqSignatureData : List Byte := [0xFF,0,0,0,0,0,0,0,1,0x7F]
def zmqVersData : List Byte := [0x03]
def zmqAuthData : List Byte := [0,0x4E,0x55,0x4C,0x4C] ++ List.replicate 48 0
def zmqHandshakeData : List Byte :=
  [0x04,0x1A,0x05,0x52,0x45,0x41,0x44,0x59,0x0B,0x53,0x6F,0x63,0x6B,0x65,0x74,0x2D,
    0x54,0x79,0x70,0x65,0,0,0,0x04,0x50,0x41,0x49,0x52]

def zmqLongSize : Byte := 0x2
def zmqCommand : Byte := 0x4

structure ZmqlClient where
  state : ZmqlState
  closeFlag : Bool
  msgCb : Bool
  connectCb : Bool
  deriving DecidableEq, Repr

inductive ZmqlEvent where
  | rawWrite (bytes : List Byte)
  | connect
  | message (start len : Nat)
  deriving DecidableEq, Repr

def htonl (w : BitVec 32) : BitVec 32 := hostWord (beBytes w)
def ntohl (w : BitVec 32) : BitVec 32 := beWord (hostBytes w)
def htonll (d : BitVec 64) : BitVec 64 := join (htonl (low d)) (htonl (high d))
def ntohll (d : BitVec 64) : BitVec 64 := join (ntohl (low d)) (ntohl (high d))

def handshake (client : ZmqlClient) (greeting : List Byte) (next : ZmqlState)
    (reply : List ZmqlEvent) (data : List Byte) : CbResult ZmqlClient ZmqlEvent :=
  if data.length < greeting.length then ⟨client,0,[]⟩
  else if data.take greeting.length = greeting then
    ⟨{ client with state := next },greeting.length,reply⟩
  else ⟨{ client with closeFlag := true },0,[]⟩

def frameHeader (data : List Byte) : Option (Nat × Nat) :=
  if data.headD 0 &&& zmqLongSize ≠ 0 then
    if data.length < 9 then none
    else some (9,(ntohll (hostWord64 ((data.drop 1).take 8))).toNat)
  else if data.length < 2 then none
  else some (2,((data.getD 1 0).signExtend 64).toNat)

def zmqlClientData (client : ZmqlClient) (pos : Nat) (data : List Byte) :
    CbResult ZmqlClient ZmqlEvent :=
  if data.length < 1 then ⟨client,0,[]⟩
  else
    (frameHeader data).elim ⟨client,0,[]⟩ fun header =>
      let total := (header.1 + header.2) % 2 ^ 64
      if data.length < total then ⟨client,0,[]⟩
      else if data.headD 0 &&& zmqCommand = 0 ∧ client.msgCb then
        ⟨client,total,[.message (pos + header.1) header.2]⟩
      else ⟨client,total,[]⟩

def zmqlClientProcess : BufferCb ZmqlClient ZmqlEvent := fun client pos data =>
  match client.state with
  | .signature => handshake client zmqSignatureData .vers1 [.rawWrite zmqVersData] data
  | .vers1 => handshake client zmqVersData .auth [.rawWrite zmqAuthData] data
  | .auth => handshake client zmqAuthData .data
      (.rawWrite zmqHandshakeData :: if client.connectCb then [.connect] else []) data
  | .data => zmqlClientData client pos data

def zmqlWriteBuffer (client : ZmqlClient) (msg : IpcBuffer) : List Byte :=
  if client.state ≠ .data then []
  else
    let len := ipcBufferSize msg
    if len ≤ 255 then [0,BitVec.ofNat 8 len] ++ msg.contents
    else zmqLongSize :: hostBytes64 (htonll (BitVec.ofNat 64 len)) ++ msg.contents

theorem ntohlHostWord (a b c d : Byte) : ntohl (hostWord [a,b,c,d]) = beWord [a,b,c,d] := by
  rw [ntohl, hostBytes, hostWord]
  simp only [List.reverse_cons,List.reverse_nil,List.nil_append,List.cons_append]
  rw [beBytesWord]
  rfl

theorem ntohlHtonl (w : BitVec 32) : ntohl (htonl w) = w := by
  rw [htonl, beBytes, ntohlHostWord]
  exact beWordBytes w

theorem highJoin (hi lo : BitVec 32) : high (join hi lo) = hi := by
  apply BitVec.eq_of_getLsbD_eq
  intro i small
  simp only [high,join,BitVec.getLsbD_extractLsb',BitVec.getLsbD_append]
  simp [small]

theorem lowJoin (hi lo : BitVec 32) : low (join hi lo) = lo := by
  apply BitVec.eq_of_getLsbD_eq
  intro i small
  simp only [low,join,BitVec.getLsbD_extractLsb',BitVec.getLsbD_append]
  simp [small]

theorem ntohllHtonll (d : BitVec 64) : ntohll (htonll d) = d := by
  rw [ntohll, htonll, lowJoin, highJoin, ntohlHtonl, ntohlHtonl, joinHalves]

/- The header of a frame as it is read back: a short length of 128 or more comes back
negative, that is, just below 2 ^ 64. -/
theorem headerShort {n : Nat} (short : n < 128) (rest : List Byte) :
    frameHeader ([0,BitVec.ofNat 8 n] ++ rest) = some (2,n) := by
  have plain : (BitVec.ofNat 8 n).msb = false := by
    rw [BitVec.msb_eq_false_iff_two_mul_lt, BitVec.toNat_ofNat]
    omega
  have value : ((BitVec.ofNat 8 n).signExtend 64).toNat = n := by
    rw [BitVec.signExtend_eq_setWidth_of_msb_false plain, BitVec.toNat_setWidth, BitVec.toNat_ofNat]
    omega
  simp [frameHeader,zmqLongSize,value]

theorem headerSigned {n : Nat} (low : 128 ≤ n) (high : n ≤ 255) (rest : List Byte) :
    frameHeader ([0,BitVec.ofNat 8 n] ++ rest) = some (2,2 ^ 64 - 256 + n) := by
  have negative : (BitVec.ofNat 8 n).msb = true := by
    rw [BitVec.msb_eq_true_iff_two_mul_ge, BitVec.toNat_ofNat]
    omega
  have value : ((BitVec.ofNat 8 n).signExtend 64).toNat = 2 ^ 64 - 256 + n := by
    rw [BitVec.toNat_signExtend, negative, BitVec.toNat_setWidth, BitVec.toNat_ofNat, if_pos rfl]
    omega
  simp [frameHeader,zmqLongSize,value]

theorem headerLong {n : Nat} (fits : n < 2 ^ 64) (rest : List Byte) :
    frameHeader (zmqLongSize :: hostBytes64 (htonll (BitVec.ofNat 64 n)) ++ rest) = some (9,n) := by
  have width : (hostBytes64 (htonll (BitVec.ofNat 64 n))).length = 8 := rfl
  have taken : (hostBytes64 (htonll (BitVec.ofNat 64 n)) ++ rest).take 8 =
      hostBytes64 (htonll (BitVec.ofNat 64 n)) := by
    rw [← width, List.take_left]
  have value : (ntohll (hostWord64 (hostBytes64 (htonll (BitVec.ofNat 64 n))))).toNat = n := by
    rw [hostWordBytes64, ntohllHtonll, BitVec.toNat_ofNat, Nat.mod_eq_of_lt fits]
  have long : ¬((zmqLongSize :: (hostBytes64 (htonll (BitVec.ofNat 64 n)) ++ rest)).length < 9) := by
    simp only [List.length_append,List.length_cons,width]
    omega
  have flag : zmqLongSize &&& zmqLongSize ≠ 0 := by decide
  rw [frameHeader, List.cons_append, List.headD_cons, if_pos flag, if_neg long, List.drop_succ_cons,
    List.drop_zero, taken, value]

def headerSize (bytes : List Byte) : Nat := if bytes.length ≤ 255 then 2 else 9

def frame (bytes : List Byte) : List Byte :=
  if bytes.length ≤ 255 then [0,BitVec.ofNat 8 bytes.length] ++ bytes
  else zmqLongSize :: hostBytes64 (htonll (BitVec.ofNat 64 bytes.length)) ++ bytes

theorem writeBufferFrame {writer : ZmqlClient} (ready : writer.state = .data) {msg : IpcBuffer}
    (sound : msg.Sound) : zmqlWriteBuffer writer msg = frame msg.contents := by
  have accepted : ¬writer.state ≠ .data := by simp [ready]
  rw [zmqlWriteBuffer, if_neg accepted, frame, contentsLength sound]
  rfl

@[simp] theorem frameLength (bytes : List Byte) : (frame bytes).length = headerSize bytes + bytes.length := by
  rw [frame, headerSize]
  split
  · simp only [List.length_append,List.length_cons,List.length_nil]
  · have width : (hostBytes64 (htonll (BitVec.ofNat 64 bytes.length))).length = 8 := rfl
    simp only [List.length_append,List.length_cons,width]

theorem frameDrop (bytes : List Byte) : (frame bytes).drop (headerSize bytes) = bytes := by
  rw [frame, headerSize]
  split <;> rfl

def Carried (n : Nat) : Prop := n < 128 ∨ 255 < n

instance decideCarried (n : Nat) : Decidable (Carried n) := inferInstanceAs (Decidable (_ ∨ _))

theorem frameHeaderCarried {bytes : List Byte} (carried : Carried bytes.length)
    (fits : bytes.length < 2 ^ 64) (rest : List Byte) :
    frameHeader (frame bytes ++ rest) = some (headerSize bytes,bytes.length) := by
  rw [frame, headerSize]
  split
  · rename_i short
    rw [List.append_assoc]
    exact headerShort (carried.resolve_right (by omega)) _
  · rw [List.append_assoc]
    exact headerLong fits _

theorem frameFlags (bytes : List Byte) (rest : List Byte) :
    (frame bytes ++ rest).headD 0 &&& zmqCommand = 0 := by
  rw [frame]
  split
  · show (0 : Byte) &&& zmqCommand = 0
    decide
  · show zmqLongSize &&& zmqCommand = 0
    decide

section
variable {client : ZmqlClient} (inData : client.state = .data) (listens : client.msgCb = true)
include inData

theorem processHeader {data : List Byte} {off len : Nat} (header : frameHeader data = some (off,len))
    (some : data ≠ []) (pos : Nat) :
    zmqlClientProcess client pos data =
      if data.length < (off + len) % 2 ^ 64 then ⟨client,0,[]⟩
      else if data.headD 0 &&& zmqCommand = 0 ∧ client.msgCb then
        ⟨client,(off + len) % 2 ^ 64,[.message (pos + off) len]⟩
      else ⟨client,(off + len) % 2 ^ 64,[]⟩ := by
  have long : ¬data.length < 1 := by
    have := List.length_pos_iff.mpr some
    omega
  simp only [zmqlClientProcess,inData,zmqlClientData,long,if_false,header,Option.elim_some]

include listens

theorem processFrame {bytes rest : List Byte} (carried : Carried bytes.length)
    (fits : (frame bytes ++ rest).length < 2 ^ 64) (pos : Nat) :
    zmqlClientProcess client pos (frame bytes ++ rest) =
      ⟨client,(frame bytes).length,[.message (pos + headerSize bytes) bytes.length]⟩ := by
  rw [List.length_append] at fits
  have size := frameLength bytes
  have head : 0 < headerSize bytes := by
    rw [headerSize]
    split <;> omega
  have header := frameHeaderCarried carried (by omega) rest
  have some : frame bytes ++ rest ≠ [] := by
    rw [← List.length_pos_iff, List.length_append]
    omega
  have total : (headerSize bytes + bytes.length) % 2 ^ 64 = (frame bytes).length := by
    rw [Nat.mod_eq_of_lt (by omega), size]
  have whole : ¬(frame bytes ++ rest).length < (frame bytes).length := by
    rw [List.length_append]
    omega
  rw [processHeader inData header some pos, total, if_neg whole, if_pos ⟨frameFlags bytes rest,listens⟩]

/- A frame whose length comes back negative is never taken whole: the reader waits for
bytes that cannot come or, at 255, hands on a payload of 2 ^ 64 - 1 bytes. -/
theorem processSigned {bytes rest : List Byte} (low : 128 ≤ bytes.length)
    (high : bytes.length ≤ 255) (pos : Nat) :
    (zmqlClientProcess client pos (frame bytes ++ rest)).used = 0 ∨
      (zmqlClientProcess client pos (frame bytes ++ rest)).events =
        [.message (pos + 2) (2 ^ 64 - 256 + bytes.length)] := by
  have form : frame bytes ++ rest = [0,BitVec.ofNat 8 bytes.length] ++ (bytes ++ rest) := by
    rw [frame, if_pos high, List.append_assoc]
  have header := headerSigned low high (bytes ++ rest)
  rw [← form] at header
  have some : frame bytes ++ rest ≠ [] := by
    rw [form]
    exact List.cons_ne_nil _ _
  rw [processHeader inData header some pos]
  split
  · exact .inl rfl
  · right
    rw [if_pos ⟨frameFlags bytes rest,listens⟩]

end

def payload (stream : List Byte) (start len : Nat) : Option (List Byte) :=
  if start + len ≤ stream.length then some ((stream.drop start).take len) else none

def ZmqlEvent.received (stream : List Byte) : ZmqlEvent → Option (Option (List Byte))
  | .message start len => some (payload stream start len)
  | _ => none

def delivered (stream : List Byte) (events : List ZmqlEvent) : List (Option (List Byte)) :=
  events.filterMap (ZmqlEvent.received stream)

theorem deliveredAppend (stream : List Byte) (a b : List ZmqlEvent) :
    delivered stream (a ++ b) = delivered stream a ++ delivered stream b :=
  List.filterMap_append

theorem payloadLength {stream bytes : List Byte} {start len : Nat}
    (whole : payload stream start len = some bytes) : bytes.length = len := by
  rw [payload] at whole
  split at whole
  · cases whole
    rw [List.length_take, List.length_drop]
    omega
  · cases whole

theorem payloadFrame (before bytes rest : List Byte) :
    payload (before ++ (frame bytes ++ rest)) (before.length + headerSize bytes) bytes.length =
      some bytes := by
  have size := frameLength bytes
  have inside : before.length + headerSize bytes + bytes.length ≤
      (before ++ (frame bytes ++ rest)).length := by
    simp only [List.length_append]
    omega
  rw [payload, if_pos inside, List.drop_append, List.drop_of_length_le (by omega), List.nil_append,
    Nat.add_sub_cancel_left, List.drop_append_of_le_length (by omega), frameDrop, List.take_left]

theorem processUsed (client : ZmqlClient) (pos : Nat) (data : List Byte) :
    (zmqlClientProcess client pos data).used ≤ data.length := by
  have greet : ∀ greeting next reply, (handshake client greeting next reply data).used ≤ data.length := by
    intro greeting next reply
    rw [handshake]
    split
    · exact Nat.zero_le _
    · split
      · show greeting.length ≤ data.length
        omega
      · exact Nat.zero_le _
  cases state : client.state with
  | signature =>
    simp only [zmqlClientProcess,state]
    exact greet _ _ _
  | vers1 =>
    simp only [zmqlClientProcess,state]
    exact greet _ _ _
  | auth =>
    simp only [zmqlClientProcess,state]
    exact greet _ _ _
  | data =>
    cases head : frameHeader data with
    | none =>
      simp only [zmqlClientProcess,state,zmqlClientData,head,Option.elim_none,ite_self]
      exact Nat.zero_le _
    | some header =>
      by_cases empty : data = []
      · simp [zmqlClientProcess,state,zmqlClientData,empty]
      rw [processHeader state head empty pos]
      split
      · exact Nat.zero_le _
      · split
        · show (header.1 + header.2) % 2 ^ 64 ≤ data.length
          omega
        · show (header.1 + header.2) % 2 ^ 64 ≤ data.length
          omega

theorem processEmpty {client : ZmqlClient} (inData : client.state = .data) (pos : Nat) :
    zmqlClientProcess client pos [] = ⟨client,0,[]⟩ := by
  simp [zmqlClientProcess,inData,zmqlClientData]

def ReadBack (reader : ZmqlClient) (before : List Byte) (msgs : List (List Byte)) : Prop :=
  ∃ done, processLoop zmqlClientProcess reader before.length (msgs.map frame).flatten = some done ∧
    done.used = before.length + (msgs.map frame).flatten.length ∧
    delivered (before ++ (msgs.map frame).flatten) done.events = msgs.map some

section
variable {reader : ZmqlClient} (inData : reader.state = .data) (listens : reader.msgCb = true)
include inData listens

theorem readBackCons {before bytes : List Byte} {msgs : List (List Byte)}
    (carried : Carried bytes.length)
    (fits : (frame bytes ++ (msgs.map frame).flatten).length < 2 ^ 64) :
    ReadBack reader before (bytes :: msgs) ↔ ReadBack reader (before ++ frame bytes) msgs := by
  have call := processFrame inData listens carried fits before.length
  have size := frameLength bytes
  have more : (frame bytes).length ≠ 0 := by
    rw [size, headerSize]
    split <;> omega
  have next := processLoopNext (show (zmqlClientProcess reader before.length
    (frame bytes ++ (msgs.map frame).flatten)).used ≠ 0 by rw [call]; exact more)
    (processUsed reader before.length _)
  rw [call] at next
  have first := payloadFrame before bytes (msgs.map frame).flatten
  simp only [ReadBack,List.map_cons,List.flatten_cons,next,List.drop_left,List.length_append,
    List.append_assoc,Option.map_eq_some_iff]
  constructor
  · rintro ⟨done,⟨later,ran,rfl⟩,all,got⟩
    refine ⟨later,ran,?_,?_⟩
    · simp only at all
      omega
    · simp only [delivered,List.filterMap_cons,ZmqlEvent.received,first,List.cons_append,
        List.nil_append,List.cons.injEq] at got
      exact got.2
  · rintro ⟨later,ran,all,got⟩
    refine ⟨_,⟨later,ran,rfl⟩,?_,?_⟩
    · simp only
      omega
    · simp only [deliveredAppend,got]
      simp only [delivered,List.filterMap_cons,ZmqlEvent.received,List.filterMap_nil,first,
        List.cons_append,List.nil_append]

theorem readBackSigned {before bytes : List Byte} {msgs : List (List Byte)}
    (low : 128 ≤ bytes.length) (high : bytes.length ≤ 255) :
    ¬ReadBack reader before (bytes :: msgs) := by
  rintro ⟨done,ran,all,got⟩
  simp only [List.map_cons,List.flatten_cons] at ran all got
  have size := frameLength bytes
  rcases Nat.eq_zero_or_pos (zmqlClientProcess reader before.length
    (frame bytes ++ (msgs.map frame).flatten)).used with stop | more
  · rw [processLoopStop stop] at ran
    cases ran
    simp only [List.length_append] at all
    omega
  · have event := (processSigned inData listens low high before.length).resolve_left
      (Nat.pos_iff_ne_zero.mp more)
    rw [processLoopNext (Nat.pos_iff_ne_zero.mp more) (processUsed reader before.length _)] at ran
    obtain ⟨later,-,rfl⟩ := Option.map_eq_some_iff.mp ran
    simp only [event,delivered,List.filterMap_cons,ZmqlEvent.received,List.cons_append,
      List.nil_append,List.cons.injEq] at got
    have wrong := payloadLength got.1
    omega

theorem readBackIff (before : List Byte) (msgs : List (List Byte))
    (fits : (msgs.map frame).flatten.length < 2 ^ 64) :
    ReadBack reader before msgs ↔ ∀ bytes ∈ msgs, Carried bytes.length := by
  induction msgs generalizing before with
  | nil =>
    have empty := processEmpty inData before.length
    have stop := processLoopStop (show (zmqlClientProcess reader before.length []).used = 0 by
      rw [empty])
    rw [empty] at stop
    simp only [List.not_mem_nil,false_implies,implies_true,iff_true]
    exact ⟨_,stop,rfl,rfl⟩
  | cons bytes msgs ih =>
    rw [List.map_cons, List.flatten_cons] at fits
    rw [List.forall_mem_cons]
    by_cases carried : Carried bytes.length
    · rw [readBackCons inData listens carried fits, ih]
      · simp only [carried,true_and]
      · rw [List.length_append] at fits
        omega
    · have lost : ¬ReadBack reader before (bytes :: msgs) := by
        rw [Carried] at carried
        exact readBackSigned inData listens (by omega) (by omega)
      simp only [lost,carried,false_and]

end

def RoundTrips (reader : ZmqlClient) (msgs : List IpcBuffer) (input : IpcBuffer) : Prop :=
  ∃ kept done, ipcProcessBuffer input zmqlClientProcess reader = some (kept,done) ∧
    done.used = input.dataLen ∧
    delivered input.contents done.events = msgs.map (fun msg => some msg.contents)

theorem framingRoundTrip (writer reader : ZmqlClient) (writes : writer.state = .data)
    (reads : reader.state = .data) (listens : reader.msgCb = true) (msgs : List IpcBuffer)
    (sound : ∀ msg ∈ msgs, msg.Sound) (input : IpcBuffer) (held : input.Sound)
    (stream : input.contents = (msgs.map (zmqlWriteBuffer writer)).flatten)
    (size : input.dataLen < 2 ^ 64) :
    RoundTrips reader msgs input ↔ ∀ msg ∈ msgs, msg.dataLen < 128 ∨ 255 < msg.dataLen := by
  have frames : input.contents = ((msgs.map IpcBuffer.contents).map frame).flatten := by
    rw [stream, List.map_map]
    congr 1
    exact List.map_congr_left fun msg member => writeBufferFrame writes (sound msg member)
  have length := contentsLength held
  have back : RoundTrips reader msgs input ↔ ReadBack reader [] (msgs.map IpcBuffer.contents) := by
    rw [RoundTrips, ReadBack, ← frames, exists_comm]
    simp only [← and_assoc,exists_and_right,processBufferLoop held (processEmpty reads 0),
      List.length_nil,Nat.zero_add,List.nil_append,length,List.map_map,Function.comp_def]
  rw [back, readBackIff reads listens]
  · rw [List.forall_mem_map]
    exact forall₂_congr fun msg member => by rw [Carried, contentsLength (sound msg member)]
  · rw [← frames, length]
    exact size

def openClient : ZmqlClient := { state := .data, closeFlag := false, msgCb := true, connectCb := false }

def heldBytes (bytes : List Byte) : IpcBuffer :=
  { allocLen := bytes.length, dataLen := bytes.length, data := some bytes }

theorem heldSound (bytes : List Byte) : (heldBytes bytes).Sound := Nat.le_refl _

theorem heldContents (bytes : List Byte) : (heldBytes bytes).contents = bytes := List.take_length

theorem framingRoundTripThree :
    let msgs := [heldBytes [1,2,3],heldBytes [],heldBytes (List.replicate 256 7)]
    RoundTrips openClient msgs (heldBytes (msgs.map (zmqlWriteBuffer openClient)).flatten) :=
  (framingRoundTrip openClient openClient rfl rfl rfl _ (by decide +kernel) _ (heldSound _)
    (heldContents _) (by decide +kernel)).mpr (by decide +kernel)

/- 128 bytes: the reader waits for 2 ^ 64 - 126 bytes, and nothing is delivered. -/
theorem framingStall :
    ¬RoundTrips openClient [heldBytes (List.replicate 128 7)]
      (heldBytes (zmqlWriteBuffer openClient (heldBytes (List.replicate 128 7)))) := by
  rintro ⟨kept,done,ran,used,-⟩
  have stalled : (ipcProcessBuffer (heldBytes (zmqlWriteBuffer openClient
      (heldBytes (List.replicate 128 7)))) zmqlClientProcess openClient).map
      (fun after => after.2.used) = some 0 := by decide +kernel
  have length : (heldBytes (zmqlWriteBuffer openClient
      (heldBytes (List.replicate 128 7)))).dataLen = 130 := by decide +kernel
  rw [ran, Option.map_some, used, length] at stalled
  exact absurd stalled (by decide)

def beWord64 (bs : List Byte) : BitVec 64 := join (beWord (bs.take 4)) (beWord (bs.drop 4))

theorem ntohllHostWord64 {bs : List Byte} (width : bs.length = 8) :
    ntohll (hostWord64 bs) = beWord64 bs := by
  obtain ⟨a,b,c,d,e,f,g,h,rfl⟩ : ∃ a b c d e f g h : Byte, bs = [a,b,c,d,e,f,g,h] := by
    iterate 8
      rcases bs with - | ⟨_,bs⟩
      · simp at width
    simp only [List.length_cons] at width
    obtain rfl := List.length_eq_zero_iff.mp (show bs.length = 0 by omega)
    exact ⟨_,_,_,_,_,_,_,_,rfl⟩
  rw [ntohll, hostWord64, lowJoin, highJoin]
  exact congrArg₂ join (ntohlHostWord a b c d) (ntohlHostWord e f g h)

def Wrapping (client : ZmqlClient) (data : List Byte) : Prop :=
  client.state = .data ∧ client.msgCb = true ∧ data.headD 0 &&& zmqCommand = 0 ∧
    ((data.headD 0 &&& zmqLongSize ≠ 0 ∧ 9 ≤ data.length ∧
        2 ^ 64 - 9 ≤ (beWord64 ((data.drop 1).take 8)).toNat) ∨
      (data.headD 0 &&& zmqLongSize = 0 ∧ 2 ≤ data.length ∧ 254 ≤ (data.getD 1 0).toNat))

instance decideWrapping (client : ZmqlClient) (data : List Byte) : Decidable (Wrapping client data) :=
  inferInstanceAs (Decidable (_ ∧ _))

theorem frameHeaderBounds {data : List Byte} {off len : Nat}
    (header : frameHeader data = some (off,len)) :
    off ≤ data.length ∧ off ≤ 9 ∧ len < 2 ^ 64 := by
  rw [frameHeader] at header
  split at header
  · split at header
    · cases header
    · cases header
      exact ⟨by omega,Nat.le_refl _,BitVec.isLt _⟩
  · split at header
    · cases header
    · cases header
      exact ⟨by omega,by omega,BitVec.isLt _⟩

theorem signExtendHigh (b : Byte) : 2 ^ 64 - 2 ≤ (b.signExtend 64).toNat ↔ 254 ≤ b.toNat := by
  have small := b.isLt
  rw [BitVec.toNat_signExtend, BitVec.toNat_setWidth]
  by_cases negative : b.msb = true
  · rw [if_pos negative]
    omega
  · have plain := BitVec.msb_eq_false_iff_two_mul_lt.mp (Bool.not_eq_true _ ▸ negative)
    rw [if_neg negative]
    omega

theorem frameHeaderWraps {client : ZmqlClient} (inData : client.state = .data) {data : List Byte}
    {off len : Nat} (header : frameHeader data = some (off,len)) :
    Wrapping client data ↔
      (data.headD 0 &&& zmqCommand = 0 ∧ client.msgCb = true) ∧ 2 ^ 64 ≤ off + len := by
  rw [frameHeader] at header
  by_cases long : data.headD 0 &&& zmqLongSize ≠ 0
  · rw [if_pos long] at header
    split at header
    · cases header
    rename_i enough
    cases header
    have width : ((data.drop 1).take 8).length = 8 := by
      rw [List.length_take, List.length_drop]
      omega
    rw [Wrapping, ntohllHostWord64 width]
    simp only [inData,long,not_lt.mp enough,false_and,or_false,true_and,ne_eq,not_false_eq_true]
    constructor
    · rintro ⟨listens,message,high⟩
      exact ⟨⟨message,listens⟩,by omega⟩
    · rintro ⟨⟨message,listens⟩,high⟩
      exact ⟨listens,message,by omega⟩
  · rw [if_neg long] at header
    rw [not_not] at long
    split at header
    · cases header
    rename_i enough
    cases header
    have high := signExtendHigh (data.getD 1 0)
    rw [Wrapping]
    simp only [inData,long,not_lt.mp enough,false_and,false_or,true_and,ne_eq,not_true_eq_false]
    constructor
    · rintro ⟨listens,message,big⟩
      have := high.mpr big
      exact ⟨⟨message,listens⟩,by omega⟩
    · rintro ⟨⟨message,listens⟩,big⟩
      exact ⟨listens,message,high.mp (by omega)⟩

def PayloadsInside (client : ZmqlClient) (pos : Nat) (data : List Byte) : Prop :=
  ∀ start len, .message start len ∈ (zmqlClientProcess client pos data).events →
    pos ≤ start ∧ start + len ≤ pos + data.length

theorem payloadsInsideHandshake {client : ZmqlClient} (state : client.state ≠ .data) (pos : Nat)
    (data : List Byte) : PayloadsInside client pos data := by
  have none : ∀ greeting next reply start len, .message start len ∉ reply →
      .message start len ∉ (handshake client greeting next reply data).events := by
    intro greeting next reply start len absent
    rw [handshake]
    split
    · exact List.not_mem_nil
    · split
      · exact absent
      · exact List.not_mem_nil
  intro start len member
  simp only [zmqlClientProcess] at member
  split at member
  · exact absurd member (none _ _ _ start len (by simp))
  · exact absurd member (none _ _ _ start len (by simp))
  · exact absurd member (none _ _ _ start len (by split <;> simp))
  · contradiction

theorem payloadsInsideFrame {client : ZmqlClient} (inData : client.state = .data) (pos : Nat)
    {data : List Byte} (size : data.length < 2 ^ 64) {off len : Nat}
    (header : frameHeader data = some (off,len)) :
    PayloadsInside client pos data ↔ ¬Wrapping client data := by
  obtain ⟨offInside,offSmall,lenSmall⟩ := frameHeaderBounds header
  have some : data ≠ [] := by
    rintro rfl
    simp [frameHeader] at header
  rw [frameHeaderWraps inData header, PayloadsInside, processHeader inData header some pos]
  by_cases wraps : 2 ^ 64 ≤ off + len
  · -- the wrapped end is below the header size, so the length test always passes
    have fits : ¬data.length < (off + len) % 2 ^ 64 := by omega
    rw [if_neg fits]
    split
    · rename_i called
      simp only [called,wraps,and_self,not_true,iff_false]
      intro inside
      have := (inside (pos + off) len List.mem_cons_self).2
      omega
    · rename_i silent
      simp only [silent,false_and,not_false_eq_true,iff_true]
      intro start len member
      cases member
  · simp only [wraps,and_false,not_false_eq_true,iff_true]
    intro start len' member
    split at member
    · cases member
    · split at member
      · obtain ⟨rfl,rfl⟩ : start = pos + off ∧ len' = len := by simpa using member
        omega
      · cases member

theorem hostileBounds (client : ZmqlClient) (pos : Nat) (data : List Byte)
    (size : data.length < 2 ^ 64) :
    (PayloadsInside client pos data ∧ (zmqlClientProcess client pos data).used ≤ data.length ∧
      ∀ buffer, ∃ after, ipcProcessBuffer buffer zmqlClientProcess client = some after ∧
        after.2.used ≤ buffer.dataLen) ↔ ¬Wrapping client data := by
  have used := processUsed client pos data
  have walk : ∀ buffer, ∃ after, ipcProcessBuffer buffer zmqlClientProcess client = some after ∧
      after.2.used ≤ buffer.dataLen :=
    fun buffer => processBufferBounded processUsed buffer client
  simp only [used,walk,implies_true,and_true]
  by_cases state : client.state = .data
  · cases header : frameHeader data with
    | none =>
      have quiet : (zmqlClientProcess client pos data).events = [] := by
        simp only [zmqlClientProcess,state,zmqlClientData,header,Option.elim_none,ite_self]
      have short : ¬Wrapping client data := by
        rintro ⟨-,-,-,long | brief⟩
        · rw [frameHeader, if_pos long.1, if_neg (by omega)] at header
          cases header
        · rw [frameHeader, if_neg (by simpa using brief.1), if_neg (by omega)] at header
          cases header
      simp only [PayloadsInside,quiet,List.not_mem_nil,false_implies,implies_true,short,
        not_false_eq_true]
    | some header' => exact payloadsInsideFrame state pos size header
  · have shaken := payloadsInsideHandshake state pos data
    have calm : ¬Wrapping client data := fun wraps => state wraps.1
    simp only [shaken,calm,not_false_eq_true]

theorem hostileBoundsFive :
    PayloadsInside openClient 0 [0,5,1,2,3,4,5,0,9] :=
  ((hostileBounds openClient 0 [0,5,1,2,3,4,5,0,9] (by decide)).mpr (by decide)).1

/- Nine bytes whose length field is 2 ^ 64 - 1: the end wraps to 8, and the callback is
given 2 ^ 64 - 1 bytes. -/
theorem hostileOverrun :
    ¬PayloadsInside openClient 0 [2,255,255,255,255,255,255,255,255] := by
  intro inside
  have event : .message 9 (2 ^ 64 - 1) ∈
      (zmqlClientProcess openClient 0 [2,255,255,255,255,255,255,255,255]).events := by
    decide +kernel
  exact absurd (inside 9 (2 ^ 64 - 1) event).2 (by decide)

end LibProc.Zmq
