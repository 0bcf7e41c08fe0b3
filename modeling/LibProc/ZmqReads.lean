import LibProc.Runs
import LibProc.StreamScan
import LibProc.Zmq

/-! The reads of one ZMQ client connection. Each read is appended to the connection's buffer
and the buffer is processed; a refused greeting destroys the client. `zmtp` is the protocol as
a scanner of the byte stream: greetings, then frames with unsigned lengths. While the frames
have lengths that the reader takes as they are, the reads follow the scan of the stream. -/
namespace LibProc.ZmqReads
open XdrBytes Buffers Zmq StreamScan Runs

inductive ZmqlOutput where
  | wrote (bytes : List Byte)
  | connected
  | disconnected
  | message (bytes : Option (List Byte))
  deriving DecidableEq, Repr

def seen (contents : List Byte) : ZmqlEvent → ZmqlOutput
  | .rawWrite bytes => .wrote bytes
  | .connect => .connected
  | .message start len => .message (payload contents start len)

structure ZmqlConn where
  client : ZmqlClient
  disconnectCb : Bool
  data : IpcBuffer
  freed : Bool
  outputs : List ZmqlOutput
  deriving DecidableEq, Repr

inductive ReadResult where
  | got (bytes : List Byte)
  | again
  | failed
  deriving DecidableEq, Repr

def zmqlAccept (msgCb connectCb disconnectCb : Bool) : ZmqlConn where
  client := { state := .signature, closeFlag := false, msgCb := msgCb, connectCb := connectCb }
  disconnectCb := disconnectCb
  data := { allocLen := 0, dataLen := 0, data := none }
  freed := false
  outputs := [.wrote zmqSignatureData]

def zmqlDestroyClient (conn : ZmqlConn) : ZmqlConn :=
  { conn with
    freed := true
    outputs := conn.outputs ++ if conn.client.state = .data ∧ conn.disconnectCb then [.disconnected] else [] }

def zmqlSetClose (conn : ZmqlConn) (flag : Bool) : ZmqlConn :=
  { conn with client := { conn.client with closeFlag := flag } }

def zmqlProcessRead (memory : Memory) (conn : ZmqlConn) (bytes : List Byte) : ZmqlConn :=
  let buffer := (ipcAppendBuffer memory conn.data bytes).1
  let after := (ipcProcessBuffer buffer zmqlClientProcess conn.client).getD (buffer,⟨conn.client,0,[]⟩)
  { conn with
    client := after.2.arg
    data := after.1
    outputs := conn.outputs ++ after.2.events.map (seen buffer.contents) }

def zmqlClientReadCb (memory : Memory) (conn : ZmqlConn) (result : ReadResult) : ZmqlConn :=
  if conn.freed then conn
  else
    match result with
    | .again => zmqlSetClose conn false
    | .failed => zmqlDestroyClient (zmqlSetClose conn true)
    | .got [] => zmqlDestroyClient (zmqlSetClose conn true)
    | .got (byte :: more) =>
      let after := zmqlProcessRead memory (zmqlSetClose conn false) (byte :: more)
      if after.client.closeFlag then zmqlDestroyClient after else after

structure ZmqlRead where
  bytes : List Byte
  nonempty : bytes ≠ []
  fits : bytes.length ≤ 2048
  memory : Memory

def readStep (conn : ZmqlConn) (read : ZmqlRead) : ZmqlConn := zmqlClientReadCb read.memory conn (.got read.bytes)

def Granted (conn : ZmqlConn) (read : ZmqlRead) : Prop :=
  conn.freed = false → (ipcAppendBuffer read.memory conn.data read.bytes).2 = read.bytes.length

instance decideGranted (conn : ZmqlConn) (read : ZmqlRead) : Decidable (Granted conn read) :=
  inferInstanceAs (Decidable (_ → _))

def wireHeader (data : List Byte) : Option (Nat × Nat) :=
  if data.headD 0 &&& zmqLongSize ≠ 0 then
    if data.length < 9 then none else some (9,(beWord64 ((data.drop 1).take 8)).toNat)
  else if data.length < 2 then none
  else some (2,(data.getD 1 0).toNat)

def greet (client : ZmqlClient) (greeting : List Byte) (next : ZmqlState) (reply : List ZmqlOutput)
    (data : List Byte) : Verdict ZmqlClient ZmqlOutput :=
  if data.length < greeting.length then .wait
  else if data.take greeting.length = greeting then .take greeting.length { client with state := next } reply
  else .stop { client with closeFlag := true }

def takeFrame (client : ZmqlClient) (data : List Byte) : Verdict ZmqlClient ZmqlOutput :=
  (wireHeader data).elim .wait fun header =>
    if data.length < header.1 + header.2 then .wait
    else .take (header.1 + header.2) client
      (if data.headD 0 &&& zmqCommand = 0 ∧ client.msgCb then [.message (some ((data.drop header.1).take header.2))]
        else [])

def zmtpLook (client : ZmqlClient) (data : List Byte) : Verdict ZmqlClient ZmqlOutput :=
  match client.state with
  | .signature => greet client zmqSignatureData .vers1 [.wrote zmqVersData] data
  | .vers1 => greet client zmqVersData .auth [.wrote zmqAuthData] data
  | .auth => greet client zmqAuthData .data
      (.wrote zmqHandshakeData :: if client.connectCb then [.connected] else []) data
  | .data => takeFrame client data

structure Greets (client : ZmqlClient) (greeting : List Byte) (next : ZmqlState) (events : List ZmqlEvent)
    (reply : List ZmqlOutput) : Prop where
  some : greeting ≠ []
  early : client.state ≠ .data
  answered : ∀ contents, events.map (seen contents) = reply
  looks : ∀ data, zmtpLook client data = greet client greeting next reply data
  calls : ∀ pos data, zmqlClientProcess client pos data = handshake client greeting next events data

theorem stateCases (client : ZmqlClient) :
    client.state = .data ∨ ∃ greeting next events reply, Greets client greeting next events reply := by
  cases state : client.state with
  | data => exact .inl rfl
  | signature =>
    refine .inr ⟨zmqSignatureData,.vers1,[.rawWrite zmqVersData],[.wrote zmqVersData],by decide,by simp [state],fun contents => rfl,?_,?_⟩
    · exact fun data => by rw [zmtpLook, state]
    · exact fun pos data => by rw [zmqlClientProcess, state]
  | vers1 =>
    refine .inr ⟨zmqVersData,.auth,[.rawWrite zmqAuthData],[.wrote zmqAuthData],by decide,by simp [state],fun contents => rfl,?_,?_⟩
    · exact fun data => by rw [zmtpLook, state]
    · exact fun pos data => by rw [zmqlClientProcess, state]
  | auth =>
    refine .inr ⟨zmqAuthData,.data,.rawWrite zmqHandshakeData :: (if client.connectCb then [.connect] else []),
      .wrote zmqHandshakeData :: (if client.connectCb then [.connected] else []),by decide,by simp [state],
      fun contents => ?_,?_,?_⟩
    rotate_left
    · exact fun data => by rw [zmtpLook, state]
    · exact fun pos data => by rw [zmqlClientProcess, state]
    · cases client.connectCb <;> rfl

section
variable {client : ZmqlClient}

theorem greetCases (client : ZmqlClient) (greeting : List Byte) (next : ZmqlState) (reply : List ZmqlOutput)
    (data : List Byte) :
    (data.length < greeting.length ∧ greet client greeting next reply data = .wait) ∨
      (greeting.length ≤ data.length ∧ data.take greeting.length = greeting ∧
        greet client greeting next reply data = .take greeting.length { client with state := next } reply) ∨
      (greeting.length ≤ data.length ∧ data.take greeting.length ≠ greeting ∧
        greet client greeting next reply data = .stop { client with closeFlag := true }) := by
  rw [greet]
  split
  · rename_i short
    exact .inl ⟨short,rfl⟩
  · rename_i long
    split
    · rename_i same
      exact .inr (.inl ⟨not_lt.mp long,same,rfl⟩)
    · rename_i other
      exact .inr (.inr ⟨not_lt.mp long,other,rfl⟩)

theorem wireHeaderOffset {data : List Byte} {off len : Nat} (header : wireHeader data = some (off,len)) :
    off ≤ data.length ∧ (off = 2 ∨ off = 9) ∧ len < 2 ^ 64 := by
  rw [wireHeader] at header
  split at header
  · split at header
    · cases header
    · cases header
      exact ⟨by omega,.inr rfl,BitVec.isLt _⟩
  · split at header
    · cases header
    · cases header
      exact ⟨by omega,.inl rfl,Nat.lt_trans (BitVec.isLt _) (by decide)⟩

theorem headStable {data : List Byte} (some : data ≠ []) (more : List Byte) :
    (data ++ more).headD 0 = data.headD 0 := by
  cases data with
  | nil => exact absurd rfl some
  | cons byte rest => rfl

theorem headerSome {data : List Byte} {off len : Nat} (header : wireHeader data = some (off,len)) : data ≠ [] := by
  rintro rfl
  cases header

theorem wireHeaderStable {data : List Byte} {off len : Nat} (header : wireHeader data = some (off,len))
    (more : List Byte) : wireHeader (data ++ more) = some (off,len) := by
  have same := headStable (headerSome header) more
  rw [wireHeader] at header
  rw [wireHeader, same]
  split at header
  · rename_i long
    rw [if_pos long]
    split at header
    · cases header
    rename_i enough
    have still : ¬(data ++ more).length < 9 := by
      rw [List.length_append]
      omega
    rw [if_neg still, List.drop_append_of_le_length (by omega), List.take_append_of_le_length, header]
    rw [List.length_drop]
    omega
  · rename_i short
    rw [if_neg short]
    split at header
    · cases header
    rename_i enough
    have still : ¬(data ++ more).length < 2 := by
      rw [List.length_append]
      omega
    have second : (data ++ more).getD 1 0 = data.getD 1 0 := by
      rw [List.getD_eq_getElem?_getD, List.getElem?_append_left (by omega), ← List.getD_eq_getElem?_getD]
    rw [if_neg still, second, header]

theorem takeFrameCases (client : ZmqlClient) (data : List Byte) :
    takeFrame client data = .wait ∨ ∃ off len, wireHeader data = some (off,len) ∧ off + len ≤ data.length ∧
      takeFrame client data = .take (off + len) client
        (if data.headD 0 &&& zmqCommand = 0 ∧ client.msgCb then [.message (some ((data.drop off).take len))] else []) := by
  cases header : wireHeader data with
  | none => exact .inl (by rw [takeFrame, header]; rfl)
  | some found =>
    by_cases short : data.length < found.1 + found.2
    · exact .inl (by rw [takeFrame, header, Option.elim_some, if_pos short])
    · refine .inr ⟨found.1,found.2,rfl,not_lt.mp short,?_⟩
      rw [takeFrame, header, Option.elim_some, if_neg short]

theorem takeFrameStable {data : List Byte} {off len : Nat} (header : wireHeader data = some (off,len))
    (whole : off + len ≤ data.length) (more : List Byte) :
    takeFrame client (data ++ more) = takeFrame client data := by
  have short : ¬data.length < off + len := not_lt.mpr whole
  have still : ¬(data ++ more).length < off + len := by
    rw [List.length_append]
    omega
  have inside : len ≤ (data.drop off).length := by
    rw [List.length_drop]
    omega
  rw [takeFrame, takeFrame, wireHeaderStable header more, header, Option.elim_some, Option.elim_some, if_neg still,
    if_neg short, headStable (headerSome header) more, List.drop_append_of_le_length (by omega),
    List.take_append_of_le_length inside]

theorem greetStable {greeting data : List Byte} {next : ZmqlState} {reply : List ZmqlOutput}
    (long : greeting.length ≤ data.length) (more : List Byte) :
    greet client greeting next reply (data ++ more) = greet client greeting next reply data := by
  have still : ¬(data ++ more).length < greeting.length := by
    rw [List.length_append]
    omega
  rw [greet, greet, if_neg still, if_neg (not_lt.mpr long), List.take_append_of_le_length long]

theorem zmtpStable {data : List Byte} (decided : zmtpLook client data ≠ .wait) (more : List Byte) :
    zmtpLook client (data ++ more) = zmtpLook client data := by
  rcases stateCases client with inData | ⟨greeting,next,events,reply,greets⟩
  · simp only [zmtpLook,inData] at decided ⊢
    rcases takeFrameCases client data with waits | ⟨off,len,header,whole,-⟩
    · exact absurd waits decided
    · exact takeFrameStable header whole more
  · rw [greets.looks] at decided
    rw [greets.looks, greets.looks]
    apply greetStable
    rcases greetCases client greeting next reply data with ⟨-,waits⟩ | ⟨long,-⟩ | ⟨long,-⟩
    · exact absurd waits decided
    · exact long
    · exact long

theorem zmtpStop {data : List Byte} {last : ZmqlClient} (looked : zmtpLook client data = .stop last) :
    last.closeFlag = true ∧ last.state ≠ .data := by
  rcases stateCases client with inData | ⟨greeting,next,events,reply,greets⟩
  · simp only [zmtpLook,inData] at looked
    rcases takeFrameCases client data with waits | ⟨off,len,header,whole,takes⟩
    · cases waits.symm.trans looked
    · cases takes.symm.trans looked
  · rw [greets.looks] at looked
    rcases greetCases client greeting next reply data with ⟨-,waits⟩ | ⟨-,-,takes⟩ | ⟨-,-,stops⟩
    · cases waits.symm.trans looked
    · cases takes.symm.trans looked
    · cases stops.symm.trans looked
      exact ⟨rfl,greets.early⟩

theorem zmtpTake {data : List Byte} {n : Nat} {next : ZmqlClient} {outputs : List ZmqlOutput}
    (looked : zmtpLook client data = .take n next outputs) :
    0 < n ∧ n ≤ data.length ∧ next.closeFlag = client.closeFlag := by
  rcases stateCases client with inData | ⟨greeting,state,events,reply,greets⟩
  · simp only [zmtpLook,inData] at looked
    rcases takeFrameCases client data with waits | ⟨off,len,header,whole,takes⟩
    · cases waits.symm.trans looked
    · cases takes.symm.trans looked
      obtain ⟨-,positive,-⟩ := wireHeaderOffset header
      exact ⟨by omega,whole,rfl⟩
  · rw [greets.looks] at looked
    rcases greetCases client greeting state reply data with ⟨-,waits⟩ | ⟨long,-,takes⟩ | ⟨-,-,stops⟩
    · cases waits.symm.trans looked
    · cases takes.symm.trans looked
      exact ⟨List.length_pos_iff.mpr greets.some,long,rfl⟩
    · cases stops.symm.trans looked

end

def zmtp : Scanner ZmqlClient Byte ZmqlOutput where
  look := zmtpLook
  bounded looked := ⟨(zmtpTake looked).1,(zmtpTake looked).2.1⟩
  takeStable looked more := (zmtpStable (by simp [looked]) more).trans looked
  stopStable looked more := (zmtpStable (by simp [looked]) more).trans looked

/- Frames whose lengths the reader takes as they are: a short one below 128, a long one
below 2 ^ 63. -/
def FrameSizes (client : ZmqlClient) (data : List Byte) : Prop :=
  client.state = .data → ∀ off len, wireHeader data = some (off,len) → (off = 2 → len < 128) ∧ (off = 9 → len < 2 ^ 63)

theorem frameSizesShrink (client : ZmqlClient) (data more : List Byte) (sizes : FrameSizes client (data ++ more)) :
    FrameSizes client data :=
  fun inData off len header => sizes inData off len (wireHeaderStable header more)

theorem frameHeaderNone {data : List Byte} (header : wireHeader data = none) : frameHeader data = none := by
  rw [wireHeader] at header
  rw [frameHeader]
  split
  · rename_i long
    rw [if_pos long] at header
    split at header
    · rename_i short
      rw [if_pos short]
    · cases header
  · rename_i brief
    rw [if_neg brief] at header
    split at header
    · rename_i short
      rw [if_pos short]
    · cases header

theorem signExtendSmall {b : Byte} (small : b.toNat < 128) : (b.signExtend 64).toNat = b.toNat := by
  have plain : b.msb = false := by
    rw [BitVec.msb_eq_false_iff_two_mul_lt]
    omega
  rw [BitVec.signExtend_eq_setWidth_of_msb_false plain, BitVec.toNat_setWidth]
  omega

theorem frameHeaderWire {data : List Byte} {off len : Nat} (header : wireHeader data = some (off,len))
    (short : off = 2 → len < 128) : frameHeader data = some (off,len) := by
  rw [wireHeader] at header
  rw [frameHeader]
  split
  · rename_i long
    rw [if_pos long] at header
    split at header
    · cases header
    rename_i enough
    have width : ((data.drop 1).take 8).length = 8 := by
      rw [List.length_take, List.length_drop]
      omega
    rw [if_neg enough, ntohllHostWord64 width, header]
  · rename_i brief
    rw [if_neg brief] at header
    split at header
    · cases header
    rename_i enough
    rw [if_neg enough]
    cases header
    rw [signExtendSmall (short rfl)]

def Follows (contents : List Byte) (client : ZmqlClient) (result : CbResult ZmqlClient ZmqlEvent) :
    Verdict ZmqlClient ZmqlOutput → Prop
  | .wait => result = ⟨client,0,[]⟩
  | .stop last => result = ⟨last,0,[]⟩
  | .take n next outputs => result.arg = next ∧ result.used = n ∧ result.events.map (seen contents) = outputs

theorem handshakeFollows {client : ZmqlClient} {greeting : List Byte} {next : ZmqlState} {events : List ZmqlEvent}
    {reply : List ZmqlOutput} (greets : Greets client greeting next events reply) (contents : List Byte) (pos : Nat)
    (data : List Byte) : Follows contents client (zmqlClientProcess client pos data) (zmtpLook client data) := by
  rw [greets.calls, greets.looks, handshake]
  rcases greetCases client greeting next reply data with ⟨short,looked⟩ | ⟨long,same,looked⟩ | ⟨long,other,looked⟩
  · rw [looked, if_pos short]
    rfl
  · rw [looked, if_neg (not_lt.mpr long), if_pos same]
    exact ⟨rfl,rfl,greets.answered contents⟩
  · rw [looked, if_neg (not_lt.mpr long), if_neg other]
    rfl

theorem frameFollows {client : ZmqlClient} (inData : client.state = .data) {contents data : List Byte} {pos : Nat}
    (here : contents.drop pos = data) (sizes : FrameSizes client data) :
    Follows contents client (zmqlClientProcess client pos data) (zmtpLook client data) := by
  have looks : zmtpLook client data = takeFrame client data := by rw [zmtpLook, inData]
  cases header : wireHeader data with
  | none =>
    rw [looks, takeFrame, header]
    simp only [zmqlClientProcess,inData,zmqlClientData,frameHeaderNone header,Option.elim_none,ite_self]
    rfl
  | some found =>
    obtain ⟨off,len⟩ := found
    obtain ⟨inside,form,-⟩ := wireHeaderOffset header
    have small := sizes inData off len header
    have total : (off + len) % 2 ^ 64 = off + len := by
      have : len < 2 ^ 63 := by
        rcases form with two | nine
        · have := small.1 two
          omega
        · exact small.2 nine
      omega
    rw [processHeader inData (frameHeaderWire header small.1) (headerSome header) pos, total, looks, takeFrame, header,
      Option.elim_some]
    by_cases short : data.length < off + len
    · rw [if_pos short, if_pos short]
      rfl
    rw [if_neg short, if_neg short]
    by_cases message : data.headD 0 &&& zmqCommand = 0 ∧ client.msgCb
    · rw [if_pos message, if_pos message]
      have room : pos + off + len ≤ contents.length := by
        have length := congrArg List.length here
        rw [List.length_drop] at length
        omega
      refine ⟨rfl,rfl,?_⟩
      rw [List.map_singleton, seen, payload, if_pos room, ← here, List.drop_drop]
    · rw [if_neg message, if_neg message]
      exact ⟨rfl,rfl,rfl⟩

theorem processFollows {client : ZmqlClient} {contents data : List Byte} {pos : Nat} (here : contents.drop pos = data)
    (sizes : FrameSizes client data) :
    Follows contents client (zmqlClientProcess client pos data) (zmtpLook client data) := by
  rcases stateCases client with inData | ⟨greeting,next,events,reply,greets⟩
  · exact frameFollows inData here sizes
  · exact handshakeFollows greets contents pos data

theorem processLoopScan {client : ZmqlClient} {contents data : List Byte} {pos : Nat} (here : contents.drop pos = data)
    (sizes : Throughout zmtp FrameSizes client data) :
    ∃ done, processLoop zmqlClientProcess client pos data = some done ∧
      done.arg = (scan zmtp client data).state ∧ done.events.map (seen contents) = (scan zmtp client data).events ∧
      ∀ kept, (scan zmtp client data).rest = some kept → contents.drop done.used = kept := by
  induction sizes generalizing pos with
  | @wait client data holds looked =>
    have follows := processFollows here holds
    rw [show zmtpLook client data = .wait from looked] at follows
    have stop : (zmqlClientProcess client pos data).used = 0 := by rw [follows]
    rw [scanWait looked, processLoopStop stop, follows]
    refine ⟨_,rfl,rfl,rfl,?_⟩
    intro kept pending
    cases pending
    exact here
  | @stop client data last holds looked =>
    have follows := processFollows here holds
    rw [show zmtpLook client data = .stop last from looked] at follows
    have stop : (zmqlClientProcess client pos data).used = 0 := by rw [follows]
    rw [scanStop looked, processLoopStop stop, follows]
    refine ⟨_,rfl,rfl,rfl,?_⟩
    intro kept pending
    cases pending
  | @take client data n next outputs holds looked later ih =>
    have follows := processFollows here holds
    rw [show zmtpLook client data = .take n next outputs from looked] at follows
    obtain ⟨arg,used,events⟩ := follows
    have bound := zmtp.bounded looked
    have further := processLoopNext (show (zmqlClientProcess client pos data).used ≠ 0 by omega)
      (processUsed client pos data)
    obtain ⟨done,ran,state,outs,rest⟩ := ih (show contents.drop (pos + n) = data.drop n by rw [← List.drop_drop, here])
    rw [arg, used, ran] at further
    refine ⟨_,further,?_,?_,?_⟩
    · rw [scanTake looked]
      exact state
    · rw [scanTake looked, List.map_append, events, outs]
    · rw [scanTake looked]
      exact rest

theorem scanCloseFlag {client : ZmqlClient} (clear : client.closeFlag = false) (data : List Byte) :
    ((scan zmtp client data).rest = none → (scan zmtp client data).state.closeFlag = true ∧
        (scan zmtp client data).state.state ≠ .data) ∧
      ((scan zmtp client data).rest ≠ none → (scan zmtp client data).state.closeFlag = false) := by
  induction client, data using scan.induct zmtp with
  | case1 client data looked =>
    rw [scanWait looked]
    exact ⟨fun ended => (by cases ended),fun _ => clear⟩
  | case2 client data last looked =>
    rw [scanStop looked]
    exact ⟨fun _ => zmtpStop looked,fun going => absurd rfl going⟩
  | case3 client data n next outputs looked ih =>
    have kept := (zmtpTake looked).2.2
    rw [scanTake looked]
    exact ih (kept.trans clear)

structure Tracks (before : List ZmqlOutput) (conn : ZmqlConn) (scanned : Scanned ZmqlClient Byte ZmqlOutput) : Prop where
  outputs : conn.outputs = before ++ scanned.events
  client : conn.client = scanned.state
  gone : scanned.rest = none → conn.freed = true
  alive : ∀ kept, scanned.rest = some kept → conn.freed = false ∧ conn.client.closeFlag = false ∧ conn.data.Held ∧
    conn.data.contents = kept

theorem processRead {before : List ZmqlOutput} {conn : ZmqlConn} {scanned : Scanned ZmqlClient Byte ZmqlOutput}
    (tracks : Tracks before conn scanned) {kept : List Byte} (pending : scanned.rest = some kept) (read : ZmqlRead)
    (sizes : Throughout zmtp FrameSizes scanned.state (kept ++ read.bytes)) (granted : Granted conn read) :
    let after := zmqlProcessRead read.memory conn read.bytes
    let now := scan zmtp scanned.state (kept ++ read.bytes)
    after.freed = false ∧ after.client = now.state ∧ after.outputs = conn.outputs ++ now.events ∧
      ∀ rest, now.rest = some rest → after.data.Held ∧ after.data.contents = rest := by
  obtain ⟨live,-,held,contents⟩ := tracks.alive kept pending
  obtain ⟨held',contents'⟩ := appendHeld held read.nonempty (Nat.lt_of_le_of_lt read.fits (by decide)) (granted live)
  rw [contents] at contents'
  have busy : (ipcAppendBuffer read.memory conn.data read.bytes).1.contents ≠ [] := by
    rw [contents']
    exact fun empty => read.nonempty (List.append_eq_nil_iff.mp empty).2
  obtain ⟨⟨kept',done⟩,ran,inside⟩ := processBufferBounded processUsed
    (ipcAppendBuffer read.memory conn.data read.bytes).1 conn.client
  obtain ⟨looped,heldAfter,left⟩ := processBufferRest held' busy inside ran
  obtain ⟨done',looped',state,outs,rest⟩ := processLoopScan
    (show (ipcAppendBuffer read.memory conn.data read.bytes).1.contents.drop 0 = kept ++ read.bytes from contents') sizes
  rw [contents', tracks.client] at looped
  cases looped.symm.trans looped'
  simp only [zmqlProcessRead,ran,Option.getD_some]
  refine ⟨live,state,by rw [outs],?_⟩
  intro rest' pending'
  exact ⟨heldAfter,left.trans (rest rest' pending')⟩

theorem setCloseClear {conn : ZmqlConn} (clear : conn.client.closeFlag = false) : zmqlSetClose conn false = conn := by
  obtain ⟨⟨state,closeFlag,msgCb,connectCb⟩,disconnectCb,data,freed,outputs⟩ := conn
  cases clear
  rfl

theorem readCbBytes {memory : Memory} {conn : ZmqlConn} {bytes : List Byte} (live : conn.freed = false)
    (clear : conn.client.closeFlag = false) (some : bytes ≠ []) :
    zmqlClientReadCb memory conn (.got bytes) =
      if (zmqlProcessRead memory conn bytes).client.closeFlag then zmqlDestroyClient (zmqlProcessRead memory conn bytes)
      else zmqlProcessRead memory conn bytes := by
  cases bytes with
  | nil => exact absurd rfl some
  | cons byte more =>
    rw [zmqlClientReadCb, if_neg (by simp [live])]
    simp only [setCloseClear clear]

theorem readTracks {before : List ZmqlOutput} {conn : ZmqlConn} {scanned : Scanned ZmqlClient Byte ZmqlOutput}
    (tracks : Tracks before conn scanned) (read : ZmqlRead)
    (sizes : ∀ kept, scanned.rest = some kept → Throughout zmtp FrameSizes scanned.state (kept ++ read.bytes))
    (granted : Granted conn read) : Tracks before (readStep conn read) (feed zmtp scanned read.bytes) := by
  cases pending : scanned.rest with
  | none =>
    have same : readStep conn read = conn := by
      rw [readStep, zmqlClientReadCb.eq_def, if_pos (tracks.gone pending)]
    rw [same]
    simp only [feed,pending]
    exact tracks
  | some kept =>
    obtain ⟨live,clear,-⟩ := tracks.alive kept pending
    obtain ⟨stays,client,outputs,rest⟩ := processRead tracks pending read (sizes kept pending) granted
    have flag := scanCloseFlag (tracks.client ▸ clear) (kept ++ read.bytes)
    rw [readStep, readCbBytes live clear read.nonempty, client]
    simp only [feed,pending]
    generalize scan zmtp scanned.state (kept ++ read.bytes) = now at *
    generalize zmqlProcessRead read.memory conn read.bytes = after at *
    cases ended : now.rest with
    | none =>
      obtain ⟨closed,early⟩ := flag.1 ended
      have silent : ¬(after.client.state = .data ∧ after.disconnectCb) := fun both => early (client ▸ both.1)
      rw [if_pos closed]
      refine ⟨?_,client,fun _ => rfl,fun kept' impossible => by cases impossible⟩
      simp only [zmqlDestroyClient,silent,if_false,List.append_nil]
      rw [outputs, tracks.outputs, List.append_assoc]
    | some left =>
      have opened := flag.2 (by rw [ended]; exact Option.some_ne_none left)
      rw [if_neg (by rw [opened]; exact Bool.false_ne_true)]
      refine ⟨?_,client,fun impossible => (by cases impossible),fun kept' pending' => ?_⟩
      · rw [outputs, tracks.outputs, List.append_assoc]
      · exact ⟨stays,by rw [client, opened],rest kept' (ended.trans pending')⟩

theorem readsTrack {before : List ZmqlOutput} {conn : ZmqlConn} {client : ZmqlClient} {sofar : List Byte}
    (tracks : Tracks before conn (scan zmtp client sofar)) (reads : List ZmqlRead)
    (sizes : Throughout zmtp FrameSizes client (sofar ++ (reads.map ZmqlRead.bytes).flatten))
    (granted : Along readStep Granted conn reads) :
    Tracks before (exec readStep conn reads) (scan zmtp client (sofar ++ (reads.map ZmqlRead.bytes).flatten)) := by
  induction reads generalizing conn sofar with
  | nil =>
    rw [List.map_nil, List.flatten_nil, List.append_nil]
    exact tracks
  | cons read reads ih =>
    rw [List.map_cons, List.flatten_cons, ← List.append_assoc] at sizes ⊢
    have arrived := sizes.left frameSizesShrink
    have next := readTracks tracks read (fun kept pending => arrived.pending pending) granted.1
    rw [← scanAppend] at next
    exact ih next sizes granted.2

theorem acceptTracks (msgCb connectCb disconnectCb : Bool) :
    Tracks [.wrote zmqSignatureData] (zmqlAccept msgCb connectCb disconnectCb)
      (scan zmtp (zmqlAccept msgCb connectCb disconnectCb).client []) := by
  rw [scanWait rfl]
  refine ⟨rfl,rfl,fun ended => (by cases ended),?_⟩
  intro kept pending
  cases pending
  exact ⟨rfl,rfl,.inl ⟨rfl,rfl⟩,rfl⟩

theorem readsAgree (msgCb connectCb disconnectCb : Bool) (stream : List Byte)
    (sizes : Throughout zmtp FrameSizes (zmqlAccept msgCb connectCb disconnectCb).client stream)
    (one two : List ZmqlRead) (cutOne : (one.map ZmqlRead.bytes).flatten = stream)
    (cutTwo : (two.map ZmqlRead.bytes).flatten = stream)
    (grantedOne : Along readStep Granted (zmqlAccept msgCb connectCb disconnectCb) one)
    (grantedTwo : Along readStep Granted (zmqlAccept msgCb connectCb disconnectCb) two) :
    let first := exec readStep (zmqlAccept msgCb connectCb disconnectCb) one
    let second := exec readStep (zmqlAccept msgCb connectCb disconnectCb) two
    first.outputs = second.outputs ∧ first.client = second.client ∧ first.freed = second.freed ∧
      (first.freed = false → first.data.contents = second.data.contents) := by
  have start := acceptTracks msgCb connectCb disconnectCb
  have trackOne := readsTrack start one (by rw [List.nil_append, cutOne]; exact sizes) grantedOne
  have trackTwo := readsTrack start two (by rw [List.nil_append, cutTwo]; exact sizes) grantedTwo
  rw [List.nil_append, cutOne] at trackOne
  rw [List.nil_append, cutTwo] at trackTwo
  refine ⟨trackOne.outputs.trans trackTwo.outputs.symm,trackOne.client.trans trackTwo.client.symm,?_⟩
  cases ended : (scan zmtp (zmqlAccept msgCb connectCb disconnectCb).client stream).rest with
  | none =>
    have gone := trackOne.gone ended
    refine ⟨gone.trans (trackTwo.gone ended).symm,fun live => ?_⟩
    cases gone.symm.trans live
  | some kept =>
    obtain ⟨liveOne,-,-,leftOne⟩ := trackOne.alive kept ended
    obtain ⟨liveTwo,-,-,leftTwo⟩ := trackTwo.alive kept ended
    exact ⟨liveOne.trans liveTwo.symm,fun _ => leftOne.trans leftTwo.symm⟩

def helloStream : List Byte := zmqSignatureData ++ zmqVersData ++ zmqAuthData ++ [0,1,7,0]

theorem helloSizes : Throughout zmtp FrameSizes (zmqlAccept true true false).client helloStream := by
  have early : ∀ client data, client.state ≠ .data → FrameSizes client data :=
    fun client data state inData => absurd inData state
  refine .take (early _ _ (by decide)) rfl (.take (early _ _ (by decide)) rfl (.take (early _ _ (by decide)) rfl
    (.take ?_ rfl (.wait ?_ rfl))))
  · intro _ off len header
    cases (show wireHeader _ = some (2,1) by decide).symm.trans header
    exact ⟨fun _ => by decide,fun _ => by decide⟩
  · intro _ off len header
    cases header

def grantedRead (bytes : List Byte) (nonempty : bytes ≠ []) (fits : bytes.length ≤ 2048) : ZmqlRead :=
  { bytes, nonempty, fits, memory := { malloc := some fun _ => 0, realloc := some fun _ => 0 } }

theorem helloAgrees :
    let whole := [grantedRead helloStream (by decide) (by decide)]
    let cut := [grantedRead (helloStream.take 3) (by decide) (by decide),
      grantedRead ((helloStream.drop 3).take 63) (by decide) (by decide),
      grantedRead (helloStream.drop 66) (by decide) (by decide)]
    (exec readStep (zmqlAccept true true false) whole).outputs =
      (exec readStep (zmqlAccept true true false) cut).outputs :=
  (readsAgree true true false helloStream helloSizes _ _ (by decide) (by decide) (by decide +kernel)
    (by decide +kernel)).1

end LibProc.ZmqReads
