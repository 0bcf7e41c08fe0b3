import LibProc.ZmqReads
import Mathlib.Data.List.Nodup
import Mathlib.Data.List.Perm.Basic

/-! The server of zmqlite.c with any number of connections. Peers connect, send and go in any order,
and the program writes to one connection or to all. Where no write comes out short, each connection goes
on as if it was alone: what its callbacks see is the scan of what its own peer sent, and what it is sent
are the greetings and then every message that was written to it since, whole and in order. -/
namespace LibProc.ZmqServer
open XdrBytes Buffers Zmq ZmqReads StreamScan Runs

inductive WriteResult where
  | wrote (n : Nat)
  | again
  | failed

def writeSync : List Byte → List WriteResult → Option Int × List Byte
  | [],_ => (some 0,[])
  | _ :: _,[] => (none,[])
  | _ :: _,.failed :: _ => (some (-1),[])
  | b :: left,.again :: answers => writeSync (b :: left) answers
  | b :: left,.wrote n :: answers =>
    let later := writeSync ((b :: left).drop n) answers
    (later.1,(b :: left).take n ++ later.2)

def ipcWriteBufferSync (buffer : IpcBuffer) (answers : List WriteResult) : Option Int × List Byte :=
  if buffer.dataLen = 0 ∨ buffer.data = none then (some 0,[]) else writeSync buffer.contents answers

def WriteResult.taken (bytes : List Byte) : WriteResult → List Byte
  | .wrote n => bytes.take n
  | .again => []
  | .failed => []

/- The raw writes among some outputs, each with its answer: a short one is only warned about. -/
def zmqlClientRawWrite : List ZmqlOutput → List WriteResult → List ZmqlOutput
  | [],_ => []
  | .wrote bytes :: rest,answer :: answers => .wrote (answer.taken bytes) :: zmqlClientRawWrite rest answers
  | .wrote _ :: rest,[] => .wrote [] :: zmqlClientRawWrite rest []
  | other :: rest,answers => other :: zmqlClientRawWrite rest answers

structure WriteAnswers where
  head : WriteResult
  body : List WriteResult

structure Callbacks where
  msgCb : Bool
  connectCb : Bool
  disconnectCb : Bool

structure Client where
  ptr : Nat
  socket : Int
  conn : ZmqlConn

structure ZmqlServer extends Callbacks where
  socket : Int
  clientCount : Int
  clients : List Client

/- `watched` are the descriptors the event loop has, the server's with no client; `gone` are the clients
that were freed. -/
structure World where
  server : Option ZmqlServer
  watched : List (Int × Option Nat)
  sockets : List Int
  gone : List Client
  fresh : Nat

inductive Action where
  | accept (socket : Int) (answer : WriteResult)
  | read (ptr : Nat) (memory : Memory) (result : ReadResult) (answers : List WriteResult)
  | write (ptr : Nat) (msg : IpcBuffer) (answers : WriteAnswers)
  | broadcast (msg : IpcBuffer) (answers : Nat → WriteAnswers)
  | destroyClient (ptr : Nat)
  | destroyServer

def zmqlCreateTcpServer (socket : Int) (callbacks : Callbacks) : World :=
  ⟨some ⟨callbacks,socket,0,[]⟩,[(socket,none)],[socket],[],0⟩

def header (len : Nat) : List Byte :=
  if len ≤ 255 then [0,BitVec.ofNat 8 len] else zmqLongSize :: hostBytes64 (htonll (BitVec.ofNat 64 len))

def zmqlWriteBuffer (msg : IpcBuffer) (answers : WriteAnswers) (c : Client) : Client :=
  if c.conn.client.state ≠ .data then c
  else {c with conn := {c.conn with
    outputs := c.conn.outputs ++
      [.wrote (answers.head.taken (header (ipcBufferSize msg))),.wrote (ipcWriteBufferSync msg answers.body).2]}}

def World.unwatch (w : World) (socket : Int) : World := {w with watched := w.watched.filter fun entry => entry.1 ≠ socket}

def World.release (w : World) (server : ZmqlServer) (c : Client) : World :=
  {w with
    server := some {server with clients := server.clients.eraseP fun other => other.ptr = c.ptr, clientCount := server.clientCount - 1}
    sockets := w.sockets.erase c.socket
    gone := c :: w.gone}

def zmqlDestroyClient (w : World) (server : ZmqlServer) (c : Client) : World :=
  let w := if c.conn.client.closeFlag then w else w.unwatch c.socket
  w.release server {c with conn := ZmqReads.zmqlDestroyClient c.conn}

def findClient (server : ZmqlServer) (ptr : Nat) : Option Client := server.clients.find? fun c => c.ptr = ptr

def zmqlAcceptCb (w : World) (server : ZmqlServer) (socket : Int) (answer : WriteResult) : World :=
  if socket = -1 then w
  else
    let conn := zmqlAccept server.msgCb server.connectCb server.disconnectCb
    let c : Client := ⟨w.fresh,socket,{conn with outputs := zmqlClientRawWrite conn.outputs [answer]}⟩
    {w with
      server := some {server with clients := c :: server.clients, clientCount := server.clientCount + 1}
      watched := (socket,some w.fresh) :: w.watched
      sockets := socket :: w.sockets
      fresh := w.fresh + 1}

def setClient (server : ZmqlServer) (c : Client) : ZmqlServer :=
  {server with clients := server.clients.map fun other => if other.ptr = c.ptr then c else other}

def readAdds (c : Client) (memory : Memory) (result : ReadResult) : List ZmqlOutput :=
  (ZmqReads.zmqlClientReadCb memory c.conn result).outputs.drop c.conn.outputs.length

def zmqlClientReadCb (w : World) (server : ZmqlServer) (c : Client) (memory : Memory) (result : ReadResult)
    (answers : List WriteResult) : World :=
  let after : Client := {c with conn := {ZmqReads.zmqlClientReadCb memory c.conn result with
    outputs := c.conn.outputs ++ zmqlClientRawWrite (readAdds c memory result) answers}}
  if after.conn.freed then (w.unwatch c.socket).release server after
  else {w with server := some (setClient server after)}

def destroyAll (w : World) : List Client → World
  | [] => w
  | c :: rest => match w.server with
    | none => w
    | some server => destroyAll (zmqlDestroyClient w server c) rest

def zmqlDestroyTcpServer (w : World) (server : ZmqlServer) : World :=
  let w := if 0 < server.socket then {w.unwatch server.socket with sockets := w.sockets.erase server.socket} else w
  {destroyAll w server.clients with server := none}

def act (w : World) (server : ZmqlServer) : Action → World
  | .accept socket answer => zmqlAcceptCb w server socket answer
  | .read ptr memory result answers => (findClient server ptr).elim w fun c => zmqlClientReadCb w server c memory result answers
  | .write ptr msg answers => (findClient server ptr).elim w fun c =>
      {w with server := some (setClient server (zmqlWriteBuffer msg answers c))}
  | .broadcast msg answers =>
    {w with server := some {server with clients := server.clients.map fun c => zmqlWriteBuffer msg (answers c.ptr) c}}
  | .destroyClient ptr => (findClient server ptr).elim w (zmqlDestroyClient w server)
  | .destroyServer => zmqlDestroyTcpServer w server

def step (w : World) (a : Action) : World := w.server.elim w fun server => act w server a

structure Session where
  stream : List Byte
  posted : List (List Byte)
  finished : Bool

section Sessions
variable (k : Callbacks)

def scanned (stream : List Byte) : Scanned ZmqlClient Byte ZmqlOutput :=
  scan zmtp (zmqlAccept k.msgCb k.connectCb k.disconnectCb).client stream

def Session.Ready (s : Session) : Prop := (scanned k s.stream).state.state = .data

instance (s : Session) : Decidable (s.Ready k) := inferInstanceAs (Decidable (_ = _))

def ZmqlOutput.written : ZmqlOutput → List Byte
  | .wrote bytes => bytes
  | _ => []

def ZmqlOutput.called : ZmqlOutput → Bool
  | .wrote _ => false
  | _ => true

def sent (outputs : List ZmqlOutput) : List Byte := (outputs.map ZmqlOutput.written).flatten

def calls (outputs : List ZmqlOutput) : List ZmqlOutput := outputs.filter ZmqlOutput.called

def Session.sent (s : Session) : List Byte :=
  zmqSignatureData ++ ZmqServer.sent (scanned k s.stream).events ++ (s.posted.map frame).flatten

def Session.calls (s : Session) : List ZmqlOutput :=
  ZmqServer.calls (scanned k s.stream).events ++ if s.finished ∧ s.Ready k ∧ k.disconnectCb then [.disconnected] else []

def Session.post (bytes : List Byte) (s : Session) : Session := if s.Ready k then {s with posted := s.posted ++ [bytes]} else s

def Session.close (s : Session) : Session := {s with finished := true}

def Session.read (s : Session) : ReadResult → Session
  | .again => s
  | .failed => s.close
  | .got [] => s.close
  | .got bytes => ⟨s.stream ++ bytes,s.posted,decide ((scanned k (s.stream ++ bytes)).rest = none)⟩

end Sessions

/- The server without its memory and its sockets: its connections, `live` those that are open, newest
first. -/
structure Host where
  listening : Bool
  live : List Nat
  sessions : Nat → Session
  count : Nat

def Host.update (h : Host) (ptr : Nat) (f : Session → Session) : Host :=
  if ptr ∈ h.live then
    let s := f (h.sessions ptr)
    {h with sessions := Function.update h.sessions ptr s, live := if s.finished then h.live.erase ptr else h.live}
  else h

def serve (k : Callbacks) (h : Host) (a : Action) : Host :=
  if h.listening then
    match a with
    | .accept socket _ =>
      if socket = -1 then h
      else {h with live := h.count :: h.live, sessions := Function.update h.sessions h.count ⟨[],[],false⟩, count := h.count + 1}
    | .read ptr _ result _ => h.update ptr fun s => s.read k result
    | .write ptr msg _ => h.update ptr (.post k msg.contents)
    | .broadcast msg _ => {h with sessions := fun ptr => if ptr ∈ h.live then (h.sessions ptr).post k msg.contents else h.sessions ptr}
    | .destroyClient ptr => h.update ptr .close
    | .destroyServer =>
      {h with listening := false, live := [], sessions := fun ptr => if ptr ∈ h.live then (h.sessions ptr).close else h.sessions ptr}
  else h

def listening : Host := ⟨true,[],fun _ => ⟨[],[],false⟩,0⟩

/- A read brings at most what the buffer on the stack holds, gets the memory it asks for, and brings
frames whose lengths are read as they were written. -/
def ReadLegal (c : Client) (memory : Memory) : ReadResult → Prop
  | .got bytes => bytes ≠ [] → bytes.length ≤ 2048 ∧ (ipcAppendBuffer memory c.conn.data bytes).2 = bytes.length ∧
      Throughout zmtp FrameSizes c.conn.client (c.conn.data.contents ++ bytes)
  | _ => True

def WriteAnswers.Whole (msg : IpcBuffer) (answers : WriteAnswers) : Prop :=
  answers.head.taken (header (ipcBufferSize msg)) = header (ipcBufferSize msg) ∧ (ipcWriteBufferSync msg answers.body).1 = some 0

/- A new socket is none of those that are open, a greeting is taken at once, and a message as a whole. -/
def Legal (w : World) : Action → Prop
  | .accept socket answer => socket ∉ w.sockets ∧ answer.taken zmqSignatureData = zmqSignatureData
  | .read ptr memory result answers => ∀ server, w.server = some server → ∀ c ∈ server.clients, c.ptr = ptr →
    ReadLegal c memory result ∧ zmqlClientRawWrite (readAdds c memory result) answers = readAdds c memory result
  | .write _ msg answers => msg.Sound ∧ answers.Whole msg
  | .broadcast msg answers => msg.Sound ∧ ∀ ptr, (answers ptr).Whole msg
  | _ => True

def Conducts (k : Callbacks) (conn : ZmqlConn) (s : Session) : Prop :=
  sent conn.outputs = s.sent k ∧ calls conn.outputs = s.calls k ∧ conn.freed = s.finished

/- The server has the connections that are open and no others, each with its own socket, and all that
ever was went as its session did. -/
structure Hosts (k : Callbacks) (w : World) (h : Host) : Prop where
  on : w.server.isSome = h.listening
  list : ∀ server, w.server = some server → server.clientCount = h.live.length ∧ server.clients.map Client.ptr = h.live ∧
    (w.sockets.Perm (server.socket :: server.clients.map Client.socket) ∧ w.sockets.Nodup) ∧
    w.watched.Perm ((server.socket,none) :: server.clients.map fun c => (c.socket,some c.ptr)) ∧
    ∀ c ∈ server.clients, Conducts k c.conn (h.sessions c.ptr)
  off : w.server = none → w.sockets = [] ∧ w.watched = [] ∧ h.live = []
  past : ∀ c ∈ w.gone, Conducts k c.conn (h.sessions c.ptr)
  all : (h.live ++ w.gone.map Client.ptr).Perm (List.range h.count)

section Writing

theorem writeSyncWhole (left : List Byte) (answers : List WriteResult) (done : (writeSync left answers).1 = some 0) :
    (writeSync left answers).2 = left := by
  fun_induction writeSync left answers with
  | case1 => rfl
  | case2 => cases done
  | case3 => cases done
  | case4 b left answers ih => exact ih done
  | case5 b left n answers later ih => rw [ih done, List.take_append_drop]

theorem writeBufferWhole {msg : IpcBuffer} {answers : List WriteResult} (done : (ipcWriteBufferSync msg answers).1 = some 0) :
    (ipcWriteBufferSync msg answers).2 = msg.contents := by
  unfold ipcWriteBufferSync at done ⊢
  split at done
  · next idle =>
    rw [if_pos idle, IpcBuffer.contents]
    rcases idle with zero | absent
    · rw [zero, List.take_zero]
    · rw [absent, Option.getD_none, List.take_nil]
  · next busy =>
    rw [if_neg busy]
    exact writeSyncWhole _ _ done

theorem headerFrame {msg : IpcBuffer} (sound : msg.Sound) : header (ipcBufferSize msg) ++ msg.contents = frame msg.contents := by
  rw [header, frame, contentsLength sound, ipcBufferSize]
  split <;> rfl

end Writing

section Outputs
variable (first second : List ZmqlOutput)

theorem sentAppend : sent (first ++ second) = sent first ++ sent second := by
  rw [sent, List.map_append, List.flatten_append]
  rfl

theorem callsAppend : calls (first ++ second) = calls first ++ calls second := List.filter_append ..

end Outputs

theorem readySilent {client : ZmqlClient} (data : List Byte) (ready : client.state = .data) :
    sent (scan zmtp client data).events = [] ∧ (scan zmtp client data).state.state = .data := by
  induction client, data using scan.induct zmtp with
  | case1 client data looked =>
    rw [scanWait looked]
    exact ⟨rfl,ready⟩
  | case2 client data last looked => exact absurd (show zmtpLook client data = .stop last from looked) (by
      rw [zmtpLook, ready]
      rcases takeFrameCases client data with waits | ⟨off,len,-,-,takes⟩
      · simp [waits]
      · simp [takes])
  | case3 client data n next outputs looked ih =>
    have took : zmtpLook client data = .take n next outputs := looked
    rw [zmtpLook, ready] at took
    rcases takeFrameCases client data with waits | ⟨off,len,-,-,takes⟩
    · cases waits.symm.trans took
    · have silent : sent outputs = [] ∧ next = client := by
        cases takes.symm.trans took
        refine ⟨?_,rfl⟩
        split <;> rfl
      obtain ⟨silent,rfl⟩ := silent
      obtain ⟨later,state⟩ := ih ready
      rw [scanTake looked, sentAppend, silent, later]
      exact ⟨rfl,state⟩

structure Live (k : Callbacks) (conn : ZmqlConn) (s : Session) : Prop where
  tracks : Tracks [.wrote zmqSignatureData] {conn with outputs := .wrote zmqSignatureData :: (scanned k s.stream).events}
    (scanned k s.stream)
  going : (scanned k s.stream).rest ≠ none
  disconnectCb : conn.disconnectCb = k.disconnectCb
  calls : calls conn.outputs = ZmqServer.calls (scanned k s.stream).events
  sent : sent conn.outputs = s.sent k
  posted : s.posted ≠ [] → s.Ready k
  running : s.finished = false

section Connections
variable {k : Callbacks} {conn : ZmqlConn} {s : Session}

theorem Live.open_ (live : Live k conn s) : conn.freed = false ∧ conn.client.closeFlag = false := by
  obtain ⟨kept,pending⟩ := Option.ne_none_iff_exists'.mp live.going
  exact ⟨(live.tracks.alive kept pending).1,(live.tracks.alive kept pending).2.1⟩

theorem Live.ready (live : Live k conn s) : conn.client.state = .data ↔ s.Ready k := by
  have client : conn.client = (scanned k s.stream).state := live.tracks.client
  rw [client, Session.Ready]

theorem Live.conducts (live : Live k conn s) : Conducts k conn s := by
  refine ⟨live.sent,?_,live.open_.1.trans live.running.symm⟩
  rw [live.calls, Session.calls, live.running]
  simp

theorem acceptLive (k : Callbacks) : Live k (zmqlAccept k.msgCb k.connectCb k.disconnectCb) ⟨[],[],false⟩ := by
  have start : scanned k [] = ⟨(zmqlAccept k.msgCb k.connectCb k.disconnectCb).client,[],some []⟩ := scanWait rfl
  have tracks := acceptTracks k.msgCb k.connectCb k.disconnectCb
  have same : {zmqlAccept k.msgCb k.connectCb k.disconnectCb with outputs := .wrote zmqSignatureData :: (scanned k []).events} =
      zmqlAccept k.msgCb k.connectCb k.disconnectCb := by
    rw [start]
    rfl
  refine ⟨?_,?_,rfl,?_,?_,?_,rfl⟩
  · dsimp only
    rw [same]
    exact tracks
  · dsimp only
    rw [start]
    exact Option.some_ne_none _
  · dsimp only
    rw [start]
    rfl
  · rw [Session.sent]
    dsimp only
    rw [start]
    rfl
  · exact fun used => absurd rfl used

theorem postLive (live : Live k conn s) {msg : IpcBuffer} {answers : WriteAnswers} (sound : msg.Sound)
    (done : answers.Whole msg) (ptr : Nat) (socket : Int) :
    Live k (zmqlWriteBuffer msg answers ⟨ptr,socket,conn⟩).conn (s.post k msg.contents) := by
  unfold zmqlWriteBuffer Session.post
  by_cases ready : s.Ready k
  · rw [if_neg (not_not.mpr (live.ready.mpr ready)), if_pos ready, done.1, writeBufferWhole done.2]
    refine ⟨live.tracks,live.going,live.disconnectCb,?_,?_,fun _ => ready,live.running⟩
    · dsimp only
      rw [callsAppend, live.calls]
      exact List.append_nil _
    · dsimp only
      rw [sentAppend, live.sent, Session.sent, Session.sent]
      dsimp only
      have body : sent [.wrote (header (ipcBufferSize msg)),.wrote msg.contents] = frame msg.contents := by
        rw [← headerFrame sound, sent]
        simp [ZmqlOutput.written]
      rw [body, List.map_append, List.flatten_append, ← List.append_assoc]
      simp
  · rw [if_pos (fun same => ready (live.ready.mp same)), if_neg ready]
    exact live

theorem destroyConducts (live : Live k conn s) : Conducts k (ZmqReads.zmqlDestroyClient conn) s.close := by
  refine ⟨?_,?_,rfl⟩
  · rw [ZmqReads.zmqlDestroyClient]
    dsimp only
    rw [sentAppend, live.sent]
    split <;> exact List.append_nil _
  · rw [ZmqReads.zmqlDestroyClient, Session.calls]
    dsimp only
    rw [callsAppend, live.calls, live.disconnectCb]
    by_cases ready : s.Ready k ∧ k.disconnectCb = true
    · rw [if_pos ⟨live.ready.mpr ready.1,ready.2⟩, if_pos ⟨rfl,ready⟩]
      rfl
    · rw [if_neg fun both => ready ⟨live.ready.mp both.1,both.2⟩, if_neg fun all => ready all.2]
      rfl

end Connections

section Reading
variable {k : Callbacks} {conn : ZmqlConn} {s : Session}

theorem readOutputs (memory : Memory) (conn : ZmqlConn) (result : ReadResult) : ∃ (after : ZmqlConn) (more : List ZmqlOutput),
    ∀ outputs, ZmqReads.zmqlClientReadCb memory {conn with outputs := outputs} result = {after with outputs := outputs ++ more} := by
  have destroyed : ∀ conn : ZmqlConn, ∃ (after : ZmqlConn) (more : List ZmqlOutput),
      ∀ outputs, ZmqReads.zmqlDestroyClient {conn with outputs := outputs} = {after with outputs := outputs ++ more} :=
    fun conn => ⟨ZmqReads.zmqlDestroyClient conn,if conn.client.state = .data ∧ conn.disconnectCb then [.disconnected] else [],fun _ => rfl⟩
  by_cases gone : conn.freed = true
  · refine ⟨conn,[],fun outputs => ?_⟩
    rw [ZmqReads.zmqlClientReadCb.eq_def, if_pos gone, List.append_nil]
  cases result with
  | again =>
    refine ⟨zmqlSetClose conn false,[],fun outputs => ?_⟩
    rw [ZmqReads.zmqlClientReadCb, if_neg gone, List.append_nil]
    rfl
  | failed =>
    obtain ⟨after,more,is⟩ := destroyed (zmqlSetClose conn true)
    refine ⟨after,more,fun outputs => ?_⟩
    rw [ZmqReads.zmqlClientReadCb, if_neg gone]
    exact is outputs
  | got bytes =>
    cases bytes with
    | nil =>
      obtain ⟨after,more,is⟩ := destroyed (zmqlSetClose conn true)
      refine ⟨after,more,fun outputs => ?_⟩
      rw [ZmqReads.zmqlClientReadCb, if_neg gone]
      exact is outputs
    | cons b rest =>
      have processed : ∃ (done : ZmqlConn) (events : List ZmqlOutput), ∀ outputs,
          zmqlProcessRead memory (zmqlSetClose {conn with outputs := outputs} false) (b :: rest) =
            {done with outputs := outputs ++ events} :=
        ⟨zmqlProcessRead memory (zmqlSetClose {conn with outputs := []} false) (b :: rest),
          (zmqlProcessRead memory (zmqlSetClose {conn with outputs := []} false) (b :: rest)).outputs,fun _ => rfl⟩
      obtain ⟨done,events,moved⟩ := processed
      by_cases closes : done.client.closeFlag = true
      · obtain ⟨after,more,is⟩ := destroyed done
        refine ⟨after,events ++ more,fun outputs => ?_⟩
        rw [ZmqReads.zmqlClientReadCb, if_neg gone]
        dsimp only
        rw [moved, if_pos closes, is, List.append_assoc]
      · refine ⟨done,events,fun outputs => ?_⟩
        rw [ZmqReads.zmqlClientReadCb, if_neg gone]
        dsimp only
        rw [moved, if_neg closes]

theorem readWhole {c : Client} {memory : Memory} {result : ReadResult} {answers : List WriteResult}
    (whole : zmqlClientRawWrite (readAdds c memory result) answers = readAdds c memory result) :
    {ZmqReads.zmqlClientReadCb memory c.conn result with
      outputs := c.conn.outputs ++ zmqlClientRawWrite (readAdds c memory result) answers} = ZmqReads.zmqlClientReadCb memory c.conn result := by
  obtain ⟨after,more,is⟩ := readOutputs memory c.conn result
  have mine := is c.conn.outputs
  rw [whole, readAdds]
  rw [show {c.conn with outputs := c.conn.outputs} = c.conn from rfl] at mine
  rw [mine, List.drop_left]

theorem endWhole (c : Client) (memory : Memory) :
    zmqlClientRawWrite (readAdds c memory (.got [])) [] = readAdds c memory (.got []) := by
  unfold readAdds ZmqReads.zmqlClientReadCb
  split
  · rw [List.drop_length]
    rfl
  · dsimp only [ZmqReads.zmqlDestroyClient,zmqlSetClose]
    rw [List.drop_left]
    split <;> rfl

theorem readCallback (memory : Memory) (conn : ZmqlConn) (result : ReadResult) :
    (ZmqReads.zmqlClientReadCb memory conn result).disconnectCb = conn.disconnectCb := by
  unfold ZmqReads.zmqlClientReadCb
  split
  · rfl
  · split
    · rfl
    · rfl
    · rfl
    · dsimp only
      split <;> rfl

theorem scannedMore (bytes : List Byte) : scanned k (s.stream ++ bytes) = feed zmtp (scanned k s.stream) bytes := scanAppend ..

theorem readyMore (ready : s.Ready k) (bytes : List Byte) : (scanned k (s.stream ++ bytes)).state.state = .data := by
  rw [scannedMore, feed]
  cases pending : (scanned k s.stream).rest with
  | none => exact ready
  | some kept => exact (readySilent (kept ++ bytes) ready).2

theorem endedEarly {stream : List Byte} (ended : (scanned k stream).rest = none) : (scanned k stream).state.state ≠ .data :=
  ((scanCloseFlag rfl stream).1 ended).2

theorem sentMore {more : List ZmqlOutput} {bytes : List Byte} (posted : s.posted ≠ [] → s.Ready k)
    (added : (scanned k (s.stream ++ bytes)).events = (scanned k s.stream).events ++ more) {finished : Bool} :
    s.sent k ++ sent more = Session.sent k ⟨s.stream ++ bytes,s.posted,finished⟩ := by
  rw [Session.sent, Session.sent]
  dsimp only
  rw [added, sentAppend]
  by_cases none_ : s.posted = []
  · rw [none_]
    simp
  · have ready := posted none_
    have silent : sent more = [] := by
      rw [scannedMore, feed] at added
      cases pending : (scanned k s.stream).rest with
      | none =>
        rw [pending] at added
        rw [List.self_eq_append_right.mp added]
        rfl
      | some kept =>
        rw [pending] at added
        rw [← List.append_cancel_left added]
        exact (readySilent (kept ++ bytes) ready).1
    rw [silent]
    simp

theorem readLive (live : Live k conn s) {memory : Memory} {result : ReadResult} {ptr : Nat} {socket : Int}
    (legal : ReadLegal ⟨ptr,socket,conn⟩ memory result) :
    ((s.read k result).finished = false → (ZmqReads.zmqlClientReadCb memory conn result).freed = false ∧
      Live k (ZmqReads.zmqlClientReadCb memory conn result) (s.read k result)) ∧
    ((s.read k result).finished = true → (ZmqReads.zmqlClientReadCb memory conn result).freed = true ∧
      Conducts k (ZmqReads.zmqlClientReadCb memory conn result) (s.read k result)) := by
  obtain ⟨open_,clear⟩ := live.open_
  have live_ : ¬conn.freed = true := by simp [open_]
  have destroyed : ∀ flag, Conducts k (ZmqReads.zmqlDestroyClient (zmqlSetClose conn flag)) s.close := by
    intro flag
    obtain ⟨sent_,calls_,freed⟩ := destroyConducts live
    exact ⟨sent_,calls_,freed⟩
  cases result with
  | again =>
    rw [ZmqReads.zmqlClientReadCb, if_neg live_, setCloseClear clear]
    exact ⟨fun _ => ⟨open_,live⟩,fun finished => absurd (live.running.symm.trans finished) Bool.false_ne_true⟩
  | failed =>
    rw [ZmqReads.zmqlClientReadCb, if_neg live_]
    exact ⟨fun going => absurd going.symm Bool.false_ne_true,fun _ => ⟨rfl,destroyed true⟩⟩
  | got bytes =>
    cases bytes with
    | nil =>
      rw [ZmqReads.zmqlClientReadCb, if_neg live_]
      exact ⟨fun going => absurd going.symm Bool.false_ne_true,fun _ => ⟨rfl,destroyed true⟩⟩
    | cons b rest =>
      have some_ := List.cons_ne_nil b rest
      obtain ⟨fits,granted,sizes⟩ := legal some_
      have next := readTracks live.tracks ⟨b :: rest,some_,fits,memory⟩ (fun kept pending => by
          obtain ⟨-,-,-,contents⟩ := live.tracks.alive kept pending
          have client : conn.client = (scanned k s.stream).state := live.tracks.client
          rw [← client]
          exact contents ▸ sizes) (fun _ => granted)
      rw [← scannedMore, readStep] at next
      obtain ⟨after,more,is⟩ := readOutputs memory conn (.got (b :: rest))
      have mine := is conn.outputs
      rw [show {conn with outputs := conn.outputs} = conn from rfl] at mine
      rw [is] at next
      rw [mine]
      have added : (scanned k (s.stream ++ b :: rest)).events = (scanned k s.stream).events ++ more :=
        (@List.append_cancel_left _ [ZmqlOutput.wrote zmqSignatureData] _ _ next.outputs).symm
      have sent_ : sent (conn.outputs ++ more) = Session.sent k (s.read k (.got (b :: rest))) := by
        rw [sentAppend, live.sent]
        exact sentMore live.posted added
      have calls_ : calls (conn.outputs ++ more) = calls (scanned k (s.stream ++ b :: rest)).events := by
        rw [callsAppend, live.calls, added, callsAppend]
      have tracks : Tracks [.wrote zmqSignatureData] {after with outputs := .wrote zmqSignatureData :: (scanned k (s.stream ++ b :: rest)).events}
          (scanned k (s.stream ++ b :: rest)) := by
        rw [added]
        exact next
      constructor
      · intro going
        have pending := of_decide_eq_false going
        obtain ⟨kept,is_⟩ := Option.ne_none_iff_exists'.mp pending
        refine ⟨(next.alive kept is_).1,tracks,pending,?_,calls_,sent_,?_,going⟩
        · have same := readCallback memory conn (.got (b :: rest))
          rw [mine] at same
          exact same.trans live.disconnectCb
        · exact fun used => readyMore (live.posted used) (b :: rest)
      · intro finished
        have ended := of_decide_eq_true finished
        refine ⟨next.gone ended,sent_,?_,(next.gone ended).trans finished.symm⟩
        have early : ¬(s.read k (.got (b :: rest))).Ready k := endedEarly ended
        dsimp only
        rw [calls_, Session.calls, if_neg fun all => early all.2.1, List.append_nil]
        rfl

end Reading

structure Inv (k : Callbacks) (base : List Int) (w : World) (server : ZmqlServer) (h : Host) : Prop where
  here : w.server = some server
  callbacks : server.toCallbacks = k
  count : server.clientCount = server.clients.length
  ptrs : server.clients.map Client.ptr = h.live
  sockets : w.sockets.Perm (base ++ server.clients.map Client.socket)
  nodup : w.sockets.Nodup
  watched : w.watched.Perm (base.map (fun fd => (fd,none)) ++ server.clients.map fun c => (c.socket,some c.ptr))
  live : ∀ c ∈ server.clients, Live k c.conn (h.sessions c.ptr)
  past : ∀ c ∈ w.gone, Conducts k c.conn (h.sessions c.ptr)
  all : (h.live ++ w.gone.map Client.ptr).Perm (List.range h.count)
  fresh : w.fresh = h.count

section Lists
variable {k : Callbacks} {base : List Int} {w : World} {server : ZmqlServer} {h : Host} {c : Client}

theorem Inv.distinct (inv : Inv k base w server h) : (h.live ++ w.gone.map Client.ptr).Nodup :=
  inv.all.nodup_iff.mpr List.nodup_range

theorem Inv.ptrsNodup (inv : Inv k base w server h) : (server.clients.map Client.ptr).Nodup :=
  inv.ptrs ▸ (List.nodup_append.mp inv.distinct).1

theorem Inv.same (inv : Inv k base w server h) {a b : Client} (left : a ∈ server.clients) (right : b ∈ server.clients)
    (ptr : a.ptr = b.ptr) : a = b := List.inj_on_of_nodup_map inv.ptrsNodup left right ptr

theorem Inv.listed (inv : Inv k base w server h) (member : c ∈ server.clients) : c.ptr ∈ h.live :=
  inv.ptrs ▸ List.mem_map_of_mem member

theorem Inv.unfreed (inv : Inv k base w server h) {ptr : Nat} (live : ptr ∈ h.live) {a : Client} (freed : a ∈ w.gone) : a.ptr ≠ ptr :=
  fun same => (List.nodup_append.mp inv.distinct).2.2 ptr live a.ptr (List.mem_map_of_mem freed) same.symm

theorem Inv.found (inv : Inv k base w server h) (member : c ∈ server.clients) : findClient server c.ptr = some c := by
  cases found : findClient server c.ptr with
  | none => exact absurd (decide_eq_true rfl) (List.find?_eq_none.mp found c member)
  | some other =>
    have ptr : other.ptr = c.ptr := by simpa using List.find?_some found
    rw [inv.same (List.mem_of_find?_eq_some found) member ptr]

theorem Inv.absent (inv : Inv k base w server h) {ptr : Nat} : findClient server ptr = none ↔ ptr ∉ h.live := by
  rw [findClient, List.find?_eq_none, ← inv.ptrs]
  simp only [decide_eq_true_eq, List.mem_map, not_exists, not_and]

theorem Inv.split (inv : Inv k base w server h) (member : c ∈ server.clients) : ∃ before behind,
    server.clients = before ++ c :: behind ∧ (server.clients.eraseP fun other => other.ptr = c.ptr) = before ++ behind ∧
      h.live.erase c.ptr = (before ++ behind).map Client.ptr := by
  obtain ⟨other,before,behind,apart,same,is,rest⟩ := List.exists_of_eraseP (p := fun other => other.ptr = c.ptr) member (by simp)
  have inside : other ∈ server.clients := is ▸ List.mem_append_right _ List.mem_cons_self
  cases inv.same inside member (of_decide_eq_true same)
  refine ⟨before,behind,is,rest,?_⟩
  have absent : c.ptr ∉ before.map Client.ptr := by
    intro there
    obtain ⟨a,left,ptr⟩ := List.mem_map.mp there
    exact apart a left (decide_eq_true ptr)
  rw [← inv.ptrs, is, List.map_append, List.erase_append_right _ absent, List.map_cons, List.erase_cons_head, ← List.map_append]

end Lists

section Clients
variable {k : Callbacks} {base : List Int} {w : World} {server : ZmqlServer} {h : Host} {c c' : Client} {s : Session}

theorem Inv.stays (inv : Inv k base w server h) (member : c ∈ server.clients) (ptr : c'.ptr = c.ptr) (socket : c'.socket = c.socket)
    (live : Live k c'.conn s) : Inv k base {w with server := some (setClient server c')} (setClient server c')
      {h with sessions := Function.update h.sessions c.ptr s} := by
  have field : ∀ {B : Type} (g : Client → B), g c' = g c → (setClient server c').clients.map g = server.clients.map g := by
    intro B g same
    rw [setClient, List.map_map]
    apply List.map_congr_left
    intro a inside
    dsimp only [Function.comp]
    split
    · next here => rw [same, inv.same inside member (here.trans ptr)]
    · rfl
  have ptrs := field Client.ptr ptr
  have sockets := field Client.socket socket
  have watched := field (fun c => (c.socket,some c.ptr)) (by rw [ptr, socket])
  have length : (setClient server c').clients.length = server.clients.length := List.length_map _
  exact {
    here := rfl
    callbacks := inv.callbacks
    count := by
      rw [length]
      exact inv.count
    ptrs := ptrs.trans inv.ptrs
    sockets := sockets.symm ▸ inv.sockets
    nodup := inv.nodup
    watched := watched.symm ▸ inv.watched
    live := by
      intro a there
      obtain ⟨b,inside,is⟩ := List.mem_map.mp there
      by_cases here : b.ptr = c'.ptr
      · rw [if_pos here] at is
        dsimp only
        rw [← is, ptr, Function.update_self]
        exact live
      · rw [if_neg here] at is
        dsimp only
        rw [← is, Function.update_of_ne (ptr ▸ here)]
        exact inv.live b inside
    past := by
      intro a freed
      dsimp only
      rw [Function.update_of_ne (inv.unfreed (inv.listed member) freed)]
      exact inv.past a freed
    all := inv.all
    fresh := inv.fresh}

theorem Inv.ends (inv : Inv k base w server h) (member : c ∈ server.clients) (c' : Client) (ptr : c'.ptr = c.ptr) (socket : c'.socket = c.socket)
    (done : Conducts k c'.conn s) : ∃ server', ((w.unwatch c.socket).release server c').server = some server' ∧
      server'.socket = server.socket ∧ server'.clients = (server.clients.eraseP fun other => other.ptr = c.ptr) ∧
      Inv k base ((w.unwatch c.socket).release server c') server'
        {h with sessions := Function.update h.sessions c.ptr s, live := h.live.erase c.ptr} := by
  obtain ⟨before,behind,is,rest,live⟩ := inv.split member
  refine ⟨_,rfl,rfl,by rw [ptr],?_⟩
  have sockets : w.sockets.Perm (c.socket :: (base ++ (before ++ behind).map Client.socket)) := by
    refine inv.sockets.trans ?_
    rw [is, List.map_append, List.map_cons, List.map_append, ← List.append_assoc, ← List.append_assoc]
    exact List.perm_middle
  have apart : c.socket ∉ base ++ (before ++ behind).map Client.socket :=
    (List.nodup_cons.mp (sockets.nodup_iff.mp inv.nodup)).1
  have others : ∀ a ∈ before ++ behind, a ∈ server.clients ∧ a.ptr ≠ c.ptr := by
    intro a inside
    have listed : a ∈ server.clients := by
      rw [is]
      rcases List.mem_append.mp inside with left | right
      · exact List.mem_append_left _ left
      · exact List.mem_append_right _ (List.mem_cons_of_mem _ right)
    refine ⟨listed,fun same => ?_⟩
    cases inv.same listed member same
    exact apart (List.mem_append_right _ (List.mem_map_of_mem inside))
  exact {
    here := rfl
    callbacks := inv.callbacks
    count := by
      dsimp only
      rw [ptr, rest, inv.count, is]
      simp
      omega
    ptrs := by
      dsimp only
      rw [ptr, rest, live]
    sockets := by
      dsimp only [World.release]
      rw [ptr, rest, socket]
      have erased := sockets.erase c.socket
      rwa [List.erase_cons_head] at erased
    nodup := inv.nodup.erase _
    watched := by
      dsimp only [World.release]
      rw [ptr, rest]
      have kept : ∀ entry ∈ (base.map fun fd => (fd,(none : Option Nat))) ++ (before ++ behind).map fun c => (c.socket,some c.ptr),
          decide (entry.1 ≠ c.socket) = true := by
        intro entry inside
        apply decide_eq_true
        intro same
        apply apart
        rcases List.mem_append.mp inside with left | right
        · obtain ⟨fd,there,rfl⟩ := List.mem_map.mp left
          exact List.mem_append_left _ (same ▸ there)
        · obtain ⟨a,there,rfl⟩ := List.mem_map.mp right
          exact List.mem_append_right _ (same ▸ List.mem_map_of_mem there)
      have watched : w.watched.Perm ((c.socket,some c.ptr) ::
          ((base.map fun fd => (fd,(none : Option Nat))) ++ (before ++ behind).map fun c => (c.socket,some c.ptr))) := by
        refine inv.watched.trans ?_
        rw [is, List.map_append, List.map_cons, List.map_append, ← List.append_assoc, ← List.append_assoc]
        exact List.perm_middle
      have filtered := watched.filter fun entry => entry.1 ≠ c.socket
      rw [List.filter_cons_of_neg (by simp), List.filter_eq_self.mpr kept] at filtered
      exact filtered
    live := by
      intro a inside
      dsimp only at inside ⊢
      rw [ptr, rest] at inside
      obtain ⟨listed,other⟩ := others a inside
      rw [Function.update_of_ne other]
      exact inv.live a listed
    past := by
      intro a freed
      dsimp only
      rcases List.mem_cons.mp freed with rfl | freed
      · rw [ptr, Function.update_self]
        exact done
      · rw [Function.update_of_ne (inv.unfreed (inv.listed member) freed)]
        exact inv.past a freed
    all := by
      dsimp only [World.release, World.unwatch]
      rw [List.map_cons, ptr]
      refine List.Perm.trans ?_ inv.all
      have moved : (h.live.erase c.ptr ++ c.ptr :: w.gone.map Client.ptr).Perm (c.ptr :: (h.live.erase c.ptr ++ w.gone.map Client.ptr)) :=
        List.perm_middle
      exact moved.trans ((List.perm_cons_erase (inv.listed member)).symm.append_right _)
    fresh := inv.fresh}

end Clients

structure Closed (k : Callbacks) (w : World) (h : Host) : Prop where
  here : w.server = none
  off : h.listening = false
  sockets : w.sockets = []
  watched : w.watched = []
  live : h.live = []
  past : ∀ c ∈ w.gone, Conducts k c.conn (h.sessions c.ptr)
  all : (h.live ++ w.gone.map Client.ptr).Perm (List.range h.count)

def Runs (k : Callbacks) (socket : Int) (w : World) (h : Host) : Prop :=
  Closed k w h ∨ h.listening = true ∧ ∃ server, server.socket = socket ∧ Inv k [socket] w server h

section Steps
variable {k : Callbacks} {base : List Int} {w : World} {server : ZmqlServer} {h : Host}

theorem hostStays {ptr : Nat} {f : Session → Session} (live : ptr ∈ h.live) (going : (f (h.sessions ptr)).finished = false) :
    h.update ptr f = {h with sessions := Function.update h.sessions ptr (f (h.sessions ptr))} := by
  rw [Host.update, if_pos live]
  dsimp only
  rw [going, if_neg Bool.false_ne_true]

theorem hostEnds {ptr : Nat} {f : Session → Session} (live : ptr ∈ h.live) (finished : (f (h.sessions ptr)).finished = true) :
    h.update ptr f = {h with sessions := Function.update h.sessions ptr (f (h.sessions ptr)), live := h.live.erase ptr} := by
  rw [Host.update, if_pos live]
  dsimp only
  rw [finished, if_pos rfl]

theorem hostAbsent {ptr : Nat} {f : Session → Session} (gone : ptr ∉ h.live) : h.update ptr f = h := if_neg gone

theorem Inv.reads (inv : Inv k base w server h) {c : Client} (member : c ∈ server.clients) {memory : Memory} {result : ReadResult}
    {answers : List WriteResult} (legal : ReadLegal c memory result)
    (whole : zmqlClientRawWrite (readAdds c memory result) answers = readAdds c memory result) :
    ∃ server', server'.socket = server.socket ∧
      Inv k base (zmqlClientReadCb w server c memory result answers) server' (h.update c.ptr fun s => s.read k result) := by
  have conn := readLive (inv.live c member) (show ReadLegal ⟨c.ptr,c.socket,c.conn⟩ memory result from legal)
  unfold zmqlClientReadCb
  rw [readWhole whole]
  dsimp only
  cases finished : ((h.sessions c.ptr).read k result).finished with
  | false =>
    obtain ⟨open_,live⟩ := conn.1 finished
    rw [if_neg (by rw [open_]; exact Bool.false_ne_true), hostStays (inv.listed member) finished]
    exact ⟨setClient server ⟨c.ptr,c.socket,_⟩,rfl,inv.stays member rfl rfl live⟩
  | true =>
    obtain ⟨freed,done⟩ := conn.2 finished
    rw [if_pos freed, hostEnds (inv.listed member) finished]
    obtain ⟨server',-,socket,-,next⟩ := inv.ends member ⟨c.ptr,c.socket,ZmqReads.zmqlClientReadCb memory c.conn result⟩ rfl rfl done
    exact ⟨server',socket,next⟩

theorem Inv.destroys (inv : Inv k base w server h) {c : Client} (member : c ∈ server.clients) : ∃ server',
    server'.socket = server.socket ∧ server'.clients = (server.clients.eraseP fun other => other.ptr = c.ptr) ∧
      Inv k base (zmqlDestroyClient w server c) server' (h.update c.ptr .close) := by
  have live := inv.live c member
  unfold zmqlDestroyClient
  rw [if_neg (by rw [live.open_.2]; exact Bool.false_ne_true), hostEnds (inv.listed member) rfl]
  obtain ⟨server',-,socket,clients,next⟩ := inv.ends member ⟨c.ptr,c.socket,ZmqReads.zmqlDestroyClient c.conn⟩ rfl rfl
    (destroyConducts live)
  exact ⟨server',socket,clients,next⟩

theorem Inv.writes (inv : Inv k base w server h) {c : Client} (member : c ∈ server.clients) {msg : IpcBuffer}
    {answers : WriteAnswers} (sound : msg.Sound) (done : answers.Whole msg) : ∃ server',
      server'.socket = server.socket ∧ Inv k base {w with server := some (setClient server (zmqlWriteBuffer msg answers c))} server'
        (h.update c.ptr (.post k msg.contents)) := by
  have live := postLive (inv.live c member) sound done c.ptr c.socket
  have ptr : (zmqlWriteBuffer msg answers c).ptr = c.ptr := by
    unfold zmqlWriteBuffer
    split <;> rfl
  have socket : (zmqlWriteBuffer msg answers c).socket = c.socket := by
    unfold zmqlWriteBuffer
    split <;> rfl
  rw [hostStays (inv.listed member) live.running]
  exact ⟨setClient server (zmqlWriteBuffer msg answers c),rfl,inv.stays member ptr socket live⟩

theorem Inv.accepts (inv : Inv k base w server h) {socket : Int} {answer : WriteResult} (new : socket ∉ w.sockets) (good : socket ≠ -1)
    (whole : answer.taken zmqSignatureData = zmqSignatureData) : ∃ server',
    server'.socket = server.socket ∧ Inv k base (zmqlAcceptCb w server socket answer) server'
      {h with live := h.count :: h.live, sessions := Function.update h.sessions h.count ⟨[],[],false⟩, count := h.count + 1} := by
  have early : ∀ ptr ∈ h.live ++ w.gone.map Client.ptr, ptr ≠ h.count :=
    fun ptr member => Nat.ne_of_lt (List.mem_range.mp (inv.all.mem_iff.mp member))
  unfold zmqlAcceptCb
  have greeting : zmqlClientRawWrite (zmqlAccept server.msgCb server.connectCb server.disconnectCb).outputs [answer] =
      (zmqlAccept server.msgCb server.connectCb server.disconnectCb).outputs := by
    change zmqlClientRawWrite [.wrote zmqSignatureData] [answer] = [.wrote zmqSignatureData]
    rw [zmqlClientRawWrite, whole]
    rfl
  rw [if_neg good]
  dsimp only
  rw [greeting]
  let c : Client := ⟨w.fresh,socket,zmqlAccept server.msgCb server.connectCb server.disconnectCb⟩
  have ptr : c.ptr = h.count := inv.fresh
  have mine : Live server.toCallbacks c.conn ⟨[],[],false⟩ := acceptLive server.toCallbacks
  rw [inv.callbacks] at mine
  refine ⟨{server with clients := c :: server.clients, clientCount := server.clientCount + 1},rfl,?_⟩
  exact {
    here := rfl
    callbacks := inv.callbacks
    count := by
      dsimp only
      rw [List.length_cons, inv.count]
      rfl
    ptrs := by
      dsimp only
      rw [List.map_cons, inv.ptrs, ptr]
    sockets := (inv.sockets.cons socket).trans List.perm_middle.symm
    nodup := List.nodup_cons.mpr ⟨new,inv.nodup⟩
    watched := (inv.watched.cons (socket,some w.fresh)).trans List.perm_middle.symm
    live := by
      intro c member
      rcases List.mem_cons.mp member with rfl | inside
      · dsimp only
        rw [ptr, Function.update_self]
        exact mine
      · dsimp only
        rw [Function.update_of_ne (early _ (List.mem_append_left _ (inv.listed inside)))]
        exact inv.live c inside
    past := by
      intro c freed
      dsimp only
      rw [Function.update_of_ne (early _ (List.mem_append_right _ (List.mem_map_of_mem freed)))]
      exact inv.past c freed
    all := by
      dsimp only
      rw [List.range_succ]
      exact (inv.all.cons h.count).trans (List.perm_append_singleton _ _).symm
    fresh := congrArg (· + 1) inv.fresh}

theorem Inv.broadcasts (inv : Inv k base w server h) {msg : IpcBuffer} {answers : Nat → WriteAnswers} (sound : msg.Sound)
    (done : ∀ ptr, (answers ptr).Whole msg) : ∃ server', server'.socket = server.socket ∧
      Inv k base {w with server := some {server with clients := server.clients.map fun c => zmqlWriteBuffer msg (answers c.ptr) c}} server'
        {h with sessions := fun ptr => if ptr ∈ h.live then (h.sessions ptr).post k msg.contents else h.sessions ptr} := by
  have field : ∀ {B : Type} (g : Client → B), (∀ a conn, g {a with conn := conn} = g a) →
      (server.clients.map fun c => zmqlWriteBuffer msg (answers c.ptr) c).map g = server.clients.map g := by
    intro B g same
    rw [List.map_map]
    apply List.map_congr_left
    intro a _
    dsimp only [Function.comp, zmqlWriteBuffer]
    split
    · rfl
    · exact same a _
  have ptrs := field Client.ptr fun _ _ => rfl
  have sockets := field Client.socket fun _ _ => rfl
  have watched := field (fun c => (c.socket,some c.ptr)) fun _ _ => rfl
  refine ⟨{server with clients := server.clients.map fun c => zmqlWriteBuffer msg (answers c.ptr) c},rfl,?_⟩
  exact {
    here := rfl
    callbacks := inv.callbacks
    count := by
      dsimp only
      rw [List.length_map, inv.count]
    ptrs := ptrs.trans inv.ptrs
    sockets := sockets.symm ▸ inv.sockets
    nodup := inv.nodup
    watched := watched.symm ▸ inv.watched
    live := by
      intro a there
      obtain ⟨c,inside,rfl⟩ := List.mem_map.mp there
      have ptr : (zmqlWriteBuffer msg (answers c.ptr) c).ptr = c.ptr := by
        unfold zmqlWriteBuffer
        split <;> rfl
      dsimp only
      rw [ptr, if_pos (inv.listed inside)]
      exact postLive (inv.live c inside) sound (done c.ptr) c.ptr c.socket
    past := by
      intro a freed
      dsimp only
      rw [if_neg fun live => inv.unfreed live freed rfl]
      exact inv.past a freed
    all := inv.all
    fresh := inv.fresh}

theorem Inv.destroysAll (clients : List Client) : ∀ {w : World} {server : ZmqlServer} {h : Host}, Inv k base w server h →
    server.clients = clients → ∃ server', server'.clients = [] ∧ Inv k base (destroyAll w clients) server'
      {h with live := [], sessions := fun ptr => if ptr ∈ h.live then (h.sessions ptr).close else h.sessions ptr} := by
  induction clients with
  | nil =>
    intro w server h inv empty
    have live : h.live = [] := by rw [← inv.ptrs, empty, List.map_nil]
    refine ⟨server,empty,?_⟩
    have none_ : ∀ ptr, ptr ∉ h.live := by simp [live]
    have same : ({h with live := [], sessions := fun ptr => if ptr ∈ h.live then (h.sessions ptr).close else h.sessions ptr} : Host) =
        h := by
      simp only [none_, if_false]
      rw [← live]
    rw [same]
    exact inv
  | cons c rest ih =>
    intro w server h inv is
    have member : c ∈ server.clients := is ▸ List.mem_cons_self
    have new : c.ptr ∉ rest.map Client.ptr := by
      have nodup := inv.ptrsNodup
      rw [is] at nodup
      exact (List.nodup_cons.mp nodup).1
    have live : h.live = c.ptr :: rest.map Client.ptr := by rw [← inv.ptrs, is, List.map_cons]
    obtain ⟨server',-,clients,next⟩ := inv.destroys member
    rw [is, List.eraseP_cons_of_pos (by simp)] at clients
    obtain ⟨last,empty,all⟩ := ih next clients
    refine ⟨last,empty,?_⟩
    rw [destroyAll, inv.here]
    dsimp only
    rw [hostEnds (inv.listed member) rfl, live, List.erase_cons_head] at all
    convert all using 2
    funext ptr
    dsimp only
    rw [live]
    by_cases here : ptr = c.ptr
    · subst here
      rw [if_pos List.mem_cons_self, if_neg new, Function.update_self]
    · rw [Function.update_of_ne here]
      simp only [List.mem_cons, here, false_or]

end Steps

section Whole
variable {k : Callbacks} {socket : Int} {w : World} {h : Host}

theorem Inv.shuts {server : ZmqlServer} (inv : Inv k [server.socket] w server h) (positive : 0 < server.socket) :
    Closed k (zmqlDestroyTcpServer w server)
      {h with listening := false, live := [], sessions := fun ptr => if ptr ∈ h.live then (h.sessions ptr).close else h.sessions ptr} := by
  have apart : server.socket ∉ server.clients.map Client.socket :=
    (List.nodup_cons.mp (inv.sockets.nodup_iff.mp inv.nodup)).1
  have without : Inv k [] {w.unwatch server.socket with sockets := w.sockets.erase server.socket} server h := {
    here := inv.here
    callbacks := inv.callbacks
    count := inv.count
    ptrs := inv.ptrs
    sockets := by
      have erased := inv.sockets.erase server.socket
      rw [List.singleton_append, List.erase_cons_head] at erased
      exact erased
    nodup := inv.nodup.erase _
    watched := by
      have kept : ∀ entry ∈ server.clients.map fun c => (c.socket,some c.ptr), decide (entry.1 ≠ server.socket) = true := by
        intro entry inside
        obtain ⟨c,there,rfl⟩ := List.mem_map.mp inside
        exact decide_eq_true fun same => apart (same ▸ List.mem_map_of_mem there)
      have filtered := inv.watched.filter fun entry => entry.1 ≠ server.socket
      rw [List.map_singleton, List.singleton_append, List.filter_cons_of_neg (by simp), List.filter_eq_self.mpr kept] at filtered
      exact filtered
    live := inv.live
    past := inv.past
    all := inv.all
    fresh := inv.fresh}
  obtain ⟨last,empty,all⟩ := without.destroysAll server.clients rfl
  unfold zmqlDestroyTcpServer
  rw [if_pos positive]
  have sockets := all.sockets
  have watched := all.watched
  rw [empty] at sockets watched
  exact {
    here := rfl
    off := rfl
    sockets := sockets.eq_nil
    watched := watched.eq_nil
    live := rfl
    past := all.past
    all := all.all}

theorem Inv.steps {server : ZmqlServer} (inv : Inv k [server.socket] w server h) (on : h.listening = true) (positive : 0 < server.socket)
    (a : Action) (legal : Legal w a) : Runs k server.socket (act w server a) (serve k h a) := by
  have one : ∀ {ptr : Nat} {f : Session → Session} {g : Client → World},
      (∀ c ∈ server.clients, c.ptr = ptr → ∃ server', server'.socket = server.socket ∧
        Inv k [server.socket] (g c) server' (h.update ptr f)) →
      Runs k server.socket ((findClient server ptr).elim w g) (h.update ptr f) := by
    intro ptr f g each
    cases found : findClient server ptr with
    | none =>
      rw [hostAbsent (inv.absent.mp found)]
      exact .inr ⟨on,server,rfl,inv⟩
    | some c =>
      obtain ⟨server',socket,next⟩ := each c (List.mem_of_find?_eq_some found) (by simpa using List.find?_some found)
      refine .inr ⟨?_,server',socket,next⟩
      unfold Host.update
      split <;> exact on
  unfold serve
  rw [if_pos on]
  cases a with
  | accept socket answer =>
    dsimp only [act]
    by_cases good : socket = -1
    · rw [zmqlAcceptCb, if_pos good, if_pos good]
      exact .inr ⟨on,server,rfl,inv⟩
    · rw [if_neg good]
      obtain ⟨server',same,next⟩ := inv.accepts legal.1 good legal.2
      exact .inr ⟨on,server',same,next⟩
  | read ptr memory result answers =>
    apply one
    rintro c member rfl
    obtain ⟨fine,whole⟩ := legal server inv.here c member rfl
    exact inv.reads member fine whole
  | write ptr msg answers =>
    apply one
    rintro c member rfl
    exact inv.writes member legal.1 legal.2
  | broadcast msg answers =>
    obtain ⟨server',same,next⟩ := inv.broadcasts legal.1 legal.2
    exact .inr ⟨on,server',same,next⟩
  | destroyClient ptr =>
    apply one
    rintro c member rfl
    obtain ⟨server',same,-,next⟩ := inv.destroys member
    exact ⟨server',same,next⟩
  | destroyServer => exact .inl (inv.shuts positive)

theorem stepRuns (positive : 0 < socket) (runs : Runs k socket w h) (a : Action) (legal : Legal w a) :
    Runs k socket (step w a) (serve k h a) := by
  rcases runs with closed | ⟨on,server,rfl,inv⟩
  · rw [step, closed.here, serve.eq_def, if_neg (by rw [closed.off]; exact Bool.false_ne_true)]
    exact .inl closed
  · rw [step, inv.here]
    exact inv.steps on positive a legal

theorem runRuns (positive : 0 < socket) (acts : List Action) : ∀ {w : World} {h : Host}, Runs k socket w h → Along step Legal w acts →
    Runs k socket (exec step w acts) (exec (serve k) h acts) := by
  induction acts with
  | nil => exact fun runs _ => runs
  | cons a rest ih => exact fun runs legal => ih (stepRuns positive runs a legal.1) legal.2

theorem Runs.start (k : Callbacks) (socket : Int) : Runs k socket (zmqlCreateTcpServer socket k) listening := by
  refine .inr ⟨rfl,⟨k,socket,0,[]⟩,rfl,?_⟩
  exact {
    here := rfl
    callbacks := rfl
    count := rfl
    ptrs := rfl
    sockets := List.Perm.refl _
    nodup := List.nodup_singleton socket
    watched := List.Perm.refl _
    live := fun _ member => nomatch member
    past := fun _ member => nomatch member
    all := List.Perm.refl _
    fresh := rfl}

theorem Runs.hosts (runs : Runs k socket w h) : Hosts k w h := by
  rcases runs with closed | ⟨on,server,rfl,inv⟩
  · refine ⟨?_,?_,fun _ => ⟨closed.sockets,closed.watched,closed.live⟩,closed.past,closed.all⟩
    · rw [closed.here, closed.off]
      rfl
    · intro server here
      rw [closed.here] at here
      cases here
  · refine ⟨?_,?_,?_,inv.past,inv.all⟩
    · rw [inv.here, on]
      rfl
    · intro server' here
      cases inv.here.symm.trans here
      have length : server.clients.length = h.live.length := by rw [← inv.ptrs, List.length_map]
      exact ⟨length ▸ inv.count,inv.ptrs,⟨inv.sockets,inv.nodup⟩,inv.watched,fun c member => (inv.live c member).conducts⟩
    · intro none_
      rw [inv.here] at none_
      cases none_

end Whole

/- Over any run the server has the connections that are open, and each of them, open or gone, went as
its session did: the peer's bytes alone decide what the program was told, and the peer was sent the
greetings and every message that was for it. -/
theorem serverHosts (k : Callbacks) (socket : Int) (positive : 0 < socket) (acts : List Action)
    (legal : Along step Legal (zmqlCreateTcpServer socket k) acts) :
    Hosts k (exec step (zmqlCreateTcpServer socket k) acts) (exec (serve k) listening acts) :=
  (runRuns positive acts (Runs.start k socket) legal).hosts

def grantedMemory : Memory := { malloc := some fun _ => 0, realloc := some fun _ => 0 }

def sampleRun : List Action :=
  [.accept 4 (.wrote 10),.read 0 grantedMemory (.got helloStream) [.wrote 1,.wrote 53,.wrote 28],
    .broadcast ⟨8,3,some [1,2,3]⟩ fun _ => ⟨.wrote 2,[.again,.wrote 1,.wrote 9]⟩,.read 0 grantedMemory (.got []) []]

theorem sampleHosts : Along step Legal (zmqlCreateTcpServer 3 ⟨true,true,false⟩) sampleRun ∧
    Hosts ⟨true,true,false⟩ (exec step (zmqlCreateTcpServer 3 ⟨true,true,false⟩) sampleRun)
      (exec (serve ⟨true,true,false⟩) listening sampleRun) := by
  have legal : Along step Legal (zmqlCreateTcpServer 3 ⟨true,true,false⟩) sampleRun := by
    refine ⟨⟨show (4 : Int) ∉ [3] by decide,rfl⟩,?_,⟨by decide,fun _ => ⟨rfl,rfl⟩⟩,?_,trivial⟩
    · intro server here c member ptr
      cases here
      cases List.mem_singleton.mp member
      exact ⟨fun _ => ⟨by decide,by decide +kernel,helloSizes⟩,by decide +kernel⟩
    · intro server here c member ptr
      exact ⟨fun some_ => absurd rfl some_,endWhole c grantedMemory⟩
  exact ⟨legal,serverHosts ⟨true,true,false⟩ 3 (by decide) sampleRun legal⟩

end LibProc.ZmqServer
