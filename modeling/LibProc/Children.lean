import LibProc.FdRegistry
import LibProc.Runs
import LibProc.XdrBytes
import Mathlib.Logic.Function.Basic

/-! A child process in `proclib.c`: its record with the three descriptors and the buffers of its output streams,
from `read` to the callback of a stream and to the end of the child. The record is freed, and its buffers with
it, when the child has been reaped and its descriptors are -1. `fds`, `reaped`, `finished` and `eof` are ghosts:
the descriptors the child started with, and what has happened to it; `received` has what was read into a
buffer, and `ledger` what became of it, in order. The handler of a descriptor runs while it is open. -/
namespace LibProc.Children
open XdrBytes (Byte splice)
open FdRegistry (eventKeep eventRemove)
open Runs (exec)

def readBuffMin : Nat := 4096
def readBuffMax : Nat := readBuffMin * 4
def childBuffErr : Int := -2
def childBuffStealBuff : Int := -3
def childBuffNorm : Int := 0
def childBuffClosing : Int := 1
def childBuffNoroom : Int := 2

inductive Stream where
  | stdin
  | stdout
  | stderr
  deriving DecidableEq, Repr

inductive ChildState where
  | init
  | flushPipes
  deriving DecidableEq, Repr

structure BufferedStreamState where
  cb : Option Nat
  buff : Option (List Byte)
  buffLen : Nat
  buffCap : Nat
  deriving DecidableEq, Repr

def BufferedStreamState.buffered (state : BufferedStreamState) : List Byte := (state.buff.getD []).take state.buffLen

def noStream : BufferedStreamState := ⟨none,none,0,0⟩

/- `fd` holds stdin_fd, stdout_fd and stderr_fd, and `streamState` is used for the last two. -/
structure Child where
  state : ChildState
  fd : Stream → Int
  streamState : Stream → BufferedStreamState
  deathCb : Option Nat

inductive Handler where
  | dump
  | echo
  | reader
  deriving DecidableEq, Repr

inductive Stop where
  | freedChild
  | outside
  | noRoom
  | exited
  deriving DecidableEq, Repr

inductive Read where
  | data (first : Byte) (more : List Byte)
  | eof
  | error
  | again
  deriving DecidableEq, Repr

/- What one call of a stream's callback does: the descriptors of its child it closes, and its result. -/
structure CbAnswer where
  closes : List Int
  drainLen : Int
  deriving DecidableEq, Repr

/- The callback consumed bytes or stole the buffer; the library dropped a full buffer, freed what was left in it at
the end of the stream, or freed the record with them. -/
inductive Entry where
  | consumed (urgent : Int) (bytes : List Byte)
  | stolen (urgent : Int) (bytes : List Byte)
  | dropped (bytes : List Byte)
  | leftover (bytes : List Byte)
  | freed (bytes : List Byte)
  deriving DecidableEq, Repr

def Entry.bytes : Entry → List Byte
  | .consumed _ bytes => bytes
  | .stolen _ bytes => bytes
  | .dropped bytes => bytes
  | .leftover bytes => bytes
  | .freed bytes => bytes

/- `reports` has what was found in `deathCb` each time it was called for. -/
structure World where
  child : Option Child
  handlers : Int → Option Handler
  reports : List (Option Nat)
  stop : Option Stop
  fds : Stream → Int
  reaped : Bool
  finished : Stream → Bool
  eof : Stream → Bool
  received : Stream → List Byte
  ledger : Stream → List Entry

def fork (fds : Stream → Int) : World :=
  ⟨some ⟨.init,fds,fun _ => noStream,none⟩,fun _ => none,[],none,fds,false,fun stream => decide (fds stream = -1),fun _ => false,
    fun _ => [],fun _ => []⟩

def World.ended (w : World) : Bool := w.reaped && (w.finished .stdin && w.finished .stdout && w.finished .stderr)

def World.record (w : World) : Except Stop Child :=
  match w.child with
  | none => .error .freedChild
  | some child => .ok child

def lost (entry : List Byte → Entry) (bytes : List Byte) : List Entry := if bytes = [] then [] else [entry bytes]

def validatePipeFlush (w : World) : Except Stop World := do
  let child ← w.record
  if child.state ≠ .flushPipes then .ok w
  else if child.fd .stdin ≠ -1 ∨ child.fd .stdout ≠ -1 ∨ child.fd .stderr ≠ -1 then .ok w
  else .ok { w with
    child := none
    reports := w.reports ++ [child.deathCb]
    ledger := fun stream => w.ledger stream ++ lost .freed (child.streamState stream).buffered }

def sigchldHandler (w : World) : Except Stop World :=
  match w.child with
  | none => .ok w
  | some child => validatePipeFlush { w with child := some { child with state := .flushPipes } }

def Child.without (child : Child) (fd : Int) : Child :=
  { child with fd := fun stream => if fd = child.fd stream then -1 else child.fd stream }

def chldCloseFd (w : World) (fd : Int) : Except Stop World := do
  let child ← w.record
  if fd < 0 then .ok w
  else if fd ≠ child.fd .stdin ∧ fd ≠ child.fd .stdout ∧ fd ≠ child.fd .stderr then .ok w
  else validatePipeFlush { w with child := some (child.without fd) }

def World.finish (w : World) (fd : Int) : World :=
  { w with finished := fun stream => w.finished stream || (decide (0 ≤ fd) && decide (w.fds stream = fd)) }

def closes (w : World) (fd : Int) : Except Stop World := chldCloseFd (w.finish fd) fd

def chldCloseStdin (w : World) : Except Stop World := do
  let child ← w.record
  closes w (child.fd .stdin)

def World.put (w : World) (stream : Stream) (state : BufferedStreamState) (read : List Byte) (entries : List Entry) : World :=
  { w with
    child := w.child.map fun child => { child with streamState := Function.update child.streamState stream state }
    received := Function.update w.received stream (w.received stream ++ read)
    ledger := Function.update w.ledger stream (w.ledger stream ++ entries) }

def World.stream (w : World) (stream : Stream) : Except Stop BufferedStreamState := do
  let child ← w.record
  .ok (child.streamState stream)

def compress (drainLen : Nat) : Nat → Nat → List Byte → Option (List Byte)
  | 0,_,buff => some buff
  | places + 1,i,buff => do
    let byte ← buff[i + drainLen]?
    compress drainLen places (i + 1) (buff.set i byte)

def BufferedStreamState.drain (state : BufferedStreamState) (urgent drainLen : Int) :
    Except Stop (BufferedStreamState × Entry × Bool) :=
  match state.buff with
  | none => .error .outside
  | some buff =>
    if drainLen = childBuffStealBuff then
      .ok ({ state with buff := none, buffLen := 0, buffCap := 0 },.stolen urgent state.buffered,false)
    else if (state.buffLen : Int) ≤ drainLen then .ok ({ state with buffLen := 0 },.consumed urgent state.buffered,false)
    else if drainLen < 0 then .error .outside
    else
      let left := state.buffLen - drainLen.toNat
      match compress drainLen.toNat left 0 buff with
      | none => .error .outside
      | some buff =>
        .ok ({ state with buff := some buff, buffLen := left },.consumed urgent (state.buffered.take drainLen.toNat),drainLen ≠ 0)

/- One answer for each call of the callback; where they run out it returns 0. An error is not looked at further. -/
def drainBuffer (stream : Stream) (urgent : Int) : List CbAnswer → World → Except Stop (List CbAnswer × World)
  | [],w => .ok ([],w)
  | answer :: rest,w => do
    let state ← w.stream stream
    if state.cb = none ∨ state.buffLen = 0 then .ok (answer :: rest,w)
    else
      let w ← answer.closes.foldlM closes w
      if answer.drainLen = childBuffErr then .ok (rest,w)
      else
        let state ← w.stream stream
        let (state,entry,again) ← state.drain urgent answer.drainLen
        let w := w.put stream state [] [entry]
        if again = true then drainBuffer stream urgent rest w else .ok (rest,w)

def drainFull (stream : Stream) (buffCap : Nat) (answers : List CbAnswer) (w : World) : Except Stop (List CbAnswer × World) :=
  if readBuffMax ≤ buffCap then do
    let (answers,w) ← drainBuffer stream childBuffNoroom answers w
    let state ← w.stream stream
    .ok (answers,if state.buffCap ≤ state.buffLen then w.put stream { state with buffLen := 0 } [] (lost .dropped state.buffered) else w)
  else .ok (answers,w)

def fresh (garbage : Nat → Byte) (size : Nat) : List Byte := (List.range size).map garbage

def BufferedStreamState.grow (memory : Bool) (garbage : Nat → Byte) (state : BufferedStreamState) : Except Stop BufferedStreamState :=
  match state.buff with
  | none =>
    if memory = true then .ok { state with buff := some (fresh garbage readBuffMin), buffLen := 0, buffCap := readBuffMin }
    else .error .exited
  | some buff =>
    if state.buffCap ≤ state.buffLen ∧ state.buffCap < readBuffMax then
      let buffCap := min (state.buffCap * 2) readBuffMax
      if memory = true then .ok { state with buff := some (buff ++ fresh garbage (buffCap - buff.length)), buffCap := buffCap }
      else .error .exited
    else .ok state

def makeRoom (stream : Stream) (memory : Bool) (garbage : Nat → Byte) (answers : List CbAnswer) (w : World) :
    Except Stop (List CbAnswer × World) := do
  let state ← w.stream stream
  if state.buffLen < state.buffCap then .ok (answers,w)
  else
    let (answers,w) ← drainFull stream state.buffCap answers w
    let state ← w.stream stream
    let state ← state.grow memory garbage
    .ok (answers,w.put stream state [] [])

def BufferedStreamState.readInto (state : BufferedStreamState) (bytes : List Byte) : Except Stop BufferedStreamState :=
  match state.buff with
  | none => .error .outside
  | some buff =>
    if buff.length < state.buffLen + bytes.length then .error .outside
    else .ok { state with buff := some (splice buff state.buffLen bytes), buffLen := state.buffLen + bytes.length }

def BufferedStreamState.free (state : BufferedStreamState) : BufferedStreamState :=
  if state.buff.isSome = true then { state with buff := none, buffLen := 0, buffCap := 0 } else state

def World.atEof (w : World) (stream : Stream) : World := { w with eof := Function.update w.eof stream true }

/- The end of the stream is the callback's last chance: what it leaves is freed, with a warning. A failed read is not
told to it. -/
def childReadData (w : World) (fd : Int) (read : Read) (answers : List CbAnswer) (memory : Bool) (garbage : Nat → Byte) :
    Except Stop (Int × World) := do
  let child ← w.record
  if fd ≠ child.fd .stdout ∧ fd ≠ child.fd .stderr then .ok (eventRemove,w)
  else
    let stream := if fd = child.fd .stdout then Stream.stdout else .stderr
    let (answers,w) ← makeRoom stream memory garbage answers w
    let state ← w.stream stream
    if state.buffCap ≤ state.buffLen then .error .noRoom
    else match read with
      | .data first more => do
        let bytes := (first :: more).take (state.buffCap - state.buffLen)
        let state ← state.readInto bytes
        let (_,w) ← drainBuffer stream childBuffNorm answers (w.put stream state bytes [])
        .ok (eventKeep,w)
      | .eof => do
        let (_,w) ← drainBuffer stream childBuffClosing answers w
        let state ← w.stream stream
        let w := (w.put stream state.free [] (lost .leftover state.buffered)).atEof stream
        .ok (eventRemove,← closes w fd)
      | .error => .ok (eventRemove,← closes w fd)
      | .again => .ok (eventKeep,w)

def discardChildData (w : World) (fd : Int) : Read → Except Stop (Int × World)
  | .data _ _ => .ok (eventKeep,w)
  | .eof => do .ok (eventRemove,← closes w fd)
  | .error => .ok (eventRemove,w.finish fd)
  | .again => .ok (eventRemove,w)

def World.hasOpen (w : World) (fd : Int) : Bool :=
  w.child.any fun child => decide (0 ≤ fd ∧ (fd = child.fd .stdin ∨ fd = child.fd .stdout ∨ fd = child.fd .stderr))

def handle (w : World) (handler : Handler) (fd : Int) (read : Read) (answers : List CbAnswer) (memory : Bool) (garbage : Nat → Byte) :
    Except Stop (Int × World) :=
  match handler with
  | .dump => discardChildData w fd read
  | .echo => discardChildData w fd read
  | .reader => childReadData w fd read answers memory garbage

def ready (w : World) (fd : Int) (read : Read) (answers : List CbAnswer) (memory : Bool) (garbage : Nat → Byte) : Except Stop World :=
  match w.handlers fd with
  | none => .ok w
  | some handler =>
    if w.hasOpen fd then do
      let (keep,w) ← handle w handler fd read answers memory garbage
      .ok (if keep = eventRemove then { w with handlers := Function.update w.handlers fd none } else w)
    else .ok w

/- CHLD_ignore_stdout, CHLD_echo_stdout, CHLD_stdout_reader and the same for stderr; `memory` is
false where EVT_fd_add fails. -/
def chldHandle (w : World) (stream : Stream) (handler : Handler) (cb : Option Nat) (memory : Bool) : World :=
  match w.child with
  | none => w
  | some child =>
    if child.fd stream < 0 then w
    else
      let w := if handler = .reader then w.put stream { child.streamState stream with cb := cb } [] [] else w
      if memory then { w with handlers := Function.update w.handlers (child.fd stream) (some handler) } else w

def chldDeathNotice (w : World) (deathCb : Option Nat) : World :=
  { w with child := w.child.map fun child => { child with deathCb := deathCb } }

inductive Act where
  | handle (stream : Stream) (handler : Handler) (cb : Option Nat) (memory : Bool)
  | deathNotice (deathCb : Option Nat)
  | reap
  | ready (fd : Int) (read : Read) (answers : List CbAnswer) (memory : Bool) (garbage : Nat → Byte)
  | closeFd (fd : Int)
  | closeStdin

/- The child is reaped once, and the record is not used after it was freed. -/
def act (w : World) : Act → Except Stop World
  | .handle stream handler cb memory => .ok (if stream = .stdin then w else chldHandle w stream handler cb memory)
  | .deathNotice deathCb => .ok (chldDeathNotice w deathCb)
  | .reap => if w.reaped then .ok w else sigchldHandler { w with reaped := true }
  | .ready fd read answers memory garbage => ready w fd read answers memory garbage
  | .closeFd fd => if w.child.isSome then closes w fd else .ok w
  | .closeStdin => if w.child.isSome then chldCloseStdin w else .ok w

def step (w : World) (a : Act) : World :=
  if w.stop.isSome then w
  else match act w a with
    | .error stop => { w with stop := some stop }
    | .ok w => w

end LibProc.Children
