import LibProc.Ipc
import LibProc.Runs

/-! proclib.c: the messages sent on one descriptor. Whether a send is to be retried is read
from `errno` after socket_write, whose ERR_WARN has reset it by then. `wire` records
what sendto took, newest first, and is not part of the process. -/
namespace LibProc.Outgoing
open XdrBytes Ipc Runs

abbrev MsgId := Nat

inductive Errno where
  | zero
  | eagain
  | other
  deriving DecidableEq, Repr

inductive Sendto where
  | taken
  | failed (errno : Errno)
  deriving DecidableEq, Repr

structure MsgData where
  data : List Byte
  dest : Option Address
  deriving DecidableEq, Repr

/- `writeEvt` is the argument of the EVENT_FD_WRITE callback of the descriptor, when one is
registered. -/
structure Link where
  errno : Errno
  msgs : MsgId → MsgData
  fresh : MsgId
  writeEvt : Option MsgId
  freed : List MsgId
  wire : List (MsgId × List Byte × Address)
  alive : Bool

def sendto (w : Link) (k : MsgId) (data : List Byte) (dest : Address) : Sendto → Link
  | .taken => {w with wire := (k,data,dest) :: w.wire}
  | .failed errno => {w with errno := errno}

def errnoWarn (w : Link) : Link := if w.errno ≠ .zero then {w with errno := .zero} else w

def errWarn (cmd : Link → Link) (w : Link) : Link := errnoWarn (cmd {w with errno := .zero})

def socketWrite (w : Link) (k : MsgId) (data : List Byte) (dest : Address) (out : Sendto) : Link :=
  errWarn (fun w => sendto w k data dest out) w

def evtFdAdd (w : Link) (k : MsgId) : Link := {w with writeEvt := some k}

/- The malloc of the message is not checked. -/
def procCmdSockaddrRawInternal (w : Link) (malloc : Bool) (data : List Byte) (dest : Address) (out : Sendto) : Link :=
  if malloc then
    let k := w.fresh
    let w := {w with msgs := Function.update w.msgs k ⟨data,none⟩, fresh := k + 1, errno := .zero}
    let w := socketWrite w k data dest out
    match w.errno with
    | .zero => {w with freed := k :: w.freed}
    | .eagain => evtFdAdd {w with msgs := Function.update w.msgs k ⟨data,some dest⟩} k
    | .other => w
  else {w with alive := false}

inductive Send where
  | cmd (port : Int) (cmd : Byte) (data : List Byte)
  | sockaddr (cmd : Byte) (data : List Byte) (dest : Address)
  | rawSockaddr (data : List Byte) (dest : Address)

def htons (port : BitVec 16) : BitVec 16 := port.extractLsb' 0 8 ++ port.extractLsb' 8 8

def loopback : BitVec 32 := 0x0100007f

def message : Send → Option (List Byte × Address)
  | .cmd port cmd data => if 0 < port then some (cmd :: data,⟨htons (BitVec.ofInt 16 port),loopback⟩) else none
  | .sockaddr cmd data dest => some (cmd :: data,dest)
  | .rawSockaddr data dest => some (data,dest)

def procCmd (w : Link) (send : Send) (malloc : Bool) (out : Sendto) : Link :=
  match message send with
  | none => w
  | some (data,dest) => procCmdSockaddrRawInternal w malloc data dest out

def socketWriteCb (w : Link) (out : Sendto) : Link :=
  match w.writeEvt with
  | none => w
  | some k => match (w.msgs k).dest with
    | none => w
    | some dest =>
      let w := socketWrite {w with errno := .zero} k (w.msgs k).data dest out
      match w.errno with
      | .zero => {w with freed := k :: w.freed, writeEvt := none}
      | .eagain => w
      | .other => {w with writeEvt := none}

inductive Action where
  | send (send : Send) (malloc : Bool) (out : Sendto)
  | writeReady (out : Sendto)

def step (w : Link) : Action → Link
  | .send send malloc out => procCmd w send malloc out
  | .writeReady out => socketWriteCb w out

def start (errno : Errno) (msgs : MsgId → MsgData) : Link := ⟨errno,msgs,0,none,[],[],true⟩

def Pattern : Sendto → Prop
  | .taken => True
  | .failed errno => errno = .eagain

instance : ∀ out, Decidable (Pattern out)
  | .taken => inferInstanceAs (Decidable True)
  | .failed _ => inferInstanceAs (Decidable (_ = _))

def Legal (w : Link) : Action → Prop
  | .send _ _ out => w.alive = true ∧ Pattern out
  | .writeReady out => w.alive = true ∧ Pattern out

instance (w : Link) : ∀ a, Decidable (Legal w a)
  | .send .. => inferInstanceAs (Decidable (_ ∧ _))
  | .writeReady .. => inferInstanceAs (Decidable (_ ∧ _))

def times (w : Link) (k : MsgId) : Nat := w.wire.countP fun row => row.1 == k

/- A message a send function took over was sent once, or it is held for the callback. -/
def Kept (w : Link) (k : MsgId) : Prop :=
  (times w k = 1 ∧ w.writeEvt ≠ some k) ∨ (times w k = 0 ∧ w.writeEvt = some k ∧ k ∉ w.freed)

def NoneLost (w : Link) : Prop := ∀ k, k < w.fresh → Kept w k

def Unblocked : Action → Prop
  | .send send malloc out => message send ≠ none → malloc = true → out = .taken
  | .writeReady _ => True

section Step
variable {w : Link} {k : MsgId} {data : List Byte} {dest : Address} {out : Sendto}

def taken (k : MsgId) (data : List Byte) (dest : Address) : Sendto → List (MsgId × List Byte × Address)
  | .taken => [(k,data,dest)]
  | .failed _ => []

theorem socketWriteSpec (w : Link) (k : MsgId) (data : List Byte) (dest : Address) (out : Sendto) :
    socketWrite w k data dest out = {w with errno := .zero, wire := taken k data dest out ++ w.wire} := by
  cases out with
  | taken => rfl
  | failed errno => cases errno <;> rfl

theorem sendSpec (w : Link) (data : List Byte) (dest : Address) (out : Sendto) :
    procCmdSockaddrRawInternal w true data dest out = {w with
      errno := .zero, msgs := Function.update w.msgs w.fresh ⟨data,none⟩, fresh := w.fresh + 1,
      freed := w.fresh :: w.freed, wire := taken w.fresh data dest out ++ w.wire} := by
  simp only [procCmdSockaddrRawInternal,socketWriteSpec,if_true]

structure Quiet (w : Link) : Prop where
  idle : w.writeEvt = none
  past : ∀ row ∈ w.wire, row.1 < w.fresh

theorem startQuiet (errno : Errno) (msgs : MsgId → MsgData) : Quiet (start errno msgs) :=
  ⟨rfl,by simp [start]⟩

theorem Quiet.kept (quiet : Quiet w) : Kept w k ↔ times w k = 1 := by
  simp [Kept,quiet.idle]

theorem Quiet.unsent (quiet : Quiet w) : times w w.fresh = 0 := by
  rw [times, List.countP_eq_zero]
  intro row mem
  have := quiet.past row mem
  simp [this.ne]

theorem sendQuiet (quiet : Quiet w) : Quiet (procCmdSockaddrRawInternal w true data dest out) := by
  rw [sendSpec]
  refine ⟨quiet.idle,?_⟩
  intro row mem
  rcases List.mem_append.mp mem with new | old
  · cases out with
    | taken =>
      cases List.mem_singleton.mp new
      exact Nat.lt_succ_self _
    | failed errno => cases new
  · exact (quiet.past row old).trans (Nat.lt_succ_self _)

theorem sendTimes (quiet : Quiet w) (k : MsgId) :
    times (procCmdSockaddrRawInternal w true data dest out) k =
      if k = w.fresh then (taken w.fresh data dest out).length else times w k := by
  rw [sendSpec]
  simp only [times,List.countP_append]
  by_cases same : k = w.fresh
  · subst same
    have none_ := quiet.unsent
    rw [times] at none_
    rw [if_pos rfl, none_]
    cases out <;> simp [taken]
  · rw [if_neg same]
    cases out <;> simp [taken,Ne.symm same]

theorem sendKeeps (quiet : Quiet w) :
    NoneLost (procCmdSockaddrRawInternal w true data dest out) ↔ NoneLost w ∧ out = .taken := by
  have fresh : (procCmdSockaddrRawInternal w true data dest out).fresh = w.fresh + 1 := by rw [sendSpec]
  simp only [NoneLost,(sendQuiet quiet).kept,quiet.kept,fresh,sendTimes quiet]
  constructor
  · intro all
    refine ⟨fun k old => ?_,?_⟩
    · have one := all k (old.trans (Nat.lt_succ_self _))
      rwa [if_neg old.ne] at one
    · have one := all w.fresh (Nat.lt_succ_self _)
      rw [if_pos rfl] at one
      cases out with
      | taken => rfl
      | failed errno => contradiction
  · rintro ⟨all,rfl⟩ k early
    by_cases same : k = w.fresh
    · rw [if_pos same]
      rfl
    · rw [if_neg same]
      exact all k (lt_of_le_of_ne (Nat.le_of_lt_succ early) same)

theorem stepQuiet (w : Link) (a : Action) (quiet : Quiet w) : Quiet (step w a) := by
  cases a with
  | send send malloc out =>
    simp only [step,procCmd]
    split
    · exact quiet
    · cases malloc with
      | true => exact sendQuiet quiet
      | false => exact ⟨quiet.idle,quiet.past⟩
  | writeReady out =>
    simp only [step,socketWriteCb,quiet.idle]
    exact quiet

theorem stepKeeps (w : Link) (a : Action) (quiet : Quiet w) : NoneLost (step w a) ↔ NoneLost w ∧ Unblocked a := by
  cases a with
  | send send malloc out =>
    simp only [step,procCmd,Unblocked]
    cases passed : message send with
    | none => simp
    | some row =>
      cases malloc with
      | true =>
        simp only [ne_eq,reduceCtorEq,not_false_eq_true,forall_const]
        exact sendKeeps quiet
      | false =>
        simp only [ne_eq,reduceCtorEq,not_false_eq_true,Bool.false_eq_true,false_implies,implies_true,and_true]
        exact Iff.rfl
  | writeReady out =>
    simp only [step,socketWriteCb,quiet.idle,Unblocked,and_true]

end Step

/- A run loses nothing just when no sendto of a send function is refused. -/
theorem runLosesNone (errno : Errno) (msgs : MsgId → MsgData) (acts : List Action) :
    NoneLost (exec step (start errno msgs) acts) ↔ ∀ a ∈ acts, Unblocked a := by
  have first : NoneLost (start errno msgs) := fun k born => absurd born (Nat.not_lt_zero k)
  rw [execKeepsIff stepQuiet stepKeeps (startQuiet errno msgs), and_iff_right first]

def blank : Link := start .zero fun _ => ⟨[],none⟩

def blockedRun : List Action :=
  [.send (.sockaddr 1 [2,3] ⟨99,1⟩) true (.failed .eagain),.writeReady .taken]

theorem blockedMessageLost : Along step Legal blank blockedRun ∧ ¬ NoneLost (exec step blank blockedRun) := by
  refine ⟨by decide,?_⟩
  intro none_
  rcases none_ 0 (by decide) with ⟨once,_⟩ | ⟨_,pending,_⟩
  · revert once
    decide
  · revert pending
    decide

end LibProc.Outgoing
