import LibProc.Signals
import LibProc.XdrBytes
import Mathlib.Tactic.Ring

/-! The pipe between the signal handler and the event loop of `proclib.c`. A signal number is written
to it whole and may be read in pieces; what has been read of a number is kept in `rdBuff` until the
rest of it is there. `rdBuff` is the first four bytes of the memory from its address on. -/
namespace LibProc.SignalPipe
open XdrBytes Signals
open FdRegistry (eventKeep eventRemove)
open Runs (exec Along)

inductive Read where
  | bytes (count : Nat)
  | wouldBlock
  | error
  | closed
  deriving DecidableEq, Repr

def Read.waits : Read → Bool
  | .bytes _ => true
  | _ => false

/- `unread` is in the pipe. `written` and `dispatched` record the numbers, `strayed` whether a byte
was written outside `rdBuff`. -/
structure Pipe where
  proc : Proc
  unread : List Byte
  rdBuff : Int → Byte
  rdLen : Int
  strayed : Bool
  written : List (BitVec 32)
  dispatched : List (BitVec 32)

def Pipe.init (proc : Proc) (rdBuff : Int → Byte) : Pipe := ⟨proc,[],rdBuff,0,false,[],[]⟩

def procSignalHandler (s : Pipe) (sigNum : BitVec 32) : Pipe :=
  if s.proc.signalWriteFD = -1 then s
  else { s with unread := s.unread ++ hostBytes sigNum, written := s.written ++ [sigNum] }

def Pipe.gives (s : Pipe) (count : Nat) : List Byte := s.unread.take (min (count + 1) (4 - s.rdLen).toNat)

def stored (rdBuff : Int → Byte) (at_ : Int) (bytes : List Byte) : Int → Byte :=
  fun i => if at_ ≤ i then (bytes[(i - at_).toNat]?).getD (rdBuff i) else rdBuff i

def front (rdBuff : Int → Byte) (len : Nat) : List Byte := (List.range len).map fun i : Nat => rdBuff (i : Int)

def advance (s : Pipe) (rd : Int) (answer : Nat → Answer) : Pipe :=
  if s.rdLen + rd = 4 then
    let signum := hostWord (front s.rdBuff 4)
    { s with
      rdLen := 0, dispatched := s.dispatched ++ [signum],
      proc := Signals.step s.proc (.deliver signum.toInt answer) }
  else { s with rdLen := s.rdLen + rd }

def signalFdCb (s : Pipe) (read : Read) (answer : Nat → Answer) : Int × Pipe :=
  match read with
  | .error => (eventRemove,s)
  | .closed => (eventRemove,s)
  -- the warning is for other errors, and -1 is added like any length
  | .wouldBlock => (eventKeep,advance s (-1) answer)
  | .bytes count =>
    let bytes := s.gives count
    (eventKeep,advance { s with
      unread := s.unread.drop bytes.length
      rdBuff := stored s.rdBuff s.rdLen bytes
      strayed := s.strayed || decide (¬(0 ≤ s.rdLen ∧ s.rdLen + bytes.length ≤ 4)) } bytes.length answer)

inductive Act where
  | raised (sigNum : BitVec 32)
  | call (read : Read) (answer : Nat → Answer)
  | signal (call : SignalCall)

def step (s : Pipe) : Act → Pipe
  | .raised sigNum => procSignalHandler s sigNum
  | .call read answer => if s.unread = [] ∧ read.waits = true then s else (signalFdCb s read answer).2
  | .signal call => { s with proc := Signals.step s.proc (.signal call) }

def Pipe.consumed (s : Pipe) : Nat := 4 * s.written.length - s.unread.length

/- The numbers dispatched are those of which all bytes have been read, and the buffer holds what has been
read of the next one. -/
structure Reassembled (s : Pipe) : Prop where
  low : 0 ≤ s.rdLen
  high : s.rdLen ≤ 3
  inside : s.strayed = false
  numbers : s.dispatched = s.written.take (s.consumed / 4)
  bytes : s.dispatched.flatMap hostBytes ++ front s.rdBuff s.rdLen.toNat ++ s.unread = s.written.flatMap hostBytes

def Act.wouldBlock : Act → Bool
  | .call .wouldBlock _ => true
  | _ => false

section
variable {s : Pipe} {rdBuff : Int → Byte}

@[simp] theorem frontLength (rdBuff : Int → Byte) (len : Nat) : (front rdBuff len).length = len := by simp [front]

@[simp] theorem numbersLength (numbers : List (BitVec 32)) : (numbers.flatMap hostBytes).length = 4 * numbers.length := by
  induction numbers with
  | nil => rfl
  | cons number rest ih =>
    rw [List.flatMap_cons, List.length_append, ih, hostBytesLength, List.length_cons]
    ring

theorem frontStored (rdBuff : Int → Byte) (len : Nat) (bytes : List Byte) :
    front (stored rdBuff len bytes) (len + bytes.length) = front rdBuff len ++ bytes := by
  refine List.ext_getElem (by simp) fun i first second => ?_
  rw [List.getElem_append]
  by_cases old : i < len
  · simp [front,stored,old]
  · have new : i < len + bytes.length := by simpa [frontLength] using first
    have within : i - len < bytes.length := by omega
    simp [front,stored,old,within]

theorem hostBytesWord (a b c d : Byte) : hostBytes (hostWord [a,b,c,d]) = [a,b,c,d] := by
  rw [hostBytes, hostWord, List.reverse_cons, List.reverse_cons, List.reverse_cons, List.reverse_cons, List.reverse_nil]
  exact congrArg List.reverse (beBytesWord d c b a)

theorem wordsFront {words : List (BitVec 32)} {four rest : List Byte} (size : four.length = 4)
    (is : words.flatMap hostBytes = four ++ rest) : ∃ later, words = hostWord four :: later ∧ later.flatMap hostBytes = rest := by
  cases words with
  | nil =>
    have lengths := congrArg List.length is
    rw [List.flatMap_nil, List.length_append, size, List.length_nil] at lengths
    omega
  | cons word later =>
    rw [List.flatMap_cons] at is
    obtain ⟨own,others⟩ := List.append_inj is (by rw [hostBytesLength, size])
    refine ⟨later,?_,others⟩
    rw [← own, hostWordBytes]

theorem wordsPrefix {words more : List (BitVec 32)} {rest : List Byte} (is : words.flatMap hostBytes = more.flatMap hostBytes ++ rest) :
    ∃ later, words = more ++ later ∧ later.flatMap hostBytes = rest := by
  induction more generalizing words with
  | nil => exact ⟨words,rfl,is⟩
  | cons word more ih =>
    rw [List.flatMap_cons, List.append_assoc] at is
    obtain ⟨later,rfl,others⟩ := wordsFront (hostBytesLength word) is
    obtain ⟨last,rfl,left⟩ := ih others
    exact ⟨last,by rw [hostWordBytes, List.cons_append],left⟩

theorem numbersOf (low : 0 ≤ s.rdLen) (high : s.rdLen ≤ 3)
    (bytes : s.dispatched.flatMap hostBytes ++ front s.rdBuff s.rdLen.toNat ++ s.unread = s.written.flatMap hostBytes) :
    s.dispatched = s.written.take (s.consumed / 4) := by
  rw [List.append_assoc] at bytes
  obtain ⟨later,is,-⟩ := wordsPrefix bytes.symm
  have lengths := congrArg List.length bytes
  rw [List.length_append, List.length_append, numbersLength, numbersLength, frontLength] at lengths
  have many : s.consumed / 4 = s.dispatched.length := by
    rw [Pipe.consumed]
    omega
  rw [many, is, List.take_left]

theorem Reassembled.ofBytes (low : 0 ≤ s.rdLen) (high : s.rdLen ≤ 3) (inside : s.strayed = false)
    (bytes : s.dispatched.flatMap hostBytes ++ front s.rdBuff s.rdLen.toNat ++ s.unread = s.written.flatMap hostBytes) :
    Reassembled s := ⟨low,high,inside,numbersOf low high bytes,bytes⟩

theorem initReassembled (proc : Proc) (rdBuff : Int → Byte) : Reassembled (.init proc rdBuff) :=
  .ofBytes (le_refl _) (by decide : (0 : Int) ≤ 3) rfl rfl

theorem raisedKeeps (good : Reassembled s) (sigNum : BitVec 32) : Reassembled (procSignalHandler s sigNum) := by
  unfold procSignalHandler
  split
  · exact good
  · refine .ofBytes good.low good.high good.inside ?_
    dsimp only
    rw [← List.append_assoc, good.bytes, List.flatMap_append, List.flatMap_singleton]

theorem advanceKeeps {rd : Nat} {answer : Nat → Answer} {len : Nat} (low : s.rdLen = len) (fits : len + rd ≤ 4) (inside : s.strayed = false)
    (bytes : s.dispatched.flatMap hostBytes ++ front s.rdBuff (len + rd) ++ s.unread = s.written.flatMap hostBytes) :
    Reassembled (advance s rd answer) := by
  unfold advance
  split
  · rename_i complete
    have four : len + rd = 4 := by omega
    refine .ofBytes (le_refl _) (by decide : (0 : Int) ≤ 3) inside ?_
    rw [four] at bytes
    have word : hostBytes (hostWord (front s.rdBuff 4)) = front s.rdBuff 4 := hostBytesWord _ _ _ _
    dsimp only
    rw [List.flatMap_append, List.flatMap_singleton, word, Int.toNat_zero]
    exact (congrArg (· ++ s.unread) (List.append_nil _)).trans bytes
  · rename_i more
    refine .ofBytes (by dsimp only; omega) (by dsimp only; omega) inside ?_
    have at_ : (s.rdLen + (rd : Int)).toNat = len + rd := by omega
    dsimp only
    rw [at_]
    exact bytes

theorem stepKeeps (good : Reassembled s) (act : Act) (ready : act.wouldBlock = false) : Reassembled (step s act) := by
  cases act with
  | raised sigNum => exact raisedKeeps good sigNum
  | signal call => exact ⟨good.low,good.high,good.inside,good.numbers,good.bytes⟩
  | call read answer =>
    rw [step]
    split
    · exact good
    cases read with
    | wouldBlock => cases ready
    | error => exact good
    | closed => exact good
    | bytes count =>
      obtain ⟨len,is⟩ := Int.eq_ofNat_of_zero_le good.low
      have short := good.high
      have fits : len + (s.gives count).length ≤ 4 := by
        rw [Pipe.gives, List.length_take]
        omega
      have split : s.unread = s.gives count ++ s.unread.drop (s.gives count).length := by
        exact (List.prefix_iff_eq_append.mp (List.take_prefix _ _)).symm
      have inside : (s.strayed || decide (¬(0 ≤ s.rdLen ∧ s.rdLen + (s.gives count).length ≤ 4))) = false := by
        rw [good.inside, Bool.false_or, decide_eq_false_iff_not, not_not]
        omega
      refine advanceKeeps is fits inside ?_
      have bytes := good.bytes
      rw [split] at bytes
      dsimp only
      rw [is, frontStored, ← bytes, is, Int.toNat_natCast, List.append_assoc, List.append_assoc, List.append_assoc]

theorem blockLoses (good : Reassembled s) (answer : Nat → Answer) : ¬Reassembled (step s (.call .wouldBlock answer)) := by
  intro after
  have short := good.high
  have less : s.rdLen + -1 ≠ 4 := by omega
  have is : step s (.call .wouldBlock answer) = { s with rdLen := s.rdLen + -1 } := by
    simp [step,Read.waits,signalFdCb,advance,less]
  rw [is] at after
  have low := after.low
  have lengths := congrArg List.length (after.bytes.trans good.bytes.symm)
  simp only [List.length_append,frontLength] at lengths low
  omega

theorem Reassembled.all (good : Reassembled s) (empty : s.unread = []) : s.dispatched = s.written := by
  rw [good.numbers, Pipe.consumed, empty, List.length_nil, Nat.sub_zero, Nat.mul_div_cancel_left _ (by decide), List.take_length]

end

/- For any numbers, any pieces and any order of signals and reads: every state of a run is a good one just
when no read of the run would have blocked. -/
theorem reassembledIff (proc : Proc) (rdBuff : Int → Byte) (acts : List Act) :
    Along step (fun s act => Reassembled (step s act)) (.init proc rdBuff) acts ↔ ∀ act ∈ acts, act.wouldBlock = false := by
  suffices run : ∀ s, Reassembled s →
      (Along step (fun s act => Reassembled (step s act)) s acts ↔ ∀ act ∈ acts, act.wouldBlock = false) from
    run _ (initReassembled proc rdBuff)
  induction acts with
  | nil => exact fun s good => iff_of_true trivial (by simp)
  | cons act rest ih =>
    intro s good
    rw [List.forall_mem_cons, Along]
    cases ready : act.wouldBlock with
    | false =>
      have kept := stepKeeps good act ready
      rw [ih _ kept]
      exact ⟨fun both => ⟨rfl,both.2⟩,fun both => ⟨kept,both.2⟩⟩
    | true =>
      refine ⟨fun both => ?_,fun both => Bool.noConfusion both.1⟩
      cases act with
      | call read answer =>
        cases read with
        | wouldBlock => exact absurd both.1 (blockLoses good answer)
        | _ => cases ready
      | _ => cases ready

def early : List Act := [.call .wouldBlock fun _ => ⟨[],eventKeep⟩,.raised 10,.call (.bytes 3) fun _ => ⟨[],eventKeep⟩]

theorem earlyLost :
    let s := exec step (.init (.init 4 4) fun _ => 0) early
    s.rdLen = 3 ∧ s.strayed = true ∧ s.unread = [] ∧ s.written = [10] ∧ s.dispatched = [] ∧ ¬Reassembled s :=
  ⟨by decide,by decide,by decide,by decide,by decide,fun good => absurd good.inside (by decide)⟩

end LibProc.SignalPipe
