import Mathlib.Data.Prod.Lex
import Mathlib.Tactic.Linarith

/-! struct timeval and its macros, as events.c defines them. `tv_sec` is the 64-bit
time_t and is not followed to its overflow. The comparison is lexicographic whether
or not the values are normalized; sums are exact only on normalized ones. -/
namespace LibProc

structure Timeval where
  sec : Int
  usec : Int
  deriving DecidableEq, Repr

namespace Timeval

instance : LinearOrder Timeval :=
  LinearOrder.lift' (fun t => toLex (t.sec,t.usec)) fun a b same => by
    cases a
    cases b
    simpa using congrArg ofLex same

theorem leIff {a b : Timeval} : a ≤ b ↔ a.sec < b.sec ∨ a.sec = b.sec ∧ a.usec ≤ b.usec :=
  Prod.Lex.toLex_le_toLex

theorem ltIff {a b : Timeval} : a < b ↔ a.sec < b.sec ∨ a.sec = b.sec ∧ a.usec < b.usec :=
  Prod.Lex.toLex_lt_toLex

def timercmp (cmp : Int → Int → Bool) (a b : Timeval) : Bool :=
  if a.sec = b.sec then cmp a.usec b.usec else cmp a.sec b.sec

def timeradd (a b : Timeval) : Timeval :=
  let sec := a.sec + b.sec
  let usec := a.usec + b.usec
  if 1000000 ≤ usec then ⟨sec + 1,usec - 1000000⟩ else ⟨sec,usec⟩

def timersub (a b : Timeval) : Timeval :=
  let sec := a.sec - b.sec
  let usec := a.usec - b.usec
  if usec < 0 then ⟨sec - 1,usec + 1000000⟩ else ⟨sec,usec⟩

theorem timercmpGe {a b : Timeval} : timercmp (· ≥ ·) a b = true ↔ b ≤ a := by
  rw [leIff, timercmp]
  split <;> simp <;> omega

theorem timercmpGt {a b : Timeval} : timercmp (· > ·) a b = true ↔ b < a := by
  rw [ltIff, timercmp]
  split <;> simp <;> omega

theorem timercmpLt {a b : Timeval} : timercmp (· < ·) a b = true ↔ a < b := by
  rw [ltIff, timercmp]
  split <;> simp <;> omega

def Normal (t : Timeval) : Prop := 0 ≤ t.usec ∧ t.usec < 1000000

instance (t : Timeval) : Decidable (Normal t) := inferInstanceAs (Decidable (_ ∧ _))

/- A reading of the default clock rounds to the nearest microsecond and may show 1000000. -/
def Reading (t : Timeval) : Prop := 0 ≤ t.usec ∧ t.usec ≤ 1000000

instance (t : Timeval) : Decidable (Reading t) := inferInstanceAs (Decidable (_ ∧ _))

theorem Normal.reading {t : Timeval} (ht : t.Normal) : t.Reading := ⟨ht.1,ht.2.le⟩

def usecs (t : Timeval) : Int := t.sec * 1000000 + t.usec

@[simp] theorem timeraddUsecs (a b : Timeval) : (timeradd a b).usecs = a.usecs + b.usecs := by
  simp only [timeradd,usecs]
  split <;> simp only <;> omega

theorem timeraddNormal {a b : Timeval} (ha : a.Reading) (hb : b.Normal) : (timeradd a b).Normal := by
  obtain ⟨ha0,ha1⟩ := ha
  obtain ⟨hb0,hb1⟩ := hb
  simp only [timeradd,Normal]
  split <;> simp only <;> omega

@[simp] theorem timersubUsecs (a b : Timeval) : (timersub a b).usecs = a.usecs - b.usecs := by
  simp only [timersub,usecs]
  split <;> simp only <;> omega

theorem timersubReading {a b : Timeval} (ha : a.Reading) (hb : b.Reading) : (timersub a b).Reading := by
  obtain ⟨ha0,ha1⟩ := ha
  obtain ⟨hb0,hb1⟩ := hb
  simp only [timersub,Reading]
  split <;> simp only <;> omega

theorem leUsecs {a b : Timeval} (ha : a.Normal) (hb : b.Normal) : a ≤ b ↔ a.usecs ≤ b.usecs := by
  obtain ⟨ha0,ha1⟩ := ha
  obtain ⟨hb0,hb1⟩ := hb
  rw [leIff]
  unfold usecs
  omega

end Timeval

def evtMs2tv (ms : Int) : Timeval :=
  let sec := ms.tdiv 1000
  ⟨sec,(ms - sec * 1000) * 1000⟩

end LibProc
