import Mathlib.Data.List.Basic

/-! Scanning a stream that arrives in pieces. A scanner looks at what is pending and waits
for more, stops for good, or takes some of it. When more input never changes what was taken
or stopped at, the scan of a stream does not depend on where the pieces end. -/
namespace LibProc.StreamScan

inductive Verdict (σ ε : Type) where
  | wait
  | stop (last : σ)
  | take (n : Nat) (next : σ) (events : List ε)
  deriving DecidableEq, Repr

structure Scanner (σ α ε : Type) where
  look : σ → List α → Verdict σ ε
  bounded : ∀ {s data n next events}, look s data = .take n next events → 0 < n ∧ n ≤ data.length
  takeStable : ∀ {s data n next events}, look s data = .take n next events →
    ∀ more, look s (data ++ more) = .take n next events
  stopStable : ∀ {s data last}, look s data = .stop last → ∀ more, look s (data ++ more) = .stop last

/- The state after a scan, what it did, and the input still pending: none once it stopped. -/
structure Scanned (σ α ε : Type) where
  state : σ
  events : List ε
  rest : Option (List α)
  deriving DecidableEq, Repr

variable {σ α ε : Type} (scanner : Scanner σ α ε)

def scan (s : σ) (data : List α) : Scanned σ α ε :=
  match _looked : scanner.look s data with
  | .wait => ⟨s,[],some data⟩
  | .stop last => ⟨last,[],none⟩
  | .take n next events =>
    let later := scan next (data.drop n)
    { later with events := events ++ later.events }
termination_by data.length
decreasing_by
  have := scanner.bounded _looked
  rw [List.length_drop]
  omega

def feed (done : Scanned σ α ε) (piece : List α) : Scanned σ α ε :=
  match done.rest with
  | none => done
  | some pending =>
    let now := scan scanner done.state (pending ++ piece)
    { now with events := done.events ++ now.events }

section
variable {scanner} {s next last : σ} {data : List α} {n : Nat} {events : List ε}

theorem scanWait (looked : scanner.look s data = .wait) : scan scanner s data = ⟨s,[],some data⟩ := by
  rw [scan]
  split
  · rfl
  · rename_i other
    cases looked.symm.trans other
  · rename_i other
    cases looked.symm.trans other

theorem scanStop (looked : scanner.look s data = .stop last) : scan scanner s data = ⟨last,[],none⟩ := by
  rw [scan]
  split
  · rename_i other
    cases looked.symm.trans other
  · rename_i other
    cases looked.symm.trans other
    rfl
  · rename_i other
    cases looked.symm.trans other

theorem scanTake (looked : scanner.look s data = .take n next events) :
    scan scanner s data = { scan scanner next (data.drop n) with
      events := events ++ (scan scanner next (data.drop n)).events } := by
  rw [scan]
  split
  · rename_i other
    cases looked.symm.trans other
  · rename_i other
    cases looked.symm.trans other
  · rename_i other
    cases looked.symm.trans other
    rfl

end

theorem scanAppend (s : σ) (data more : List α) :
    scan scanner s (data ++ more) = feed scanner (scan scanner s data) more := by
  induction s, data using scan.induct scanner with
  | case1 s data looked => rw [scanWait looked, feed]; rfl
  | case2 s data last looked => rw [scanStop looked, scanStop (scanner.stopStable looked more), feed]
  | case3 s data n next events looked ih =>
    have inside := scanner.bounded looked
    rw [scanTake (scanner.takeStable looked more), List.drop_append_of_le_length inside.2, ih, scanTake looked]
    cases pending : (scan scanner next (data.drop n)).rest with
    | none => simp only [feed,pending]
    | some kept => simp only [feed,pending,List.append_assoc]

inductive Throughout (P : σ → List α → Prop) : σ → List α → Prop where
  | wait {s data} (holds : P s data) (looked : scanner.look s data = .wait) : Throughout P s data
  | stop {s data last} (holds : P s data) (looked : scanner.look s data = .stop last) : Throughout P s data
  | take {s data n next events} (holds : P s data) (looked : scanner.look s data = .take n next events)
      (later : Throughout P next (data.drop n)) : Throughout P s data

section
variable {scanner} {P : σ → List α → Prop} {s : σ} {data more : List α}

theorem Throughout.here (all : Throughout scanner P s data) : P s data := by
  cases all with
  | wait holds => exact holds
  | stop holds => exact holds
  | take holds => exact holds

theorem Throughout.next {n : Nat} {next : σ} {events : List ε} (all : Throughout scanner P s data)
    (looked : scanner.look s data = .take n next events) : Throughout scanner P next (data.drop n) := by
  cases all with
  | wait holds other => cases looked.symm.trans other
  | stop holds other => cases looked.symm.trans other
  | take holds other later =>
    cases looked.symm.trans other
    exact later

theorem Throughout.left (shrinks : ∀ s data more, P s (data ++ more) → P s data)
    (all : Throughout scanner P s (data ++ more)) : Throughout scanner P s data := by
  induction s, data using scan.induct scanner with
  | case1 s data looked => exact .wait (shrinks s data more all.here) looked
  | case2 s data last looked => exact .stop (shrinks s data more all.here) looked
  | case3 s data n next events looked ih =>
    have after := all.next (scanner.takeStable looked more)
    rw [List.drop_append_of_le_length (scanner.bounded looked).2] at after
    exact .take (shrinks s data more all.here) looked (ih after)

theorem Throughout.pending {kept : List α} (all : Throughout scanner P s (data ++ more))
    (pending : (scan scanner s data).rest = some kept) :
    Throughout scanner P (scan scanner s data).state (kept ++ more) := by
  induction s, data using scan.induct scanner with
  | case1 s data looked =>
    rw [scanWait looked] at pending ⊢
    cases pending
    exact all
  | case2 s data last looked =>
    rw [scanStop looked] at pending
    cases pending
  | case3 s data n next events looked ih =>
    have after := all.next (scanner.takeStable looked more)
    rw [List.drop_append_of_le_length (scanner.bounded looked).2] at after
    rw [scanTake looked] at pending ⊢
    exact ih after pending

end
end LibProc.StreamScan
