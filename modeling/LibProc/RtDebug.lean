import LibProc.Timeval
import Mathlib.Data.List.Pairwise

/-! The real-time clock of eventTimer.c that the debugger can stop. The time in a paused
block is found as the difference of two readings, which leave out the earlier pauses
already, and is added to the offset; the offset is then all the time in paused blocks. -/
namespace LibProc.RtDebug
open Timeval

structure Timespec where
  sec : Int
  nsec : Nat
  deriving DecidableEq, Repr

def Timespec.Valid (tp : Timespec) : Prop := tp.nsec < 1000000000

instance (tp : Timespec) : Decidable tp.Valid := inferInstanceAs (Decidable (_ < _))

def Timespec.nsecs (tp : Timespec) : Int := tp.sec * 1000000000 + tp.nsec

def monotonicNow (tp : Timespec) : Timeval := ⟨tp.sec,((tp.nsec + 500) / 1000 : Nat)⟩

def etRtdebugMonotonic (offset : Timeval) (tp : Timespec) : Timeval := timersub (monotonicNow tp) offset

def clamp (diffTime : Timeval) : Timeval := if diffTime.sec < 0 ∨ diffTime.usec < 0 then ⟨0,0⟩ else diffTime

/- The new offset, and the time blockcb is given to wait; `stop` is what the clock shows when
blockcb has returned. -/
def etRtdebugBlock (offset : Timeval) (nextAwake : Option Timeval) (pauseWhileBlocking : Bool) (start stop : Timespec) :
    Timeval × Option Timeval :=
  let curTime := etRtdebugMonotonic offset start
  let blockTime := nextAwake.map fun next => clamp (timersub next curTime)
  if pauseWhileBlocking then
    (timeradd (clamp (timersub (etRtdebugMonotonic offset stop) curTime)) offset,blockTime)
  else (offset,blockTime)

def etRtdebugInit : Timeval := ⟨0,0⟩

inductive Event where
  | read (tp : Timespec)
  | block (nextAwake : Option Timeval) (pause : Bool) (start stop : Timespec)

def offsetAfter (offset : Timeval) : Event → Timeval
  | .read _ => offset
  | .block nextAwake pause start stop => (etRtdebugBlock offset nextAwake pause start stop).1

def times : Event → List Timespec
  | .read tp => [tp]
  | .block _ _ start stop => [start,stop]

def readingsAt (offset : Timeval) : Event → List Timeval
  | .read tp => [etRtdebugMonotonic offset tp]
  | .block nextAwake pause start stop =>
    [etRtdebugMonotonic offset start,etRtdebugMonotonic (etRtdebugBlock offset nextAwake pause start stop).1 stop]

def readings : Timeval → List Event → List Timeval
  | _,[] => []
  | offset,event :: events => readingsAt offset event ++ readings (offsetAfter offset event) events

def runOffset (offset : Timeval) (events : List Event) : Timeval := events.foldl offsetAfter offset

def pausedIn : Event → Int
  | .read _ => 0
  | .block _ pause start stop => if pause then (monotonicNow stop).usecs - (monotonicNow start).usecs else 0

def paused (events : List Event) : Int := (events.map pausedIn).sum

structure Steady (events : List Event) : Prop where
  valid : ∀ tp ∈ events.flatMap times, tp.Valid
  forward : (events.flatMap times).Pairwise fun a b => a.nsecs ≤ b.nsecs

theorem nowReading {tp : Timespec} (valid : tp.Valid) : (monotonicNow tp).Reading := by
  rw [Timespec.Valid] at valid
  simp only [monotonicNow,Reading]
  omega

theorem nowForward {a b : Timespec} (le : a.nsecs ≤ b.nsecs) : (monotonicNow a).usecs ≤ (monotonicNow b).usecs := by
  simp only [monotonicNow,usecs,Timespec.nsecs] at le ⊢
  omega

theorem monotonicUsecs (offset : Timeval) (tp : Timespec) :
    (etRtdebugMonotonic offset tp).usecs = (monotonicNow tp).usecs - offset.usecs :=
  timersubUsecs _ _

theorem clampUsecs {diff : Timeval} (reading : diff.Reading) (later : 0 ≤ diff.usecs) :
    (clamp diff).usecs = diff.usecs ∧ (clamp diff).Reading := by
  obtain ⟨low,high⟩ := reading
  rw [clamp]
  split
  · simp only [usecs,Reading] at later ⊢
    omega
  · exact ⟨rfl,low,high⟩

theorem blockPaused {offset : Timeval} {start stop : Timespec} (normal : offset.Normal) (vs : start.Valid) (ve : stop.Valid)
    (forward : start.nsecs ≤ stop.nsecs) (nextAwake : Option Timeval) :
    (etRtdebugBlock offset nextAwake true start stop).1.Normal ∧
      (etRtdebugBlock offset nextAwake true start stop).1.usecs =
        offset.usecs + ((monotonicNow stop).usecs - (monotonicNow start).usecs) := by
  have before := timersubReading (nowReading vs) normal.reading
  have after := timersubReading (nowReading ve) normal.reading
  have difference : (timersub (etRtdebugMonotonic offset stop) (etRtdebugMonotonic offset start)).usecs =
      (monotonicNow stop).usecs - (monotonicNow start).usecs := by
    rw [timersubUsecs, monotonicUsecs, monotonicUsecs]
    omega
  have later := nowForward forward
  obtain ⟨kept,reading⟩ := clampUsecs (timersubReading after before) (difference ▸ by omega)
  refine ⟨timeraddNormal reading normal,?_⟩
  show (timeradd _ offset).usecs = _
  rw [timeraddUsecs]
  have kept' : (clamp (timersub (etRtdebugMonotonic offset stop) (etRtdebugMonotonic offset start))).usecs =
      (monotonicNow stop).usecs - (monotonicNow start).usecs := kept.trans difference
  rw [kept']
  omega

theorem Steady.tail {event : Event} {events : List Event} (steady : Steady (event :: events)) : Steady events :=
  ⟨fun tp member => steady.valid tp (List.mem_append_right _ member),(List.pairwise_append.mp steady.forward).2.1⟩

theorem eventOffset {offset : Timeval} {event : Event} {events : List Event} (normal : offset.Normal)
    (steady : Steady (event :: events)) :
    (offsetAfter offset event).Normal ∧ (offsetAfter offset event).usecs = offset.usecs + pausedIn event := by
  cases event with
  | read tp => exact ⟨normal,(add_zero _).symm⟩
  | block nextAwake pause start stop =>
    cases pause with
    | false => exact ⟨normal,(add_zero _).symm⟩
    | true =>
      have vs := steady.valid start (by simp [times])
      have ve := steady.valid stop (by simp [times])
      have forward := (List.pairwise_append.mp steady.forward).1
      exact blockPaused normal vs ve (List.rel_of_pairwise_cons forward List.mem_cons_self) nextAwake

theorem runOffsetPaused {offset : Timeval} {events : List Event} (normal : offset.Normal) (steady : Steady events) :
    (runOffset offset events).Normal ∧ (runOffset offset events).usecs = offset.usecs + paused events := by
  induction events generalizing offset with
  | nil => exact ⟨normal,(add_zero _).symm⟩
  | cons event events ih =>
    obtain ⟨next,moved⟩ := eventOffset normal steady
    obtain ⟨last,total⟩ := ih next steady.tail
    refine ⟨last,?_⟩
    rw [runOffset, List.foldl_cons, ← runOffset, total, moved, paused, paused, List.map_cons, List.sum_cons]
    omega

theorem blockReadings {offset : Timeval} {nextAwake : Option Timeval} {pause : Bool} {start stop : Timespec} {events : List Event}
    (normal : offset.Normal) (steady : Steady (.block nextAwake pause start stop :: events)) :
    (etRtdebugMonotonic offset start).usecs ≤
      (etRtdebugMonotonic (offsetAfter offset (.block nextAwake pause start stop)) stop).usecs := by
  have moved := (eventOffset normal steady).2
  have forward := (List.pairwise_append.mp steady.forward).1
  have later := nowForward (List.rel_of_pairwise_cons forward List.mem_cons_self)
  rw [monotonicUsecs, monotonicUsecs, moved, pausedIn]
  split <;> omega

theorem readingsAbove {offset : Timeval} {events : List Event} {now : Timespec} (normal : offset.Normal) (steady : Steady events)
    (begun : ∀ tp ∈ events.flatMap times, now.nsecs ≤ tp.nsecs) :
    ∀ reading ∈ readings offset events, (etRtdebugMonotonic offset now).usecs ≤ reading.usecs := by
  induction events generalizing offset now with
  | nil => exact List.forall_mem_nil _
  | cons event events ih =>
    obtain ⟨next,moved⟩ := eventOffset normal steady
    have behind := (List.pairwise_append.mp steady.forward).2.2
    intro reading member
    rw [readings, List.mem_append] at member
    cases event with
    | read tp =>
      have later := nowForward (begun tp (by simp [times]))
      rw [monotonicUsecs]
      rcases member with here | rest
      · rw [List.mem_singleton.mp here, monotonicUsecs]
        omega
      · have above := ih next steady.tail (fun other inside => behind tp (by simp [times]) other inside) reading rest
        rw [monotonicUsecs, moved, pausedIn] at above
        omega
    | block nextAwake pause start stop =>
      have later := nowForward (begun start (by simp [times]))
      have ends := blockReadings normal steady
      have first : (etRtdebugMonotonic offset now).usecs ≤ (etRtdebugMonotonic offset start).usecs := by
        rw [monotonicUsecs, monotonicUsecs]
        omega
      rcases member with here | rest
      · rcases List.mem_cons.mp here with rfl | last
        · exact first
        · rw [List.mem_singleton.mp last]
          exact first.trans ends
      · have above := ih next steady.tail (fun other inside => behind stop (by simp [times]) other inside) reading rest
        exact first.trans (ends.trans above)

theorem readingsForward {offset : Timeval} {events : List Event} (normal : offset.Normal) (steady : Steady events) :
    (readings offset events).Pairwise fun a b => a.usecs ≤ b.usecs := by
  induction events generalizing offset with
  | nil => exact .nil
  | cons event events ih =>
    obtain ⟨next,-⟩ := eventOffset normal steady
    have behind := (List.pairwise_append.mp steady.forward).2.2
    have rest := ih next steady.tail
    rw [readings, List.pairwise_append]
    cases event with
    | read tp =>
      refine ⟨List.pairwise_singleton _ _,rest,fun a here b later => ?_⟩
      rw [List.mem_singleton.mp here]
      exact readingsAbove next steady.tail (fun other inside => behind tp (by simp [times]) other inside) b later
    | block nextAwake pause start stop =>
      have ends := blockReadings normal steady
      have above := readingsAbove next steady.tail (fun other inside => behind stop (by simp [times]) other inside)
      refine ⟨List.pairwise_pair.mpr ends,rest,fun a here b later => ?_⟩
      rcases List.mem_cons.mp here with rfl | last
      · exact ends.trans (above b later)
      · rw [List.mem_singleton.mp last]
        exact above b later

/- Whatever has been read and blocked so far, a reading shows the real time less the time in
paused blocks; a paused block ends on the reading it began with; and no reading goes back. -/
theorem debugTimeStandsStill {events : List Event} (steady : Steady events) :
    (∀ tp, (etRtdebugMonotonic (runOffset etRtdebugInit events) tp).usecs = (monotonicNow tp).usecs - paused events) ∧
      (∀ before nextAwake start stop after, events = before ++ .block nextAwake true start stop :: after →
        (etRtdebugMonotonic (etRtdebugBlock (runOffset etRtdebugInit before) nextAwake true start stop).1 stop).usecs =
          (etRtdebugMonotonic (runOffset etRtdebugInit before) start).usecs) ∧
      (readings etRtdebugInit events).Pairwise fun a b => a.usecs ≤ b.usecs := by
  have zero : etRtdebugInit.Normal := ⟨le_rfl,by show (0 : Int) < 1000000; omega⟩
  refine ⟨fun tp => ?_,?_,readingsForward zero steady⟩
  · rw [monotonicUsecs, (runOffsetPaused zero steady).2, show etRtdebugInit.usecs = 0 from rfl, zero_add]
  · rintro before nextAwake start stop after rfl
    have split := steady.forward
    rw [List.flatMap_append, List.pairwise_append] at split
    have first : Steady before := ⟨fun tp member => steady.valid tp (by
      rw [List.flatMap_append]
      exact List.mem_append_left _ member),split.1⟩
    have second : Steady (.block nextAwake true start stop :: after) := ⟨fun tp member => steady.valid tp (by
      rw [List.flatMap_append]
      exact List.mem_append_right _ member),split.2.1⟩
    obtain ⟨-,moved⟩ := eventOffset (runOffsetPaused zero first).1 second
    rw [offsetAfter] at moved
    rw [monotonicUsecs, monotonicUsecs, moved, pausedIn, if_pos rfl]
    omega

def pauseSample : List Event :=
  [.read ⟨1,999999700⟩,.block none true ⟨2,0⟩ ⟨4,500000000⟩,.read ⟨4,600000000⟩]

theorem pauseSampleRight : (etRtdebugMonotonic (runOffset etRtdebugInit pauseSample) ⟨5,0⟩).usecs =
    (monotonicNow ⟨5,0⟩).usecs - paused pauseSample :=
  (debugTimeStandsStill ⟨by decide,by decide⟩).1 ⟨5,0⟩

end LibProc.RtDebug
