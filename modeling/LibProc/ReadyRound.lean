import LibProc.CyclicLoops
import LibProc.FdRegistry
import Mathlib.Data.Finset.Card

/-! One round over the ready descriptors of EVT_start_loop_auto_exit: an event loop around a
descriptor loop. Both go around a cycle from a place that moves on from round to round, and
both end early when everything that select reported has been looked up. The sets are the
loop's own copies, so callbacks do not change them. -/
namespace LibProc.ReadyRound
open CyclicLoops FdRegistry

def nextEvent : FdEvent → FdEvent
  | .read => .write
  | .write => .error
  | .error => .read

/- `retval` counts down, and `lookups` lists the pairs whose bucket was searched. -/
structure Round (R : Type) where
  retval : Int
  lookups : List (Nat × FdEvent)
  registry : R

structure Starts where
  fd : Nat
  event : FdEvent
  deriving DecidableEq, Repr

section Model
variable {R : Type} (process : Nat → FdEvent → R → R)

def serve (event : FdEvent) (set : Finset Nat) (fd : Nat) (round : Round R) : Round R :=
  if fd ∈ set then ⟨round.retval - 1,round.lookups ++ [(fd,event)],process fd event round.registry⟩ else round

def Round.more (round : Round R) : Bool := decide (0 < round.retval)

def fdLoop (maxFd startFd : Nat) (event : FdEvent) (set : Finset Nat) (fuel : Nat) (round : Round R) :
    Option (Round R) :=
  doWhile (succMod maxFd) startFd Round.more (fun fd round => some (serve process event set fd round)) fuel startFd round

def eventLoop (maxFd startFd : Nat) (sets : FdEvent → Option (Finset Nat)) (startEvent : FdEvent) (fuel : Nat)
    (round : Round R) : Option (Round R) :=
  doWhile nextEvent startEvent Round.more (fun event round =>
    match sets event with
    | none => some round
    | some set => fdLoop process maxFd startFd event set fuel round) fuel startEvent round

def processFdEvents (maxFd : Nat) (sets : FdEvent → Option (Finset Nat)) (fuel : Nat) (starts : Starts) (retval : Int)
    (registry : R) : Option (Round R × Starts) :=
  if 0 < retval then do
    let startFd := (starts.fd + 1) % maxFd
    let round ← eventLoop process maxFd startFd sets starts.event fuel ⟨retval,[],registry⟩
    some (round,⟨startFd,nextEvent starts.event⟩)
  else some (⟨retval,[],registry⟩,starts)

end Model

section Round
variable {R : Type} {process : Nat → FdEvent → R → R}

def readyIn (fds : List Nat) (event : FdEvent) (set : Option (Finset Nat)) : List (Nat × FdEvent) :=
  match set with
  | none => []
  | some set => (fds.filter fun fd => decide (fd ∈ set)).map fun fd => (fd,event)

structure Left (before : Round R) (all left : List (Nat × FdEvent)) (round : Round R) : Prop where
  lookups : round.lookups ++ left = before.lookups ++ all
  retval : round.retval - left.length = before.retval - all.length
  counted : left.length ≤ round.retval

theorem Left.refl {round : Round R} {all : List (Nat × FdEvent)} (counted : all.length ≤ round.retval) :
    Left round all all round :=
  ⟨rfl,rfl,counted⟩

theorem Left.stop {before round : Round R} {all left : List (Nat × FdEvent)} (now : Left before all left round)
    (served : round.more = false) : Left before all [] round := by
  have done : ¬0 < round.retval := of_decide_eq_false served
  have counted := now.counted
  have none_ : left = [] := List.eq_nil_of_length_eq_zero (by omega)
  exact none_ ▸ now

theorem Left.then {before middle round : Round R} {all first left : List (Nat × FdEvent)}
    (now : Left before all (first ++ left) middle) (served : Left middle first [] round) : Left before all left round := by
  have lookups := served.lookups
  have retval := served.retval
  have count := now.retval
  have counted := now.counted
  simp only [List.append_nil, List.length_nil, Nat.cast_zero, sub_zero, List.length_append, Nat.cast_add] at *
  refine ⟨?_,by omega,by omega⟩
  rw [lookups, List.append_assoc]
  exact now.lookups

theorem serveLeft {before round : Round R} {all : List (Nat × FdEvent)} {event : FdEvent} {set : Finset Nat} {fd : Nat}
    {rest : List Nat} (now : Left before all (readyIn (fd :: rest) event (some set)) round) :
    Left before all (readyIn rest event (some set)) (serve process event set fd round) := by
  by_cases ready : fd ∈ set
  · have split : readyIn (fd :: rest) event (some set) = [(fd,event)] ++ readyIn rest event (some set) := by
      simp [readyIn, ready]
    rw [split] at now
    have one : Left round [(fd,event)] [] (serve process event set fd round) := by
      have counted := now.counted
      simp only [List.length_append, List.length_singleton, Nat.cast_add, Nat.cast_one] at counted
      rw [serve, if_pos ready]
      exact ⟨List.append_nil _,by simp,by simp; omega⟩
    exact now.then one
  · have same : readyIn (fd :: rest) event (some set) = readyIn rest event (some set) := by simp [readyIn, ready]
    rw [serve, if_neg ready, ← same]
    exact now

theorem fdLoopServes {maxFd startFd fuel : Nat} (below : startFd < maxFd) (enough : maxFd ≤ fuel) (event : FdEvent)
    (set : Finset Nat) (round : Round R)
    (counted : (readyIn (List.iterate (succMod maxFd) startFd maxFd) event (some set)).length ≤ round.retval) :
    ∃ after, fdLoop process maxFd startFd event set fuel round = some after ∧
      Left round (readyIn (List.iterate (succMod maxFd) startFd maxFd) event (some set)) [] after :=
  doWhileRound (fun rest => Left round (readyIn (List.iterate (succMod maxFd) startFd maxFd) event (some set))
      (readyIn rest event (some set)))
    (succModCycle below) (fun _ _ _ now => ⟨_,rfl,serveLeft now⟩) (fun _ _ now => now.stop) enough (Left.refl counted)

def readyPairs (maxFd startFd : Nat) (sets : FdEvent → Option (Finset Nat)) (events : List FdEvent) :
    List (Nat × FdEvent) :=
  events.flatMap fun event => readyIn (List.iterate (succMod maxFd) startFd maxFd) event (sets event)

theorem nextEventCycle (start : FdEvent) : Cycle nextEvent start 3 where
  some := by decide
  closes := by cases start <;> rfl
  first k positive small := by
    have two : k = 1 ∨ k = 2 := by omega
    rcases two with rfl | rfl <;> cases start <;> decide

theorem eventLoopServes (process : Nat → FdEvent → R → R) {maxFd startFd fuel : Nat} (below : startFd < maxFd)
    (enough : maxFd ≤ fuel ∧ 3 ≤ fuel)
    (sets : FdEvent → Option (Finset Nat)) (startEvent : FdEvent) (round : Round R)
    (counted : (readyPairs maxFd startFd sets (List.iterate nextEvent startEvent 3)).length ≤ round.retval) :
    ∃ after, eventLoop process maxFd startFd sets startEvent fuel round = some after ∧
      Left round (readyPairs maxFd startFd sets (List.iterate nextEvent startEvent 3)) [] after := by
  refine doWhileRound (fun rest => Left round (readyPairs maxFd startFd sets (List.iterate nextEvent startEvent 3))
    (readyPairs maxFd startFd sets rest)) (nextEventCycle startEvent) ?_ (fun _ _ now => now.stop) enough.2
    (Left.refl counted)
  intro event rest s now
  have split : readyPairs maxFd startFd sets (event :: rest) =
      readyIn (List.iterate (succMod maxFd) startFd maxFd) event (sets event) ++ readyPairs maxFd startFd sets rest := rfl
  rw [split] at now
  cases given : sets event with
  | none =>
    rw [given] at now
    exact ⟨s,rfl,now⟩
  | some set =>
    rw [given] at now
    have counts := now.counted
    rw [List.length_append, Nat.cast_add] at counts
    obtain ⟨after,served,left⟩ := fdLoopServes below enough.1 event set s (by omega)
    exact ⟨after,served,now.then left⟩

end Round

section Exactly

def Ready (sets : FdEvent → Option (Finset Nat)) (fd : Nat) (event : FdEvent) : Prop := ∃ set, sets event = some set ∧ fd ∈ set

instance (sets : FdEvent → Option (Finset Nat)) (fd : Nat) (event : FdEvent) : Decidable (Ready sets fd event) :=
  match given : sets event with
  | none => .isFalse fun ⟨_,is,_⟩ => by rw [given] at is; cases is
  | some set => decidable_of_iff (fd ∈ set)
      ⟨fun inside => ⟨set,given,inside⟩,fun ⟨_,is,inside⟩ => Option.some.inj (given.symm.trans is) ▸ inside⟩

def setSize (set : Option (Finset Nat)) : Nat := (set.map Finset.card).getD 0

variable {maxFd startFd : Nat} {sets : FdEvent → Option (Finset Nat)}

theorem memReadyPairs (below : startFd < maxFd) (within : ∀ event set, sets event = some set → ∀ fd ∈ set, fd < maxFd)
    (events : List FdEvent) (fd : Nat) (event : FdEvent) :
    (fd,event) ∈ readyPairs maxFd startFd sets events ↔ event ∈ events ∧ Ready sets fd event := by
  rw [readyPairs, List.mem_flatMap]
  constructor
  · rintro ⟨place,inside,member⟩
    cases given : sets place with
    | none => simp [readyIn, given] at member
    | some set =>
      simp only [readyIn, given, List.mem_map, List.mem_filter, decide_eq_true_eq, Prod.mk.injEq] at member
      obtain ⟨x,⟨-,ready⟩,rfl,rfl⟩ := member
      exact ⟨inside,set,given,ready⟩
  · rintro ⟨inside,set,given,ready⟩
    refine ⟨event,inside,?_⟩
    simp only [readyIn, given, List.mem_map, List.mem_filter, decide_eq_true_eq, Prod.mk.injEq, and_true]
    exact ⟨fd,⟨(succModMem below).mpr (within event set given fd ready),ready⟩,rfl⟩

theorem readyInNodup (below : startFd < maxFd) (event : FdEvent) (set : Option (Finset Nat)) :
    (readyIn (List.iterate (succMod maxFd) startFd maxFd) event set).Nodup := by
  cases set with
  | none => exact List.nodup_nil
  | some set =>
    refine ((succModNodup below).filter _).map ?_
    intro x y same
    exact (Prod.mk.inj same).1

theorem readyPairsNodup (below : startFd < maxFd) {events : List FdEvent} (distinct : events.Nodup) :
    (readyPairs maxFd startFd sets events).Nodup := by
  rw [readyPairs, List.nodup_flatMap]
  refine ⟨fun event _ => readyInNodup below event _,distinct.imp fun {first second} apart => ?_⟩
  have kind : ∀ event, ∀ pair ∈ readyIn (List.iterate (succMod maxFd) startFd maxFd) event (sets event),
      pair.2 = event := by
    intro event pair inside
    cases given : sets event with
    | none => simp [readyIn, given] at inside
    | some set =>
      simp only [readyIn, given, List.mem_map] at inside
      obtain ⟨fd,-,rfl⟩ := inside
      rfl
  intro pair left right
  exact apart ((kind first pair left).symm.trans (kind second pair right))

theorem readyInLength (below : startFd < maxFd) (event : FdEvent) {set : Option (Finset Nat)}
    (within : ∀ members, set = some members → ∀ fd ∈ members, fd < maxFd) :
    (readyIn (List.iterate (succMod maxFd) startFd maxFd) event set).length = setSize set := by
  cases set with
  | none => rfl
  | some set =>
    have same : ((List.iterate (succMod maxFd) startFd maxFd).filter fun fd => decide (fd ∈ set)).toFinset = set := by
      ext fd
      simp only [List.mem_toFinset, List.mem_filter, decide_eq_true_eq, succModMem below]
      exact ⟨And.right,fun inside => ⟨within set rfl fd inside,inside⟩⟩
    rw [readyIn, List.length_map, ← List.toFinset_card_of_nodup ((succModNodup below).filter _), same]
    rfl

theorem readyPairsLength (below : startFd < maxFd) (within : ∀ event set, sets event = some set → ∀ fd ∈ set, fd < maxFd)
    (startEvent : FdEvent) : (readyPairs maxFd startFd sets (List.iterate nextEvent startEvent 3)).length =
      setSize (sets .read) + setSize (sets .write) + setSize (sets .error) := by
  have each := fun event => readyInLength below event (within event)
  cases startEvent <;>
    simp only [readyPairs, List.iterate, nextEvent, List.flatMap_cons, List.flatMap_nil, List.length_append, each,
      List.length_nil] <;> omega

/- Every round ends, and looks up each ready pair once and no other pair. -/
theorem readyServedOnce {R : Type} (process : Nat → FdEvent → R → R) (maxFd : Nat) (positive : 1 ≤ maxFd)
    (sets : FdEvent → Option (Finset Nat)) (within : ∀ event set, sets event = some set → ∀ fd ∈ set, fd < maxFd)
    (retval : Int) (reported : retval = setSize (sets .read) + setSize (sets .write) + setSize (sets .error))
    (some_ : 0 < retval) (starts : Starts) (registry : R) (fuel : Nat) (enough : maxFd ≤ fuel ∧ 3 ≤ fuel) :
    ∃ round next, processFdEvents process maxFd sets fuel starts retval registry = some (round,next) ∧
      ∀ fd event, round.lookups.count (fd,event) = if Ready sets fd event then 1 else 0 := by
  have below : (starts.fd + 1) % maxFd < maxFd := Nat.mod_lt _ positive
  have length := readyPairsLength below within starts.event
  obtain ⟨round,served,left⟩ := eventLoopServes process below enough sets starts.event ⟨retval,[],registry⟩
    (by rw [length, reported]; push_cast; rfl)
  have distinct : (List.iterate nextEvent starts.event 3).Nodup := by cases starts.event <;> decide
  have every : ∀ event, event ∈ List.iterate nextEvent starts.event 3 := by
    intro event
    cases starts.event <;> cases event <;> decide
  have lookups : round.lookups = readyPairs maxFd ((starts.fd + 1) % maxFd) sets (List.iterate nextEvent starts.event 3) := by
    simpa using left.lookups
  refine ⟨round,⟨(starts.fd + 1) % maxFd,nextEvent starts.event⟩,?_,fun fd event => ?_⟩
  · simp [processFdEvents, some_, served]
  · have member := memReadyPairs below within (List.iterate nextEvent starts.event 3) fd event
    rw [lookups]
    split
    · rename_i ready
      exact List.count_eq_one_of_mem (readyPairsNodup below distinct) (member.mpr ⟨every event,ready⟩)
    · rename_i idle
      exact List.count_eq_zero_of_not_mem fun inside => idle (member.mp inside).2

def sampleSets : FdEvent → Option (Finset Nat)
  | .read => some {0, 4}
  | .write => none
  | .error => some {4}

theorem threeServedOnce : ∃ round next,
    processFdEvents (fun _ _ n => n + 1) 5 sampleSets 5 ⟨7,.write⟩ 3 0 = some (round,next) ∧
      ∀ fd event, round.lookups.count (fd,event) = if Ready sampleSets fd event then 1 else 0 := by
  refine readyServedOnce (fun _ _ n => n + 1) 5 (by decide) sampleSets ?_ 3 (by decide) (by decide) ⟨7,.write⟩ 0 5 (by decide)
  intro event set given fd inside
  cases event with
  | read =>
    cases given
    simp at inside
    omega
  | write => cases given
  | error =>
    cases given
    simp at inside
    omega

end Exactly

end LibProc.ReadyRound
