import LibProc.GlobalTime
import LibProc.GlobalSlots

/-! The order in which processes leave the barrier loop. A process leaves it when the time it
asked for has come. That the shared time has not passed it yet would follow if the end of a trip
looked at its slot; but the slot of a waiting process is marked, and the end of a trip makes the
time its own process asks for the shared one. -/
namespace LibProc.GlobalOrder
open GlobalTimer GlobalMutex GlobalEffects GlobalTime GlobalTurns GlobalSlots Runs

structure Exit where
  proc : Nat
  nextAwake : Timeval
  currTime : Timeval
  time : Timeval
  deriving DecidableEq, Repr

def exit (world : World) : Event → Option Exit
  | .act proc .wait =>
    (world.timers[proc]?).bind fun timer =>
      let after := act world.state timer .wait
      match timer.pc,after.2.pc with
      | .through next,.selecting => some ⟨proc,next,after.1.currTime,after.2.time⟩
      | _,_ => none
  | _ => none

def exits (world : World) : List Event → List Exit
  | [] => []
  | event :: rest => (exit world event).toList ++ exits (step world event) rest

/- The process that ends its trip asks for no later time than any that waits. -/
def First (world : World) (event : Event) : Prop :=
  ∀ ends ∈ ending world event, ∀ waiting ∈ world.timers, ∀ next ∈ asked waiting.pc, ends.2 ≤ next

instance (world : World) (event : Event) : Decidable (First world event) :=
  inferInstanceAs (Decidable (∀ ends ∈ ending world event, ∀ waiting ∈ world.timers, ∀ next ∈ asked waiting.pc,
    ends.2 ≤ next))

/- No stealing and no pausing, and nobody that waits is passed. -/
def Prompt (world : World) (event : Event) : Prop := plain event = true ∧ First world event

instance (world : World) (event : Event) : Decidable (Prompt world event) :=
  inferInstanceAs (Decidable (_ ∧ _))

structure Timely (world : World) : Prop where
  slots : Slots world
  due : ∀ timer ∈ world.timers, ∀ next ∈ asked timer.pc, world.state.currTime ≤ next

theorem timelyStart : Timely nobody := ⟨slotsStart,fun _ member => absurd member List.not_mem_nil⟩

theorem timelyStep (world : World) (event : Event) (inv : Timely world) (prompt : Prompt world event) :
    Timely (step world event) := by
  refine ⟨slotsStep world event inv.slots prompt.1,?_⟩
  cases event with
  | start pid mode =>
    intro timer member next asks
    rcases List.mem_append.mp member with old | new
    · exact inv.due timer old next asks
    · rw [List.mem_singleton.mp new] at asks
      cases asks
  | act proc move =>
    rw [step]
    cases here : world.timers[proc]? with
    | none => exact inv.due
    | some timer =>
      refine inv.slots.askedKeep here (actEffect move) le_refl inv.due fun asks moved place awake => ?_
      rw [moved] at prompt
      exact prompt.2 _ (endingOf here place awake)

structure Watched where
  world : World
  last : Option Timeval

def watch (w : Watched) (event : Event) : Watched :=
  ⟨step w.world event,((exit w.world event).map Exit.currTime).or w.last⟩

/- A trip asks for a time not before the last exit. -/
def Onward (w : Watched) (event : Event) : Prop := ∀ ends ∈ ending w.world event, ∀ last ∈ w.last, last ≤ ends.2

instance (w : Watched) (event : Event) : Decidable (Onward w event) :=
  inferInstanceAs (Decidable (∀ ends ∈ ending w.world event, ∀ last ∈ w.last, last ≤ ends.2))

theorem exitSource {world : World} {event : Event} {out : Exit} (inv : Exclusive world) (left : exit world event = some out) :
    ∃ timer ∈ world.timers, timer.pc = .through out.nextAwake ∧ out.nextAwake ≤ world.state.currTime ∧
      out.currTime = world.state.currTime ∧ out.time = world.state.currTime ∧ world.state.sized = true := by
  unfold exit at left
  split at left
  · rename_i proc
    obtain ⟨timer,here,is⟩ := Option.bind_eq_some_iff.mp left
    have effect : Effect world.state timer .wait (act world.state timer .wait).1 (act world.state timer .wait).2 :=
      actEffect .wait
    generalize act world.state timer .wait = after at effect is
    obtain ⟨state',timer'⟩ := after
    dsimp only at effect is
    split at is
    · rename_i next place selecting
      cases is
      cases effect with
      | entering was free due =>
        rw [place, Pc.through.injEq] at was
        have sized : world.state.sized = true := by
          by_contra fresh
          have none := (inv.fresh (Bool.eq_false_iff.mpr fresh)).1
          omega
        exact ⟨timer,List.mem_of_getElem? here,place,was ▸ due,rfl,rfl,sized⟩
      | stay =>
        rw [place] at selecting
        cases selecting
      | relocked | passing | mistimed | early => cases selecting
    · cases is
  · cases left

theorem effectNotBefore {world : World} {proc : Nat} {timer timer' : Timer} {move : Act} {state' : SharedState} {time : Timeval}
    (inv : Timely world) (here : world.timers[proc]? = some timer) (effect : Effect world.state timer move state' timer')
    (onward : ∀ ends ∈ ending world (.act proc move), time ≤ ends.2) (sized : world.state.sized = true)
    (before : time ≤ world.state.currTime) : state'.sized = true ∧ time ≤ state'.currTime := by
  cases effect with
  | founding place fresh =>
    rw [sized] at fresh
    cases fresh
  | faulting place untouched grows founded => exact ⟨(grows sized).1,untouched.currTime ▸ before⟩
  | advancing place awake found honest =>
    rw [inv.slots.advanced here place found]
    exact ⟨sized,onward _ (endingOf here place awake)⟩
  | _ => exact ⟨sized,before⟩

theorem stepNotBefore {world : World} {event : Event} {time : Timeval} (inv : Timely world)
    (onward : ∀ ends ∈ ending world event, time ≤ ends.2) (sized : world.state.sized = true)
    (before : time ≤ world.state.currTime) :
    (step world event).state.sized = true ∧ time ≤ (step world event).state.currTime := by
  cases event with
  | start pid mode => exact ⟨sized,before⟩
  | act proc move =>
    rw [step]
    cases here : world.timers[proc]? with
    | none => exact ⟨sized,before⟩
    | some timer => exact effectNotBefore inv here (actEffect move) onward sized before

theorem exitDue {world : World} {event : Event} {out : Exit} (inv : Timely world) (left : exit world event = some out) :
    out.currTime = out.nextAwake ∧ out.time = out.nextAwake ∧ out.currTime = world.state.currTime ∧ world.state.sized = true := by
  obtain ⟨timer,member,place,due,time,clock,sized⟩ := exitSource inv.slots.exclusive left
  have same : world.state.currTime = out.nextAwake :=
    le_antisymm (inv.due timer member out.nextAwake (by rw [place]; rfl)) due
  exact ⟨time.trans same,clock.trans same,time,sized⟩

theorem exitEnds {world : World} {event : Event} {out : Exit} (left : exit world event = some out) : ending world event = none := by
  unfold exit at left
  split at left
  · rfl
  · cases left

theorem exitsDue {world : World} {events : List Event} (inv : Timely world) (prompt : Along step Prompt world events) :
    ∀ out ∈ exits world events, out.currTime = out.nextAwake ∧ out.time = out.nextAwake := by
  induction events generalizing world with
  | nil => exact fun _ member => absurd member List.not_mem_nil
  | cons event rest ih =>
    intro out member
    rw [exits] at member
    rcases List.mem_append.mp member with now | later
    · obtain ⟨due,clock,-⟩ := exitDue inv (Option.mem_toList.mp now)
      exact ⟨due,clock⟩
    · exact ih (timelyStep world event inv prompt.1) prompt.2 out later

theorem exitsSorted {w : Watched} {events : List Event} (inv : Timely w.world) (prompt : Along step Prompt w.world events)
    (onward : Along watch Onward w events)
    (before : ∀ last ∈ w.last, w.world.state.sized = true ∧ last ≤ w.world.state.currTime) :
    (∀ out ∈ exits w.world events, ∀ last ∈ w.last, last ≤ out.currTime) ∧
      (exits w.world events).Pairwise fun first second => first.currTime ≤ second.currTime := by
  induction events generalizing w with
  | nil => exact ⟨fun _ member => absurd member List.not_mem_nil,.nil⟩
  | cons event rest ih =>
    have timely := timelyStep w.world event inv prompt.1
    rw [exits]
    cases left : exit w.world event with
    | none =>
      have same : (watch w event).last = w.last := by simp only [watch,left,Option.map_none,Option.none_or]
      have kept : ∀ last ∈ (watch w event).last, (watch w event).world.state.sized = true ∧ last ≤ (watch w event).world.state.currTime := by
        intro last is
        rw [same] at is
        obtain ⟨sized,early⟩ := before last is
        exact stepNotBefore inv (fun ends member => onward.1 ends member last is) sized early
      obtain ⟨after,sorted⟩ := ih timely prompt.2 onward.2 kept
      rw [same] at after
      exact ⟨after,sorted⟩
    | some out =>
      obtain ⟨-,-,time,sized⟩ := exitDue inv left
      have last : (watch w event).last = some out.currTime := by simp only [watch,left,Option.map_some,Option.some_or]
      have none_ : ∀ ends, ends ∉ ending w.world event := fun ends member => by
        rw [exitEnds left] at member
        cases member
      have kept : ∀ last ∈ (watch w event).last, (watch w event).world.state.sized = true ∧ last ≤ (watch w event).world.state.currTime := by
        intro time' is
        rw [last] at is
        cases Option.some.inj is
        exact stepNotBefore inv (fun ends member => absurd member (none_ ends)) sized time.le
      obtain ⟨after,sorted⟩ := ih timely prompt.2 onward.2 kept
      refine ⟨fun other among earlier is => ?_,List.pairwise_cons.mpr ⟨fun other among => after other among _ last,sorted⟩⟩
      have first : earlier ≤ out.currTime := by
        rw [time]
        exact (before earlier is).2
      rcases List.mem_cons.mp among with rfl | among
      · exact first
      · exact le_trans first (after other among _ last)

/- Each process leaves the loop at the time it asked for; and the exits are in order where no trip asks for a time
before the last of them. -/
theorem exitsOnTime (events : List Event) (prompt : Along step Prompt nobody events) :
    (∀ out ∈ exits nobody events, out.currTime = out.nextAwake ∧ out.time = out.nextAwake) ∧
    (Along watch Onward ⟨nobody,none⟩ events →
      (exits nobody events).Pairwise fun first second => first.currTime ≤ second.currTime) :=
  ⟨exitsDue timelyStart prompt,fun onward => (exitsSorted (w := ⟨nobody,none⟩) timelyStart prompt onward fun _ is => nomatch is).2⟩

example : Along step Prompt nobody ([.start 7 .active,.act 0 .openFile,.act 0 (.setup ⟨100,0⟩ none),.act 0 (.join false),
    .act 0 (.block (some ⟨1,0⟩) false),.act 0 .post,.act 0 .post,.act 0 .wait,.act 0 .wait,.act 0 .awake,
    .act 0 (.block (some ⟨2,0⟩) false),.act 0 .post,.act 0 .post,.act 0 .wait,.act 0 .wait]) := by
  decide +kernel

def bothDue : List Event :=
  [.start 7 .active,.act 0 .openFile,.act 0 (.setup ⟨1,0⟩ none),.act 0 (.join false),
    .act 0 (.block (some ⟨5,0⟩) false),.act 0 .post,.act 0 .post,
    .start 8 .active,.act 1 .openFile,.act 1 (.setup ⟨1,0⟩ none),.act 1 (.join false),
    .act 1 (.block (some ⟨5,0⟩) false),.act 1 .post,.act 1 .post]

def inStep : List Event :=
  bothDue ++ [.act 0 .wait,.act 0 .wait,.act 0 .awake,.act 0 (.block (some ⟨5,0⟩) false),.act 0 .post,.act 0 .post,
    .act 1 .wait,.act 1 .wait,.act 1 .awake,.act 1 .cleanup,.act 1 .post,.act 1 .close,
    .act 0 .wait,.act 0 .wait,.act 0 .awake,.act 0 (.block (some ⟨9,0⟩) false),.act 0 .post,.act 0 .post,
    .act 0 .wait,.act 0 .wait]

theorem exitsOnTimeInStep : (∀ out ∈ exits nobody inStep, out.currTime = out.nextAwake ∧ out.time = out.nextAwake) ∧
    (exits nobody inStep).Pairwise fun first second => first.currTime ≤ second.currTime := by
  obtain ⟨due,sorted⟩ := exitsOnTime inStep (by decide +kernel)
  exact ⟨due,sorted (by decide +kernel)⟩

def overtaken : List Event :=
  bothDue ++ [.act 1 .wait,.act 1 .wait,.act 1 .awake,.act 1 (.block (some ⟨6,0⟩) false),.act 1 .post,.act 1 .post,
    .act 0 .wait,.act 0 .wait]

theorem overtakenRunsLate :
    Along step (fun world event => plain event = true ∧ Orderly world event) nobody overtaken ∧
      ∃ out ∈ exits nobody overtaken, out.currTime ≠ out.nextAwake := by
  decide +kernel

end LibProc.GlobalOrder
