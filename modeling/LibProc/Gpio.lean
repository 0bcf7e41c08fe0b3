import LibProc.Runs
import LibProc.XdrBytes
import Mathlib.Data.List.Perm.Basic

/-! The two interrupts of events.c that callbacks can wait for. When an interrupt trips its callbacks
are called one after the other, and each of them may register and remove callbacks; after that a
callback that is registered is called at once. -/
namespace LibProc.Gpio
open XdrBytes Runs

inductive Line where
  | deployment | reboot
  deriving DecidableEq

structure CBList where
  id : Nat
  line : Line
  cb : Option Nat
  arg : Nat
  deriving DecidableEq

structure GPIOInterruptDesc where
  tripped : Bool
  fd : Int
  callbacks : List CBList

/- `watched` is what EVT_fd_add was given, and `looping` the interrupt whose callbacks are being called.
`called`, `removed` and `lost` are what became of the registrations, newest first. -/
structure World where
  intr : Line → GPIOInterruptDesc
  watched : Line → Bool
  looping : Line → Bool
  called : List CBList
  removed : List CBList
  lost : List CBList
  count : Nat

/- `opened` is what open returns; `watch` and `memory` whether EVT_fd_add and malloc succeed. `read` is an
event on the descriptor with what read returns, `next` a turn of the loop over the callbacks. -/
inductive Action where
  | add (line : Line) (cb : Option Nat) (arg : Nat) (opened : Int) (watch memory : Bool)
  | remove (line : Line) (cb : Option Nat) (arg : Nat)
  | read (line : Line) (bytes : List Byte)
  | next (line : Line)

def World.set (w : World) (line : Line) (intr : GPIOInterruptDesc) : World := {w with intr := Function.update w.intr line intr}

/- Whether the callback may be added, and what is left. EVT_fd_add is not 0 where it fails, so the descriptor stays
open then, and set, and is not watched. -/
def setupGpioIntr (w : World) (line : Line) (opened : Int) (watch : Bool) : Bool × World :=
  let intr := w.intr line
  if intr.tripped = true ∨ 0 < intr.fd then (true,w)
  else
    let w := {w with lost := intr.callbacks ++ w.lost}
    if opened < 0 then (false,w.set line ⟨false,opened,[]⟩)
    else if watch then (true,{w.set line ⟨false,opened,[]⟩ with watched := Function.update w.watched line true})
    else (true,w.set line ⟨false,opened,[]⟩)

def addGpioIntrCallback (w : World) (line : Line) (cb : Option Nat) (arg : Nat) (memory : Bool) : World :=
  let intr := w.intr line
  let e : CBList := ⟨w.count,line,cb,arg⟩
  if intr.tripped = false then
    if memory then {w.set line {intr with callbacks := e :: intr.callbacks} with count := w.count + 1} else w
  else {w with called := e :: w.called, count := w.count + 1}

def add (w : World) (line : Line) (cb : Option Nat) (arg : Nat) (opened : Int) (watch memory : Bool) : World :=
  let ret := setupGpioIntr w line opened watch
  if ret.1 then addGpioIntrCallback ret.2 line cb arg memory else ret.2

def matched (cb : Option Nat) (arg : Nat) (e : CBList) : Bool := decide (e.cb = cb ∧ e.arg = arg)

def removeGpioIntrCallback (w : World) (line : Line) (cb : Option Nat) (arg : Nat) : World :=
  let intr := w.intr line
  {w.set line {intr with callbacks := intr.callbacks.filter fun e => !matched cb arg e} with
    removed := intr.callbacks.filter (matched cb arg) ++ w.removed}

def tripGpioIntrCallback (w : World) (line : Line) (bytes : List Byte) : World :=
  let intr := w.intr line
  if bytes.length ≠ 2 then w
  else if bytes.headD 0 ≠ 0x59 then w
  else {w.set line {intr with tripped := true, fd := if 0 < intr.fd then -1 else intr.fd} with
    looping := Function.update w.looping line true}

def next (w : World) (line : Line) : World :=
  let intr := w.intr line
  match intr.callbacks with
  | [] => {w with looping := Function.update w.looping line false, watched := Function.update w.watched line false}
  | curr :: rest =>
    let w := w.set line {intr with callbacks := rest}
    if curr.cb.isSome then {w with called := curr :: w.called} else {w with lost := curr :: w.lost}

def step (w : World) : Action → World
  | .add line cb arg opened watch memory => add w line cb arg opened watch memory
  | .remove line cb arg => removeGpioIntrCallback w line cb arg
  | .read line bytes => tripGpioIntrCallback w line bytes
  | .next line => next w line

def start : World := ⟨fun _ => ⟨false,0,[]⟩,fun _ => false,fun _ => false,[],[],[],0⟩

/- A callback is not NULL, and descriptor 0 is another's: an interrupt with it would be set up once more, and its
callbacks forgotten. The event loop calls back for what it watches, and for nothing else as long as it is in a callback. -/
def Legal (w : World) : Action → Prop
  | .add _ cb _ opened _ _ => cb ≠ none ∧ opened ≠ 0
  | .remove .. => True
  | .read line _ => w.watched line = true ∧ ∀ other, w.looping other = false
  | .next line => w.looping line = true

def World.pending (w : World) : List CBList := (w.intr .deployment).callbacks ++ (w.intr .reboot).callbacks

/- Each registration was called once, was removed or still waits; none was called before its interrupt,
and none waits once the interrupt is dealt with. -/
structure Notified (w : World) : Prop where
  once : ((w.called ++ w.removed ++ w.pending).map CBList.id).Perm (List.range w.count)
  early : ∀ e ∈ w.called, (w.intr e.line).tripped = true
  settled : ∀ line, (w.intr line).tripped = true → w.looping line = false → (w.intr line).callbacks = []

structure Inv (w : World) : Prop where
  once : (w.called ++ w.removed ++ w.pending).map CBList.id |>.Perm (List.range w.count)
  early : ∀ e ∈ w.called, (w.intr e.line).tripped = true
  settled : ∀ line, (w.intr line).tripped = true → w.looping line = false → (w.intr line).callbacks = []
  lines : ∀ line, ∀ e ∈ (w.intr line).callbacks, e.line = line ∧ e.cb ≠ none
  opened : ∀ line, (w.intr line).tripped = false → (w.intr line).fd ≤ 0 → (w.intr line).callbacks = []
  looping : ∀ line, w.looping line = true → (w.intr line).tripped = true

section Steps
variable {w : World} {line : Line}

theorem pendingPerm (w : World) (line : Line) : ∃ rest, ∀ callbacks, ∀ w' : World,
    w'.intr = Function.update w.intr line callbacks → w'.pending.Perm (callbacks.callbacks ++ rest) := by
  cases line with
  | deployment =>
    refine ⟨(w.intr .reboot).callbacks,fun callbacks w' is => ?_⟩
    rw [World.pending, is, Function.update_self, Function.update_of_ne (by decide)]
  | reboot =>
    refine ⟨(w.intr .deployment).callbacks,fun callbacks w' is => ?_⟩
    rw [World.pending, is, Function.update_self, Function.update_of_ne (by decide)]
    exact List.perm_append_comm

@[simp] theorem setHere (w : World) (line : Line) (intr : GPIOInterruptDesc) : (w.set line intr).intr line = intr := Function.update_self ..

@[simp] theorem setApart (w : World) {line other : Line} (intr : GPIOInterruptDesc) (ne : other ≠ line) :
    (w.set line intr).intr other = w.intr other :=
  Function.update_of_ne ne ..

theorem Inv.start : Inv start where
  once := List.Perm.refl _
  early := fun _ member => nomatch member
  settled := fun _ _ _ => rfl
  lines := fun _ _ member => nomatch member
  opened := fun _ _ _ => rfl
  looping := fun _ is => nomatch is

theorem othersKept {intr : GPIOInterruptDesc} {P : Line → GPIOInterruptDesc → Prop} (here : P line intr)
    (others : ∀ other, other ≠ line → P other (w.intr other)) (other : Line) : P other ((w.set line intr).intr other) := by
  by_cases same : other = line
  · subst same
    rw [setHere]
    exact here
  · rw [setApart w intr same]
    exact others other same

theorem Inv.set (inv : Inv w) (line : Line) (intr : GPIOInterruptDesc) {w' : World} (is : w'.intr = (w.set line intr).intr)
    (tripped : (w.intr line).tripped = true → intr.tripped = true)
    (once : (w'.called ++ w'.removed ++ w'.pending).map CBList.id |>.Perm (List.range w'.count))
    (called : ∀ e ∈ w'.called, e ∈ w.called ∨ e.line = line ∧ intr.tripped = true)
    (settled : intr.tripped = true → w'.looping line = false → intr.callbacks = [])
    (lines : ∀ e ∈ intr.callbacks, e.line = line ∧ e.cb ≠ none)
    (opened : intr.tripped = false → intr.fd ≤ 0 → intr.callbacks = [])
    (looping : w'.looping line = true → intr.tripped = true)
    (apart : ∀ other, other ≠ line → w'.looping other = w.looping other) : Inv w' where
  once := once
  early := by
    intro e member
    rw [is]
    rcases called e member with before | ⟨here,trips⟩
    · by_cases same : e.line = line
      · rw [same, setHere]
        exact tripped (same ▸ inv.early e before)
      · rw [setApart w intr same]
        exact inv.early e before
    · rw [here, setHere]
      exact trips
  settled := by
    rw [is]
    refine othersKept (P := fun other intr => intr.tripped = true → w'.looping other = false → intr.callbacks = []) settled ?_
    intro other ne
    rw [apart other ne]
    exact inv.settled other
  lines := by
    rw [is]
    exact othersKept (P := fun other intr => ∀ e ∈ intr.callbacks, e.line = other ∧ e.cb ≠ none) lines fun other _ => inv.lines other
  opened := by
    rw [is]
    exact othersKept (P := fun _ intr => intr.tripped = false → intr.fd ≤ 0 → intr.callbacks = []) opened fun other _ => inv.opened other
  looping := by
    rw [is]
    refine othersKept (P := fun other intr => w'.looping other = true → intr.tripped = true) looping ?_
    intro other ne
    rw [apart other ne]
    exact inv.looping other

theorem Inv.moves (inv : Inv w) {intr : GPIOInterruptDesc} {w' : World} (is : w'.intr = (w.set line intr).intr) (count : w'.count = w.count)
    (moved : (w'.called ++ w'.removed ++ intr.callbacks).Perm (w.called ++ w.removed ++ (w.intr line).callbacks)) :
    ((w'.called ++ w'.removed ++ w'.pending).map CBList.id).Perm (List.range w'.count) := by
  obtain ⟨rest,perm⟩ := pendingPerm w line
  have before := perm (w.intr line) w (Function.update_eq_self line w.intr).symm
  rw [count]
  refine List.Perm.trans (List.Perm.map _ ?_) inv.once
  refine ((perm intr w' is).append_left _).trans ?_
  refine List.Perm.trans ?_ (before.append_left _).symm
  rw [← List.append_assoc, ← List.append_assoc]
  exact moved.append_right rest

theorem Inv.more (inv : Inv w) (e : CBList) {intr : GPIOInterruptDesc} {w' : World} (is : w'.intr = (w.set line intr).intr)
    (count : w'.count = w.count + 1) (id : e.id = w.count)
    (moved : (w'.called ++ w'.removed ++ intr.callbacks).Perm (e :: (w.called ++ w.removed ++ (w.intr line).callbacks))) :
    ((w'.called ++ w'.removed ++ w'.pending).map CBList.id).Perm (List.range w'.count) := by
  obtain ⟨rest,perm⟩ := pendingPerm w line
  have before := perm (w.intr line) w (Function.update_eq_self line w.intr).symm
  have now : (w'.called ++ w'.removed ++ w'.pending).Perm (e :: (w.called ++ w.removed ++ w.pending)) := by
    refine ((perm intr w' is).append_left _).trans ?_
    refine List.Perm.trans ?_ ((before.append_left _).cons e).symm
    rw [← List.append_assoc, ← List.append_assoc]
    exact moved.append_right rest
  refine (now.map _).trans ?_
  rw [List.map_cons, id, count, List.range_succ]
  exact (inv.once.cons w.count).trans (List.perm_append_singleton _ _).symm

theorem removeKeeps (inv : Inv w) (line : Line) (cb : Option Nat) (arg : Nat) : Inv (removeGpioIntrCallback w line cb arg) := by
  refine inv.set line {w.intr line with callbacks := (w.intr line).callbacks.filter fun e => !matched cb arg e} rfl (fun trips => trips)
    (inv.moves rfl rfl ?_) (fun e member => .inl member) ?_ ?_ ?_ (inv.looping line) fun _ _ => rfl
  · have parts := List.filter_append_perm (matched cb arg) (w.intr line).callbacks
    dsimp only [removeGpioIntrCallback,World.set]
    rw [List.append_assoc w.called, List.append_assoc w.called]
    refine List.Perm.append_left _ ?_
    refine (List.Perm.append_right _ List.perm_append_comm).trans ?_
    rw [List.append_assoc]
    exact parts.append_left _
  · intro trips quiet
    dsimp only
    rw [inv.settled line trips quiet, List.filter_nil]
  · exact fun e member => inv.lines line e (List.mem_of_mem_filter member)
  · intro waits closed
    dsimp only
    rw [inv.opened line waits closed, List.filter_nil]

theorem readKeeps (inv : Inv w) (line : Line) (bytes : List Byte) : Inv (tripGpioIntrCallback w line bytes) := by
  unfold tripGpioIntrCallback
  dsimp only
  split
  · exact inv
  split
  · exact inv
  refine inv.set line {w.intr line with tripped := true, fd := if 0 < (w.intr line).fd then -1 else (w.intr line).fd} rfl (fun _ => rfl)
    (inv.moves rfl rfl (List.Perm.refl _)) (fun e member => .inl member) ?_ (inv.lines line) (fun waits => nomatch waits) (fun _ => rfl) ?_
  · intro _ quiet
    exact absurd ((Function.update_self line true w.looping).symm.trans quiet) Bool.noConfusion
  · exact fun other ne => Function.update_of_ne ne ..

theorem nextKeeps (inv : Inv w) (line : Line) (legal : Legal w (.next line)) : Inv (next w line) := by
  unfold next
  dsimp only
  have trips := inv.looping line legal
  cases callbacks : (w.intr line).callbacks with
  | nil =>
    have same : w.intr = (w.set line (w.intr line)).intr := (Function.update_eq_self line w.intr).symm
    refine inv.set line _ same (fun trips => trips) inv.once (fun e member => .inl member) (fun _ _ => callbacks) (inv.lines line)
      (inv.opened line) ?_ ?_
    · exact fun _ => trips
    · exact fun other ne => Function.update_of_ne ne ..
  | cons curr rest =>
    obtain ⟨here,nonNull⟩ := inv.lines line curr (callbacks ▸ List.mem_cons_self)
    dsimp only
    rw [if_pos (Option.isSome_iff_ne_none.mpr nonNull)]
    refine inv.set line {w.intr line with callbacks := rest} rfl (fun trips => trips) (inv.moves rfl rfl ?_) ?_ ?_ ?_ ?_ (fun _ => trips)
      fun _ _ => rfl
    · dsimp only [World.set]
      rw [callbacks]
      exact List.perm_middle.symm
    · intro e member
      rcases List.mem_cons.mp member with rfl | before
      · exact .inr ⟨here,trips⟩
      · exact .inl before
    · intro _ quiet
      cases legal.symm.trans quiet
    · exact fun e member => inv.lines line e (callbacks ▸ List.mem_cons_of_mem _ member)
    · intro waits
      cases trips.symm.trans waits

theorem setupKeeps (inv : Inv w) (line : Line) {opened : Int} (taken : opened ≠ 0) (watch : Bool) :
    Inv (setupGpioIntr w line opened watch).2 ∧ ((setupGpioIntr w line opened watch).1 = true →
      ((setupGpioIntr w line opened watch).2.intr line).tripped = true ∨ 0 < ((setupGpioIntr w line opened watch).2.intr line).fd) := by
  unfold setupGpioIntr
  dsimp only
  by_cases ready : (w.intr line).tripped = true ∨ 0 < (w.intr line).fd
  · rw [if_pos ready]
    exact ⟨inv,fun _ => ready⟩
  rw [if_neg ready]
  obtain ⟨waits,closed⟩ := not_or.mp ready
  have waits := Bool.eq_false_iff.mpr waits
  have empty := inv.opened line waits (not_lt.mp closed)
  have quiet : w.looping line = false := by
    rw [Bool.eq_false_iff]
    intro loops
    cases (inv.looping line loops).symm.trans waits
  have kept : ∀ w' : World, w'.intr = (w.set line ⟨false,opened,[]⟩).intr → w'.called = w.called → w'.removed = w.removed →
      w'.count = w.count → w'.looping = w.looping → Inv w' := by
    intro w' is called removed count looping
    refine inv.set line ⟨false,opened,[]⟩ is (fun trips => absurd (trips.symm.trans waits) Bool.noConfusion) (inv.moves is count ?_) ?_
      (fun trips => nomatch trips)
      (fun e member => nomatch member) (fun _ _ => rfl) ?_ fun _ _ => by rw [looping]
    · rw [called, removed, empty]
    · exact fun e member => .inl (called ▸ member)
    · intro loops
      rw [looping, quiet] at loops
      cases loops
  split
  · exact ⟨kept _ rfl rfl rfl rfl rfl,fun added => nomatch added⟩
  · next positive =>
    have here : (Function.update w.intr line ⟨false,opened,[]⟩ line).fd = opened := by rw [Function.update_self]
    have set : 0 < (Function.update w.intr line ⟨false,opened,[]⟩ line).fd := here.symm ▸ (by omega)
    split
    · exact ⟨kept _ rfl rfl rfl rfl rfl,fun _ => .inr set⟩
    · exact ⟨kept _ rfl rfl rfl rfl rfl,fun _ => .inr set⟩

theorem addKeeps (inv : Inv w) {cb : Option Nat} (nonNull : cb ≠ none) (arg : Nat)
    (ready : (w.intr line).tripped = true ∨ 0 < (w.intr line).fd) (memory : Bool) : Inv (addGpioIntrCallback w line cb arg memory) := by
  unfold addGpioIntrCallback
  dsimp only
  cases trips : (w.intr line).tripped with
  | false =>
    rw [if_pos rfl]
    cases memory with
    | false =>
      rw [if_neg Bool.false_ne_true]
      exact inv
    | true =>
      rw [if_pos rfl]
      let e : CBList := ⟨w.count,line,cb,arg⟩
      let intr : GPIOInterruptDesc := ⟨false,(w.intr line).fd,e :: (w.intr line).callbacks⟩
      have more : (w.called ++ w.removed ++ intr.callbacks).Perm (e :: (w.called ++ w.removed ++ (w.intr line).callbacks)) := List.perm_middle
      let w' : World := {w.set line intr with count := w.count + 1}
      have is : w'.intr = (w.set line intr).intr := rfl
      refine inv.set line intr is ?_ (inv.more e is rfl rfl more) (fun e member => .inl member) (fun is => nomatch is) ?_ ?_ ?_ fun _ _ => rfl
      · exact fun was => absurd (was.symm.trans trips) Bool.noConfusion
      · intro e member
        rcases List.mem_cons.mp member with rfl | before
        · exact ⟨rfl,nonNull⟩
        · exact inv.lines line e before
      · intro _ closed
        rcases ready with was | opened
        · cases was.symm.trans trips
        · exact absurd opened (not_lt.mpr closed)
      · intro loops
        cases (inv.looping line loops).symm.trans trips
  | true =>
    have same : w.intr = (w.set line (w.intr line)).intr := (Function.update_eq_self line w.intr).symm
    rw [if_neg (by decide)]
    refine inv.set line _ same (fun trips => trips) (inv.more ⟨w.count,line,cb,arg⟩ same rfl rfl (List.Perm.refl _)) ?_ (inv.settled line)
      (inv.lines line) (inv.opened line) (inv.looping line) fun _ _ => rfl
    intro e member
    rcases List.mem_cons.mp member with rfl | before
    · exact .inr ⟨rfl,trips⟩
    · exact .inl before

theorem stepKeeps (inv : Inv w) (a : Action) (legal : Legal w a) : Inv (step w a) := by
  cases a with
  | add line cb arg opened watch memory =>
    obtain ⟨nonNull,taken⟩ := legal
    obtain ⟨inv',ready⟩ := setupKeeps inv line taken watch
    unfold step add
    dsimp only
    split
    · next added => exact addKeeps inv' nonNull arg (ready added) memory
    · exact inv'
  | remove line cb arg => exact removeKeeps inv line cb arg
  | read line bytes => exact readKeeps inv line bytes
  | next line => exact nextKeeps inv line legal

end Steps

/- Over any run, callbacks that register and remove callbacks included, a callback is called once after
its interrupt has tripped, at once when that has happened before, unless it was removed. -/
theorem callbacksNotified (acts : List Action) (legal : Along step Legal start acts) : Notified (exec step start acts) := by
  have keep : ∀ w a, Inv w → Legal w a → Inv (step w a) := fun w a inv ok => stepKeeps inv a ok
  have inv : Inv (exec step start acts) := legal.invariant keep Inv.start
  exact ⟨inv.once,inv.early,inv.settled⟩

def sampleActions : List Action :=
  [.add .reboot (some 1) 0 5 true true,.add .reboot (some 2) 0 5 true true,.read .reboot [0x59,0x0A],.next .reboot,
    .remove .reboot (some 1) 0,.add .reboot (some 3) 7 5 true true,.next .reboot]

theorem sampleNotified : Along step Legal start sampleActions ∧ Notified (exec step start sampleActions) := by
  have legal : Along step Legal start sampleActions := by
    simp [sampleActions,Along,Legal,step,add,setupGpioIntr,addGpioIntrCallback,removeGpioIntrCallback,tripGpioIntrCallback,next,start,
      World.set,matched]
  exact ⟨legal,callbacksNotified sampleActions legal⟩

end LibProc.Gpio
