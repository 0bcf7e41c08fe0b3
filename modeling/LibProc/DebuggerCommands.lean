import LibProc.FdRegistry
import LibProc.JsonGetters
import LibProc.Scheduler

/-! What the messages of a debugger client do to the event loop, from edbg_client_msg of events.c. A local
variable that is looked at before anything is stored in it holds whatever was on the stack: those are
arguments, and what is done with them is set against docs/debugger.md. -/
namespace LibProc.DebuggerCommands
open Config (Text strcaseEq)
open Json (jsonGetStringProp jsonGetIntProp jsonGetPtrProp intProp intOf ptrOf occurrences copyOf commandName Command Wanted Parses)
open Scheduler FdRegistry

inductive Output where
  | state (fullFormat : Bool)
  | unknown (cmd data : Text)
  deriving DecidableEq, Repr

structure State (A : Type) where
  timed : EventState A
  fds : Registry
  dbgStep : Bool
  dumpEvt : Option EventId
  breakpointEvt : Option EventId
  dumpEveryLoop : Bool
  outputs : List Output

/- The variables of the function that are declared without a value. -/
structure Locals where
  steps : BitVec 32
  id : BitVec 64
  deriving DecidableEq, Repr

/- What the function asks of the world: `memory` and `later` are for strdup, `malloc`, `grow` and `now` for
EVT_sched_add, `growDbg` and `real` for EVT_sched_move_to_mono. An address of 0 is NULL. -/
structure Env (A : Type) where
  memory : Nat → Bool
  later : Nat → Bool
  malloc : Bool
  grow : Bool
  now : Timeval
  growDbg : Bool
  real : Timeval
  address : EventId → BitVec 64
  callback : A → BitVec 64
  dlsym : Text → BitVec 64
  edbgBreakpointCb : A
  edbgDumpCb : A

section
variable {A : Type}

def State.setBreakOnNext (ctx : State A) (breakOnNext : Bool) : State A :=
  { ctx with timed := { ctx.timed with breakOnNext := breakOnNext }, fds := { ctx.fds with breakOnNext := breakOnNext } }

def State.setStepsToBreak (ctx : State A) (steps : Int) : State A :=
  { ctx with timed := { ctx.timed with stepsToBreak := steps }, fds := { ctx.fds with stepsToBreak := steps } }

def removeSet (ctx : EventState A) (evt : Option EventId) : EventState A :=
  match evt with
  | none => ctx
  | some e => (evtSchedRemove ctx e).2

def State.released (ctx : State A) : State A :=
  let ctx := { ctx.setBreakOnNext false with dbgStep := true }
  { ctx with timed := removeSet ctx.timed ctx.breakpointEvt, breakpointEvt := none }

/- EVT_sched_set_name writes through the event that EVT_sched_add returned, NULL or not. -/
def State.breakAfter (env : Env A) (ctx : State A) (steps : Int) : Option (State A) :=
  if 0 < steps then
    match evtSchedAdd ctx.timed env.malloc env.grow env.now (evtMs2tv steps) env.edbgBreakpointCb with
    | (none,_) => none
    | (some e,timed) =>
      some { ctx with timed := evtSchedSetCritical (evtSchedMakeBreakpoint timed e) e 0, breakpointEvt := some e }
  else some ctx

def State.stopped (ctx : State A) : State A := (ctx.setBreakOnNext true).setStepsToBreak 1

def State.stepping (ctx : State A) : State A := { ctx.stopped with dbgStep := true }

def State.dumpEvery (env : Env A) (ctx : State A) (steps : Int) : Option (State A) :=
  let ctx := { ctx with timed := removeSet ctx.timed ctx.dumpEvt, dumpEvt := none }
  if 500 ≤ steps then
    match evtSchedAdd ctx.timed env.malloc env.grow env.now (evtMs2tv steps) env.edbgDumpCb with
    | (none,_) => none
    | (some e,timed) =>
      some { ctx with
        timed := evtSchedSetCritical (evtSchedMoveToMono timed env.growDbg env.real e) e 0, dumpEvt := some e }
  else some ctx

def State.setPaused (ctx : State A) (fd : Nat) (paused : Bool) : State A := { ctx with fds := evtFdSetPaused ctx.fds fd paused }

def State.mark (ctx : State A) (e : EventId) (breakpoint : Bool) : State A :=
  { ctx with timed := ctx.timed.modify e fun evt => { evt with breakpoint := breakpoint } }

def firstQueued (ctx : EventState A) (wanted : EventId → Bool) : Option EventId :=
  ((List.range' 1 (ctx.queue.size - 1)).map ctx.queue.d).find? wanted

def byId (env : Env A) (ctx : EventState A) (id : BitVec 64) : Option EventId :=
  firstQueued ctx fun e => env.address e = id

def byFunction (env : Env A) (ctx : EventState A) (func : Text) : Option EventId :=
  let id := env.dlsym func
  if id = 0 then none else firstQueued ctx fun e => env.callback (ctx.events e).call = id

abbrev named (cmd : Text) (name : String) : Prop := strcaseEq cmd name.toList = true

def eventOf (env : Env A) (ctx : EventState A) : Wanted → Option EventId
  | .id id => byId env ctx id
  | .function func => byFunction env ctx func
  | .nothing => none

def carryOut (env : Env A) (ctx : State A) (data : Text) : Command → Option (State A)
  | .run ms => ctx.released.breakAfter env ms
  | .stop => some ctx.stopped
  | .next none => some ctx.stepping
  | .next (some steps) => some (ctx.stepping.setStepsToBreak steps)
  | .startDumpingEveryLoop => some { ctx with dumpEveryLoop := true }
  | .stopDumpingEveryLoop => some { ctx with dumpEveryLoop := false }
  | .dumpNow => some { ctx with outputs := ctx.outputs ++ [.state true] }
  | .periodicDump ms => ctx.dumpEvery env ms
  | .fdBreakpoint paused fd => some (if 2 < fd then ctx.setPaused fd.toNat paused else ctx)
  | .timedBreakpoint set wanted =>
    match eventOf env ctx.timed wanted with
    | none => some ctx
    | some e => some (ctx.mark e set)
  | .unknown cmd => some { ctx with outputs := ctx.outputs ++ [.unknown cmd data] }

/- What the message asks for is looked up first. `none` is a crash: strcasecmp is given NULL when there is no copy of a command. -/
def edbgClientMsg (env : Env A) (locals : Locals) (ctx : State A) (data : Text) : Option (State A) := do
  match ← Json.edbgClientMsg env.memory env.later locals.steps.toInt locals.id data with
  | .rejected => some ctx
  | .crashed => none
  | .handled command => carryOut env ctx data command

def property {α : Type} (convert : Text → α) (data : Text) (prop : String) : Option α :=
  (occurrences data prop.toList).getLast?.map fun call => convert call.val

def wantedBy (memory : Nat → Bool) (data : Text) : Wanted :=
  match property ptrOf data "id" with
  | some id => .id id
  | none =>
    match copyOf memory data "function".toList with
    | some func => .function func
    | none => .nothing

def commandBy (memory : Nat → Bool) (absent : Int) (data cmd : Text) : Command :=
  if named cmd "run" then .run ((property intOf data "ms").getD absent)
  else if named cmd "stop" then .stop
  else if named cmd "next" then .next (property intOf data "steps")
  else if named cmd "start_dumping_every_loop" then .startDumpingEveryLoop
  else if named cmd "stop_dumping_every_loop" then .stopDumpingEveryLoop
  else if named cmd "dump_now" then .dumpNow
  else if named cmd "periodic_dump" then .periodicDump ((property intOf data "ms").getD 0)
  else if named cmd "set_fd_breakpoint" ∨ named cmd "clear_fd_breakpoint" then
    .fdBreakpoint (decide (named cmd "set_fd_breakpoint")) ((property intOf data "fd").getD 0)
  else if named cmd "set_timed_breakpoint" ∨ named cmd "clear_timed_breakpoint" then
    .timedBreakpoint (decide (named cmd "set_timed_breakpoint")) (wantedBy memory data)
  else .unknown cmd

def obeyed (env : Env A) (absent : Int) (ctx : State A) (data : Text) : Option (State A) :=
  match Json.jsonIterateProps data with
  | some (.good,_) => (copyOf env.memory data commandName).bind fun cmd => carryOut env ctx data (commandBy env.later absent data cmd)
  | _ => some ctx

/- As docs/debugger.md has it, to run without a time is to run without a breakpoint. -/
def documented (env : Env A) (ctx : State A) (data : Text) : Option (State A) := obeyed env 0 ctx data

def Determined (env : Env A) (ctx : State A) (data : Text) : Prop :=
  ∀ locals locals', edbgClientMsg env locals ctx data = edbgClientMsg env locals' ctx data

def AsDocumented (env : Env A) (ctx : State A) (data : Text) : Prop :=
  ∀ locals, edbgClientMsg env locals ctx data = documented env ctx data

def Untimed (env : Env A) (data : Text) : Prop :=
  (∃ cmd, copyOf env.memory data commandName = some cmd ∧ named cmd "run") ∧ occurrences data "ms".toList = []

end

section
variable {A : Type} {env : Env A} {locals : Locals} {ctx : State A} {data cmd : Text}

theorem propertyIs {α : Type} (convert : Text → α) (zero : α) (data : Text) (prop : String) :
    ∃ res : Int, (∀ value, property convert data prop = some value → 0 ≤ res) ∧ (property convert data prop = none → ¬0 ≤ res) ∧
      ∀ before, Json.jsonGetFoundProp convert zero (some data) (some prop.toList) (some before) =
        some (res,some ((property convert data prop).getD before)) := by
  obtain ⟨res,negative,found,returns⟩ := Json.foundIs convert zero data prop.toList
  refine ⟨res,fun value there => ?_,fun none_ positive => ?_,returns⟩
  · obtain ⟨call,last,-⟩ := Option.map_eq_some_iff.mp there
    exact (found.mpr (Json.lastOccurs last)).ge
  · exact found.mp (le_antisymm negative positive) (List.getLast?_eq_none_iff.mp (Option.map_eq_none_iff.mp none_))

theorem intPropIs (data : Text) (prop : String) (steps : Int) :
    intProp data prop steps = some ((property intOf data prop).getD steps) := by
  obtain ⟨res,-,-,returns⟩ := propertyIs intOf 0 data prop
  rw [intProp, jsonGetIntProp, returns]
  rfl

theorem stringIs (memory : Nat → Bool) (data prop : Text) :
    ∃ res : Int, (0 ≤ res ↔ Parses data) ∧
      jsonGetStringProp memory (some data) (some prop) (some none) = some (res,some (copyOf memory data prop)) := by
  by_cases parsed : Parses data
  · exact ⟨0,iff_of_true le_rfl parsed,Json.stringParsed memory prop none parsed⟩
  · obtain ⟨res,negative,returns⟩ := Json.stringUnparsed memory prop none parsed
    refine ⟨res,iff_of_false (by omega) parsed,?_⟩
    have none_ : occurrences data prop = [] := not_not.mp fun occur => parsed (Json.occurParses occur)
    rw [returns, copyOf, none_]
    rfl

theorem copyParses {memory : Nat → Bool} {prop : Text} (copied : copyOf memory data prop = some cmd) : Parses data := by
  obtain ⟨call,last,-⟩ := Json.copySource copied
  exact Json.occurParses (Json.lastOccurs last)

theorem wantedIs (memory : Nat → Bool) (id : BitVec 64) (data : Text) :
    Json.wantedOf memory id data = some (wantedBy memory data) := by
  obtain ⟨res,found,absent,returns⟩ := propertyIs ptrOf 0 data "id"
  obtain ⟨res',parses,returns'⟩ := stringIs memory data "function".toList
  rw [Json.wantedOf, jsonGetPtrProp, returns, returns', wantedBy]
  simp only [Option.bind_eq_bind,Option.bind_some]
  cases there : property ptrOf data "id" with
  | some id => rw [if_pos (found id there)]; rfl
  | none =>
    rw [if_neg (absent there)]
    cases copied : copyOf memory data "function".toList with
    | some func => rw [if_pos (parses.mpr (copyParses copied))]; rfl
    | none => split <;> rfl

theorem commandIs (memory : Nat → Bool) (steps : Int) (id : BitVec 64) (data cmd : Text) :
    Json.commandOf memory steps id data cmd = some (commandBy memory steps data cmd) := by
  obtain ⟨res,found,absent,returns⟩ := propertyIs intOf 0 data "steps"
  have next : (if 0 ≤ res then some ((property intOf data "steps").getD steps) else none) = property intOf data "steps" := by
    cases there : property intOf data "steps" with
    | some value => exact if_pos (found value there)
    | none => exact if_neg (absent there)
  unfold Json.commandOf commandBy
  rw [intPropIs, intPropIs, intPropIs, wantedIs, jsonGetIntProp, returns]
  dsimp only [Option.bind_eq_bind,Option.bind_some,Option.map_some]
  rw [next]
  simp only [apply_ite some]

theorem obeyedParsed {absent : Int} (parsed : Parses data) : obeyed env absent ctx data =
    (copyOf env.memory data commandName).bind fun cmd => carryOut env ctx data (commandBy env.later absent data cmd) := by
  obtain ⟨calls,is⟩ := parsed
  rw [obeyed, is]

theorem obeyedUnparsed {absent : Int} (unparsed : ¬Parses data) : obeyed env absent ctx data = some ctx := by
  rcases Json.textCases data [] with ⟨err,calls,is,bad,-,-⟩ | ⟨-,-,parsed,-⟩
  · rw [obeyed, is]
    cases err <;> first | rfl | exact absurd rfl bad
  · exact absurd parsed unparsed

theorem messageIs (env : Env A) (locals : Locals) (ctx : State A) (data : Text) :
    edbgClientMsg env locals ctx data = obeyed env locals.steps.toInt ctx data := by
  obtain ⟨res,parses,returns⟩ := stringIs env.memory data commandName
  rw [edbgClientMsg, Json.edbgClientMsg, returns]
  simp only [Option.bind_eq_bind,Option.bind_some,Option.join_some,commandIs]
  by_cases parsed : Parses data
  · rw [if_neg (not_lt.mpr (parses.mpr parsed)), obeyedParsed parsed]
    cases copyOf env.memory data commandName <;> rfl
  · rw [if_pos (not_le.mp fun positive => parsed (parses.mp positive)), obeyedUnparsed parsed]
    rfl

theorem commandTimed {absent absent' : Int} (memory : Nat → Bool) (timed : ¬(named cmd "run" ∧ occurrences data "ms".toList = [])) :
    commandBy memory absent data cmd = commandBy memory absent' data cmd := by
  unfold commandBy
  by_cases run : named cmd "run"
  · have there : (occurrences data "ms".toList).getLast? ≠ none := fun none_ => timed ⟨run,List.getLast?_eq_none_iff.mp none_⟩
    obtain ⟨call,last⟩ := Option.ne_none_iff_exists'.mp there
    rw [if_pos run, if_pos run, property, last]
    rfl
  · rw [if_neg run, if_neg run]

theorem obeyedTimed {absent absent' : Int} (timed : ¬Untimed env data) : obeyed env absent ctx data = obeyed env absent' ctx data := by
  by_cases parsed : Parses data
  · rw [obeyedParsed parsed, obeyedParsed parsed]
    cases copied : copyOf env.memory data commandName with
    | none => rfl
    | some cmd => exact congrArg (carryOut env ctx data) (commandTimed env.later fun both => timed ⟨⟨cmd,copied,both.1⟩,both.2⟩)
  · rw [obeyedUnparsed parsed, obeyedUnparsed parsed]

theorem breaksAfter {steps : Int} {after : State A} (positive : 0 < steps) (left : ctx.breakAfter env steps = some after) :
    after.breakpointEvt ≠ none := by
  rw [State.breakAfter, if_pos positive] at left
  split at left
  · cases left
  · cases left
    nofun

theorem obeyedUntimed {absent : Int} (untimed : Untimed env data) :
    obeyed env absent ctx data = ctx.released.breakAfter env absent := by
  obtain ⟨⟨cmd,copied,run⟩,none_⟩ := untimed
  rw [obeyedParsed (copyParses copied), copied, Option.bind_some, commandBy, if_pos run, property, none_]
  rfl

theorem untimedDiffers (untimed : Untimed env data) : obeyed env 0 ctx data ≠ obeyed env 1 ctx data := by
  rw [obeyedUntimed untimed, obeyedUntimed untimed, State.breakAfter, if_neg (lt_irrefl 0)]
  exact fun same => breaksAfter one_pos same.symm rfl

end

/- What a message leaves comes from it and from the state before, as documented, just when it is no "run" without a time. -/
theorem determinedIff {A : Type} (env : Env A) (ctx : State A) (data : Text) :
    (Determined env ctx data ↔ ¬Untimed env data) ∧ (AsDocumented env ctx data ↔ ¬Untimed env data) := by
  have free : ¬Untimed env data → ∀ locals, edbgClientMsg env locals ctx data = documented env ctx data := fun timed locals => by
    rw [messageIs, documented, obeyedTimed timed]
  have bound : Determined env ctx data → ¬Untimed env data := by
    intro same untimed
    have zeroOne := same ⟨0,0⟩ ⟨1,0⟩
    rw [messageIs, messageIs] at zeroOne
    exact untimedDiffers untimed zeroOne
  refine ⟨⟨bound,fun timed locals locals' => ?_⟩,⟨fun as => bound fun locals locals' => ?_,free⟩⟩
  · rw [free timed locals, free timed locals']
  · rw [as locals, as locals']

def runMessage : Text := Json.openBrace :: "\"command\":\"run\"".toList ++ [Json.closeBrace]

def sampleEnv : Env Nat where
  memory _ := true
  later _ := true
  malloc := true
  grow := true
  now := ⟨0,0⟩
  growDbg := true
  real := ⟨0,0⟩
  address e := BitVec.ofNat 64 e
  callback call := BitVec.ofNat 64 call
  dlsym _ := 0
  edbgBreakpointCb := 1
  edbgDumpCb := 2

def sampleState : State Nat :=
  ⟨evtInitWithSize 5 (fun _ => newSchedCB ⟨0,0⟩ ⟨0,0⟩ ⟨0,0⟩ 0) (fun _ => 0) (fun _ => 0),evtCreateHandler 5,false,none,none,false,[]⟩

/- A client that lets the program run is given a breakpoint by what was on the stack. -/
theorem runBreaksByChance : occurrences runMessage commandName ≠ [] ∧ occurrences runMessage "ms".toList = [] ∧
    (∃ after, edbgClientMsg sampleEnv ⟨0,0⟩ sampleState runMessage = some after ∧ after.breakpointEvt = none) ∧
    (∃ after, edbgClientMsg sampleEnv ⟨1,0⟩ sampleState runMessage = some after ∧ after.breakpointEvt = some 1) ∧
    ¬Determined sampleEnv sampleState runMessage := by
  have none_ : occurrences runMessage "ms".toList = [] := by decide
  have untimed : Untimed sampleEnv runMessage := ⟨⟨"run".toList,by decide,by decide⟩,none_⟩
  have zero : edbgClientMsg sampleEnv ⟨0,0⟩ sampleState runMessage = some sampleState.released := by
    rw [messageIs, obeyedUntimed untimed]
    rfl
  have one : ∃ after, edbgClientMsg sampleEnv ⟨1,0⟩ sampleState runMessage = some after ∧ after.breakpointEvt = some 1 := by
    rw [messageIs, obeyedUntimed untimed]
    exact ⟨_,rfl,rfl⟩
  refine ⟨by decide,none_,⟨_,zero,rfl⟩,one,fun same => ?_⟩
  obtain ⟨after,is,evt⟩ := one
  rw [same ⟨1,0⟩ ⟨0,0⟩, zero] at is
  cases is
  cases evt

end LibProc.DebuggerCommands
