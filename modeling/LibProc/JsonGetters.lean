import LibProc.JsonFlat
import LibProc.ParseCmd

/-! The lookups of json.c, and the debugger of events.c that uses them. A lookup goes over the whole
text and keeps the value of the last property of its name. -/
namespace LibProc.Json
open Config (Text nul cstr strcaseEq)
open ParseCmd (isspace)

def ParserResult.code : ParserResult → Int
  | .good => 0
  | .noRootObj => 1
  | .strayObj => 2
  | .unknownErr => 3
  | .strayEndObj => 4
  | .strayQuote => 5
  | .strayColin => 6

def matching (prop : Text) (call : Call) : Bool := cstr call.key 0 = cstr prop 0

def digitOf (c : Char) : Nat :=
  if '0' ≤ c ∧ c ≤ '9' then c.toNat - '0'.toNat
  else if 'a' ≤ c ∧ c ≤ 'z' then c.toNat - 'a'.toNat + 10
  else if 'A' ≤ c ∧ c ≤ 'Z' then c.toNat - 'A'.toNat + 10
  else 36

def baseOf (base : Nat) (text : Text) : Nat × Text :=
  if base ≠ 0 then (base,text)
  else match text with
  | '0' :: x :: digit :: rest =>
    if (x = 'x' ∨ x = 'X') ∧ digitOf digit < 16 then (16,digit :: rest) else (8,text)
  | '0' :: _ => (8,text)
  | _ => (10,text)

def strtoll (base : Nat) (text : Text) : Int :=
  let text := text.dropWhile isspace
  let (negative,text) := match text with
    | '-' :: rest => (true,rest)
    | '+' :: rest => (false,rest)
    | _ => (false,text)
  let (base,digits) := baseOf base text
  let number := (digits.takeWhile fun c => digitOf c < base).foldl (fun n c => n * base + digitOf c) 0
  max (-2 ^ 63) (min (2 ^ 63 - 1) (if negative = true then -number else number))

def intOf (val : Text) : Int := (BitVec.ofInt 32 (strtoll 10 (cstr val 0))).toInt

def ptrOf (val : Text) : BitVec 64 := BitVec.ofInt 64 (strtoll 0 (cstr val 0))

structure JStrItr where
  val : Option Text
  duplicates : Nat
  deriving DecidableEq, Repr

def jsonStrItrCb (memory : Nat → Bool) (prop : Text) (params : JStrItr) (call : Call) : JStrItr :=
  if matching prop call = true then
    ⟨if memory params.duplicates = true then some (cstr call.val 0) else none,params.duplicates + 1⟩
  else params

structure JFoundItr (α : Type) where
  val : α
  found : Bool

def jsonFoundItrCb {α : Type} (convert : Text → α) (prop : Text) (params : JFoundItr α) (call : Call) : JFoundItr α :=
  if matching prop call = true then ⟨convert call.val,true⟩ else params

/- What a lookup returns, and `*out` behind it. `none` around it is a crash. -/
def jsonGetStringProp (memory : Nat → Bool) (json prop : Option Text) (out : Option (Option Text)) :
    Option (Int × Option (Option Text)) :=
  match json,prop,out with
  | some json,some prop,some _ => do
    let (err,calls) ← jsonIterateProps json
    let params := calls.foldl (jsonStrItrCb memory prop) ⟨none,0⟩
    if err ≠ .good then some (-err.code,out) else some (0,some params.val)
  | _,_,_ => some (-1,out)

def jsonGetFoundProp {α : Type} (convert : Text → α) (zero : α) (json prop : Option Text) (out : Option α) : Option (Int × Option α) :=
  match json,prop,out with
  | some json,some prop,some _ => do
    let (err,calls) ← jsonIterateProps json
    let params := calls.foldl (jsonFoundItrCb convert prop) ⟨zero,false⟩
    if err ≠ .good then some (-err.code,out)
    else if params.found = false then some (-2,out)
    else some (0,some params.val)
  | _,_,_ => some (-1,out)

def jsonGetIntProp : Option Text → Option Text → Option Int → Option (Int × Option Int) := jsonGetFoundProp intOf 0

def jsonGetPtrProp : Option Text → Option Text → Option (BitVec 64) → Option (Int × Option (BitVec 64)) := jsonGetFoundProp ptrOf 0

/- The properties of a text by that name, as they are handed to a callback: the key in its buffer is the name. -/
def occurrences (json prop : Text) : List Call :=
  match jsonIterateProps json with
  | some (.good,calls) => calls.filter (matching prop)
  | _ => []

def Parses (json : Text) : Prop := ∃ calls, jsonIterateProps json = some (.good,calls)

structure Reports {α : Type} (value : Text → α) (json prop : Text) (before : α) (res : Int) (after : α) : Prop where
  zero : res = 0 ↔ Parses json ∧ occurrences json prop ≠ []
  last : ∀ call, (occurrences json prop).getLast? = some call → after = value call.val
  absent : res ≠ 0 → res < 0 ∧ after = before

def StringReports (memory : Nat → Bool) (json prop : Text) (before : Option Text) : Prop :=
  ∃ res after, jsonGetStringProp memory (some json) (some prop) (some before) = some (res,some after) ∧
    Reports (fun val => some (cstr val 0)) json prop before res after

def FoundReports {α : Type} (convert : Text → α) (zero : α) (json prop : Text) (before : α) : Prop :=
  ∃ res after, jsonGetFoundProp convert zero (some json) (some prop) (some before) = some (res,some after) ∧
    Reports convert json prop before res after

def Gets (memory : Nat → Bool) (json prop : Text) : Prop :=
  Parses json → occurrences json prop ≠ [] ∧ memory ((occurrences json prop).length - 1) = true

section
variable {json prop : Text} {memory : Nat → Bool}

theorem strFold (memory : Nat → Bool) (prop : Text) (calls : List Call) :
    calls.foldl (jsonStrItrCb memory prop) ⟨none,0⟩ =
      ⟨(calls.filter (matching prop)).getLast?.bind fun call =>
        if memory ((calls.filter (matching prop)).length - 1) = true then some (cstr call.val 0) else none,
      (calls.filter (matching prop)).length⟩ := by
  induction calls using List.reverseRecOn with
  | nil => rfl
  | append_singleton calls call ih =>
    rw [List.foldl_append, ih, List.foldl_cons, List.foldl_nil, jsonStrItrCb, List.filter_append]
    cases same : matching prop call with
    | true => simp [same]
    | false => simp [same]

theorem foundFold {α : Type} (convert : Text → α) (zero : α) (prop : Text) (calls : List Call) :
    calls.foldl (jsonFoundItrCb convert prop) ⟨zero,false⟩ = match (calls.filter (matching prop)).getLast? with
      | none => ⟨zero,false⟩
      | some call => ⟨convert call.val,true⟩ := by
  induction calls using List.reverseRecOn with
  | nil => rfl
  | append_singleton calls call ih =>
    rw [List.foldl_append, ih, List.foldl_cons, List.foldl_nil, jsonFoundItrCb, List.filter_append]
    cases same : matching prop call with
    | true => simp [same]
    | false => simp [same]

theorem codePositive {err : ParserResult} (bad : err ≠ .good) : 0 < err.code := by
  cases err <;> first | exact absurd rfl bad | decide

theorem lastOccurs {call : Call} (last : (occurrences json prop).getLast? = some call) : occurrences json prop ≠ [] :=
  List.getLast?_isSome.mp (last ▸ rfl)

theorem textCases (json prop : Text) :
    (∃ err calls, jsonIterateProps json = some (err,calls) ∧ err ≠ .good ∧ ¬Parses json ∧ occurrences json prop = []) ∨
      ∃ calls, jsonIterateProps json = some (.good,calls) ∧ Parses json ∧ occurrences json prop = calls.filter (matching prop) := by
  obtain ⟨err,calls,is⟩ := iterateReturns json
  by_cases good : err = .good
  · subst good
    exact .inr ⟨calls,is,⟨calls,is⟩,by rw [occurrences, is]⟩
  · refine .inl ⟨err,calls,is,good,?_,?_⟩
    · rintro ⟨calls',same⟩
      rw [is] at same
      cases same
      exact good rfl
    · rw [occurrences, is]
      cases err <;> first | rfl | exact absurd rfl good

theorem occurParses (occur : occurrences json prop ≠ []) : Parses json := by
  rcases textCases json prop with ⟨-,-,-,-,-,none_⟩ | ⟨-,-,parsed,-⟩
  · exact absurd none_ occur
  · exact parsed

theorem foundIs {α : Type} (convert : Text → α) (zero : α) (json prop : Text) :
    ∃ res : Int, res ≤ 0 ∧ (res = 0 ↔ occurrences json prop ≠ []) ∧ ∀ before,
      jsonGetFoundProp convert zero (some json) (some prop) (some before) =
        some (res,some (((occurrences json prop).getLast?.map fun call => convert call.val).getD before)) := by
  unfold jsonGetFoundProp
  rcases textCases json prop with ⟨err,calls,is,bad,-,none_⟩ | ⟨calls,is,-,all⟩
  · have positive := codePositive bad
    refine ⟨-err.code,by omega,iff_of_false (by omega) fun there => there none_,fun before => ?_⟩
    simp only [is,Option.bind_eq_bind,Option.bind_some,if_pos bad,none_]
    rfl
  · simp only [is,Option.bind_eq_bind,Option.bind_some,if_neg (not_not.mpr rfl : ¬ParserResult.good ≠ .good),foundFold,← all]
    cases last : (occurrences json prop).getLast? with
    | none =>
      have empty : occurrences json prop = [] := List.getLast?_eq_none_iff.mp last
      exact ⟨-2,by decide,iff_of_false (by decide) fun there => there empty,fun before => rfl⟩
    | some call => exact ⟨0,le_rfl,iff_of_true rfl (lastOccurs last),fun before => rfl⟩

theorem foundReports {α : Type} (convert : Text → α) (zero : α) (json prop : Text) (before : α) :
    FoundReports convert zero json prop before := by
  obtain ⟨res,negative,found,returns⟩ := foundIs convert zero json prop
  refine ⟨res,_,returns before,found.trans ⟨fun occur => ⟨occurParses occur,occur⟩,fun both => both.2⟩,fun call last => ?_,fun absent => ?_⟩
  · rw [last]
    rfl
  · have empty : occurrences json prop = [] := not_not.mp fun occur => absent (found.mpr occur)
    rw [empty]
    exact ⟨by omega,rfl⟩

def copyOf (memory : Nat → Bool) (json prop : Text) : Option Text :=
  (occurrences json prop).getLast?.bind fun call =>
    if memory ((occurrences json prop).length - 1) = true then some (cstr call.val 0) else none

theorem stringUnparsed (memory : Nat → Bool) (prop : Text) (before : Option Text) (unparsed : ¬Parses json) :
    ∃ res < 0, jsonGetStringProp memory (some json) (some prop) (some before) = some (res,some before) := by
  rcases textCases json prop with ⟨err,calls,is,bad,-,-⟩ | ⟨-,-,parsed,-⟩
  · have positive := codePositive bad
    refine ⟨-err.code,by omega,?_⟩
    simp only [jsonGetStringProp,is,Option.bind_eq_bind,Option.bind_some,if_pos bad]
  · exact absurd parsed unparsed

theorem stringParsed (memory : Nat → Bool) (prop : Text) (before : Option Text) (parsed : Parses json) :
    jsonGetStringProp memory (some json) (some prop) (some before) = some (0,some (copyOf memory json prop)) := by
  rcases textCases json prop with ⟨-,-,-,-,unparsed,-⟩ | ⟨calls,is,-,all⟩
  · exact absurd parsed unparsed
  · simp only [jsonGetStringProp,is,Option.bind_eq_bind,Option.bind_some,if_neg (not_not.mpr rfl : ¬ParserResult.good ≠ .good)]
    rw [strFold, ← all]
    rfl

theorem copyIff (memory : Nat → Bool) (parsed : Parses json) :
    Gets memory json prop ↔ ∃ call, (occurrences json prop).getLast? = some call ∧ copyOf memory json prop = some (cstr call.val 0) := by
  unfold Gets copyOf
  cases last : (occurrences json prop).getLast? with
  | none =>
    have empty : occurrences json prop = [] := List.getLast?_eq_none_iff.mp last
    exact iff_of_false (fun gets => absurd empty (gets parsed).1) fun ⟨_,there,_⟩ => nomatch there
  | some call =>
    rw [Option.bind_some]
    by_cases copied : memory ((occurrences json prop).length - 1) = true
    · rw [if_pos copied]
      exact iff_of_true (fun _ => ⟨lastOccurs last,copied⟩) ⟨call,rfl,rfl⟩
    · rw [if_neg copied]
      exact iff_of_false (fun gets => absurd (gets parsed).2 copied) fun ⟨_,_,there⟩ => nomatch there

theorem copySource {cmd : Text} (copied : copyOf memory json prop = some cmd) :
    ∃ call, (occurrences json prop).getLast? = some call ∧ cmd = cstr call.val 0 := by
  obtain ⟨call,last,is⟩ := Option.bind_eq_some_iff.mp copied
  split at is
  · cases is
    exact ⟨call,last,rfl⟩
  · cases is

theorem stringReportsIff (memory : Nat → Bool) (json prop : Text) (before : Option Text) :
    StringReports memory json prop before ↔ Gets memory json prop := by
  by_cases parsed : Parses json
  · have returns := stringParsed memory prop before parsed
    rw [copyIff memory parsed]
    constructor
    · rintro ⟨res,after,returns',reports⟩
      rw [returns] at returns'
      cases returns'
      obtain ⟨call,last⟩ := List.getLast?_isSome.mpr (reports.zero.mp rfl).2 |> Option.isSome_iff_exists.mp
      exact ⟨call,last,reports.last call last⟩
    · rintro ⟨call,last,copied⟩
      refine ⟨0,_,returns,iff_of_true rfl ⟨parsed,lastOccurs last⟩,fun other there => ?_,fun nonzero => absurd rfl nonzero⟩
      rw [last] at there
      cases there
      exact copied
  · obtain ⟨res,negative,returns⟩ := stringUnparsed memory prop before parsed
    refine iff_of_true ⟨res,before,returns,⟨by omega,fun both => absurd both.1 parsed⟩,fun call last => ?_,fun _ => ⟨negative,rfl⟩⟩
      fun parses => absurd parses parsed
    exact absurd (occurParses (lastOccurs last)) parsed

end

inductive Wanted where
  | id (id : BitVec 64)
  | function (name : Text)
  | nothing
  deriving DecidableEq, Repr

inductive Command where
  | run (ms : Int)
  | stop
  | next (steps : Option Int)
  | startDumpingEveryLoop
  | stopDumpingEveryLoop
  | dumpNow
  | periodicDump (ms : Int)
  | fdBreakpoint (paused : Bool) (fd : Int)
  | timedBreakpoint (set : Bool) (wanted : Wanted)
  | unknown (cmd : Text)
  deriving DecidableEq, Repr

inductive Handled where
  | rejected
  | crashed
  | handled (command : Command)
  deriving DecidableEq, Repr

def intProp (data : Text) (prop : String) (steps : Int) : Option Int := do
  let (_,steps) ← jsonGetIntProp (some data) (some prop.toList) (some steps)
  steps

def wantedOf (memory : Nat → Bool) (id : BitVec 64) (data : Text) : Option Wanted := do
  let (res,id) ← jsonGetPtrProp (some data) (some "id".toList) (some id)
  if 0 ≤ res then some (.id (← id))
  else
    let (res,func) ← jsonGetStringProp memory (some data) (some "function".toList) (some none)
    if 0 ≤ res then some (match func.join with
      | some name => .function name
      | none => .nothing)
    else some .nothing

/- `steps` and `id` are what the variables of the function hold before anything is stored in them. -/
def commandOf (memory : Nat → Bool) (steps : Int) (id : BitVec 64) (data cmd : Text) : Option Command :=
  let is := fun name : String => strcaseEq cmd name.toList = true
  if is "run" then (intProp data "ms" steps).map .run
  else if is "stop" then some .stop
  else if is "next" then do
    let (res,steps) ← jsonGetIntProp (some data) (some "steps".toList) (some steps)
    some (.next (if 0 ≤ res then steps else none))
  else if is "start_dumping_every_loop" then some .startDumpingEveryLoop
  else if is "stop_dumping_every_loop" then some .stopDumpingEveryLoop
  else if is "dump_now" then some .dumpNow
  else if is "periodic_dump" then (intProp data "ms" 0).map .periodicDump
  else if is "set_fd_breakpoint" ∨ is "clear_fd_breakpoint" then
    (intProp data "fd" 0).map (.fdBreakpoint (decide (is "set_fd_breakpoint")))
  else if is "set_timed_breakpoint" ∨ is "clear_timed_breakpoint" then
    (wantedOf memory id data).map (.timedBreakpoint (decide (is "set_timed_breakpoint")))
  else some (.unknown cmd)

def commandName : Text := "command".toList

def edbgClientMsg (memory later : Nat → Bool) (steps : Int) (id : BitVec 64) (data : Text) : Option Handled := do
  let (res,cmd) ← jsonGetStringProp memory (some data) (some commandName) (some none)
  if res < 0 then some .rejected
  else match cmd.join with
  | none => some .crashed
  | some cmd => (commandOf later steps id data cmd).map .handled

def Guards (memory later : Nat → Bool) (steps : Int) (id : BitVec 64) (data : Text) : Prop :=
  ∃ handled, edbgClientMsg memory later steps id data = some handled ∧ handled ≠ .crashed ∧
    (handled = .rejected ↔ ¬(Parses data ∧ occurrences data commandName ≠ []))

section
variable {memory later : Nat → Bool} {data : Text}

theorem intPropReturns (data : Text) (prop : String) (steps : Int) : ∃ value, intProp data prop steps = some value := by
  obtain ⟨res,after,returns,-⟩ := foundReports intOf 0 data prop.toList steps
  exact ⟨after,by rw [intProp, jsonGetIntProp, returns]; rfl⟩

theorem wantedReturns (memory : Nat → Bool) (id : BitVec 64) (data : Text) : ∃ wanted, wantedOf memory id data = some wanted := by
  obtain ⟨res,id,returns,-⟩ := foundReports ptrOf 0 data "id".toList id
  obtain ⟨res',func,returns'⟩ : ∃ res func,
      jsonGetStringProp memory (some data) (some "function".toList) (some none) = some (res,some func) := by
    by_cases parsed : Parses data
    · exact ⟨0,_,stringParsed memory _ none parsed⟩
    · obtain ⟨res,-,is⟩ := stringUnparsed memory "function".toList none parsed
      exact ⟨res,none,is⟩
  rw [wantedOf, jsonGetPtrProp, returns, returns']
  simp only [Option.bind_eq_bind,Option.bind_some]
  split
  · exact ⟨_,rfl⟩
  split <;> exact ⟨_,rfl⟩

theorem commandReturns (memory : Nat → Bool) (steps : Int) (id : BitVec 64) (data cmd : Text) :
    ∃ command, commandOf memory steps id data cmd = some command := by
  obtain ⟨ms,run⟩ := intPropReturns data "ms" steps
  obtain ⟨period,dump⟩ := intPropReturns data "ms" 0
  obtain ⟨fd,breakpoint⟩ := intPropReturns data "fd" 0
  obtain ⟨wanted,timed⟩ := wantedReturns memory id data
  obtain ⟨res,steps',next,-⟩ := foundReports intOf 0 data "steps".toList steps
  unfold commandOf
  rw [run, dump, breakpoint, timed, jsonGetIntProp, next]
  dsimp only
  repeat' split
  all_goals exact ⟨_,rfl⟩

theorem guardsIff (memory later : Nat → Bool) (steps : Int) (id : BitVec 64) (data : Text) :
    Guards memory later steps id data ↔ Gets memory data commandName := by
  unfold Guards edbgClientMsg
  by_cases parsed : Parses data
  · rw [stringParsed memory commandName none parsed, copyIff memory parsed]
    simp only [Option.bind_eq_bind,Option.bind_some,Option.join_some,if_neg (Int.lt_irrefl 0)]
    cases copied : copyOf memory data commandName with
    | none =>
      refine iff_of_false ?_ fun ⟨_,_,there⟩ => nomatch there
      rintro ⟨handled,returns,fine,-⟩
      cases returns
      exact fine rfl
    | some cmd =>
      obtain ⟨command,returns⟩ := commandReturns later steps id data cmd
      obtain ⟨call,last,is⟩ := copySource copied
      refine iff_of_true ⟨.handled command,?_,nofun,iff_of_false nofun fun absent => absent ⟨parsed,lastOccurs last⟩⟩
        ⟨call,last,congrArg some is⟩
      dsimp only
      rw [returns]
      rfl
  · obtain ⟨res,negative,returns⟩ := stringUnparsed memory commandName none parsed
    rw [returns]
    simp only [Option.bind_eq_bind,Option.bind_some,if_pos negative]
    exact iff_of_true ⟨.rejected,rfl,nofun,iff_of_true rfl fun both => parsed both.1⟩ fun parses => absurd parses parsed

end

/- The lookup of a string is right just when there is nothing parsed or something to copy; the other two
always are. -/
theorem gettersReportIff (memory later : Nat → Bool) (steps : Int) (id : BitVec 64) (json prop : Text) (text : Option Text)
    (number : Int) (pointer : BitVec 64) :
    (StringReports memory json prop text ↔ Gets memory json prop) ∧ FoundReports intOf 0 json prop number ∧
      FoundReports ptrOf 0 json prop pointer ∧ (Guards memory later steps id json ↔ Gets memory json commandName) :=
  ⟨stringReportsIff memory json prop text,foundReports intOf 0 json prop number,foundReports ptrOf 0 json prop pointer,
    guardsIff memory later steps id json⟩

theorem flatOccurrences (before inner after : Spaces) (members : List Member) {prop : Text} (name : nul ∉ prop)
    (clean : ∀ member ∈ members, nul ∉ member.key) : occurrences (objectWritten before inner after members) prop =
      (members.filter fun member => member.key = prop).map fun member => member.call := by
  have own : cstr prop 0 = prop := by
    rw [cstr, List.drop_zero, List.takeWhile_eq_self_iff]
    exact Config.nulClean name
  have same : ∀ member ∈ members, matching prop member.call = decide (member.key = prop) := by
    intro member inside
    rw [matching, own, show member.call.key = member.key ++ nul :: [] from rfl, Config.cstrTerminated _ _ (clean member inside)]
  rw [occurrences, flatParsed]
  change (members.map fun member => member.call).filter (matching prop) = _
  rw [List.filter_map]
  exact congrArg _ (List.filter_congr same)

def emptyObject : Text := [openBrace,closeBrace]

/- An object without a command: 0, with NULL for the command, which is then compared. -/
theorem emptyMessage :
    jsonGetStringProp (fun _ => true) (some emptyObject) (some commandName) (some (some ['x'])) = some (0,some none) ∧
      jsonGetIntProp (some emptyObject) (some commandName) (some 7) = some (-2,some 7) ∧
      edbgClientMsg (fun _ => true) (fun _ => true) 0 0 emptyObject = some .crashed ∧
      ¬StringReports (fun _ => true) emptyObject commandName (some ['x']) ∧ ¬Guards (fun _ => true) (fun _ => true) 0 0 emptyObject := by
  have parsed : jsonIterateProps emptyObject = some (.good,[]) := by decide
  have none_ : occurrences emptyObject commandName = [] := by rw [occurrences, parsed]; rfl
  have fails : ¬Gets (fun _ => true) emptyObject commandName := fun gets => (gets ⟨[],parsed⟩).1 none_
  have copy : copyOf (fun _ => true) emptyObject commandName = none := by rw [copyOf, none_]; rfl
  have returns : ∀ before, jsonGetStringProp (fun _ => true) (some emptyObject) (some commandName) (some before) = some (0,some none) :=
    fun before => by rw [stringParsed _ _ before ⟨[],parsed⟩, copy]
  refine ⟨returns _,?_,?_,fun reports => fails ((stringReportsIff _ _ _ _).mp reports),fun guards => fails ((guardsIff _ _ _ _ _).mp guards)⟩
  · simp only [jsonGetIntProp,jsonGetFoundProp,parsed]
    rfl
  · rw [edbgClientMsg, returns]
    rfl

end LibProc.Json
