import LibProc.DataQuery
import LibProc.KeyValues

/-! A command given on a command line. Flags choose the command, the machine and the style of the output; the
texts behind them are the fields of its parameter. -/
namespace LibProc.CommandLine
open Config (Text nul strcaseEq)
open KeyValues
open XdrBytes Xdr Ipc
open DataRequest (typesDatareq)
open DataQuery (cmdsDataReq typesVal PrintStyle)

structure Parameter where
  definition : StructDefinition
  fields : List Field
  listed : definition.fields = fieldList fields
  allocators : Bool

structure Command where
  command : BitVec 32
  params : BitVec 32
  types : Option (List (BitVec 32))
  parameter : Option Parameter

structure Multicall where
  name : Option Text
  func : Nat

/- The program: its commands, by name and by number, and the address and port a command goes to. A host is
resolved by inet_aton and gethostbyname. -/
structure Tool where
  generated : Generated
  commandByName : Text → Option Command
  commandByNumber : BitVec 32 → Option Command
  multicalls : List Multicall
  resolveHost : Text → Option (BitVec 32)
  loopback : BitVec 32
  port : BitVec 16

structure Memory where
  parameter : Bool
  scanner : Nat → Bool

def localhost : Text := ['1','2','7','.','0','.','0','.','1']

structure Options where
  host : Text
  mcCommand : Option Multicall
  command : Option Command
  style : PrintStyle

structure Message where
  command : BitVec 32
  type : BitVec 32
  params : Val
  dest : Address
  style : PrintStyle

inductive Result where
  | usage
  | multicallHelp
  | help (returned : Int)
  | multicall (func : Nat) (execName : Text) (args : List Text) (host : Text)
  | failed (returned : Int)
  | crash
  | send (message : Message)

section Source
variable (t : Tool)

def cmdMcCmdByName (name : Text) : Option Multicall := t.multicalls.find? fun curr => curr.name.any (strcaseEq · name)

def execNameOf (argv0 : Text) : Text := (argv0.reverse.takeWhile (· ≠ '/')).reverse

def cmdXdrCmdHelp (c : Command) : Int :=
  match c.parameter with
  | some p => if p.definition.coder ≠ .struct then -1 else 2
  | none => 2

def styleOf (name : Text) : Option PrintStyle :=
  if strcaseEq name ['h','u','m','a','n'] = true then some .human
  else if strcaseEq name ['k','v','p'] = true then some .kvp
  else if strcaseEq name ['c','s','v'] = true then some .csvData
  else none

def numberOf (text : Text) : BitVec 32 := BitVec.ofInt 32 (Json.strtoll 0 text)

/- A flag that is no other asks for help, as does one of them without its argument for the usage. -/
def otherFlag (arg : Text) (o : Options) : Result :=
  if arg.getD 1 nul ∈ ['c','h','n','f'] then .usage
  else match o.mcCommand,o.command with
    | some _,_ => .multicallHelp
    | none,some c => .help (cmdXdrCmdHelp c)
    | none,none => .usage

/- The loop over the flags: a first character of `-`, and for the flags that take an argument nothing behind
the letter. -/
def readFlags : List Text → Options → Except Result (Options × List Text)
  | [],o => .ok (o,[])
  | arg :: rest,o =>
    if arg.head? = some '-' then
      match arg,rest with
      | ['-','c'],name :: rest => readFlags rest {o with command := t.commandByName name, mcCommand := cmdMcCmdByName t name}
      | ['-','h'],host :: rest => readFlags rest {o with host := host}
      | ['-','n'],number :: rest => readFlags rest {o with command := t.commandByNumber (numberOf number)}
      | ['-','f'],name :: rest => match styleOf name with
        | some style => readFlags rest {o with style := style}
        | none => .error .usage
      | arg,_ => .error (otherFlag arg o)
    else .ok (o,arg :: rest)

def fill (memory : Memory) (c : Command) (args : List Text) : Except Result (BitVec 32 × BitVec 32 × Val) :=
  match c.parameter,c.types with
  | some p,types =>
    if c.params ≠ typesDatareq ∨ types = none then
      if p.definition.coder ≠ .struct ∨ p.allocators = false then .error (.failed (-2))
      else if p.definition.inMemorySize = 0 ∨ memory.parameter = false then .error (.failed (-3))
      else match assignAll t.generated memory.scanner p.fields args 0 (zerosOf p.definition.fields) with
        | .error .help => .error (.help (cmdXdrCmdHelp c))
        | .error .crash => .error .crash
        | .ok cells => .ok (c.command,if args = [] then 0 else c.params,.struct cells)
    else if types = some [] then .ok (c.command,0,.null)
    else .ok (cmdsDataReq,typesDatareq,typesVal (types.getD []))
  | none,some types =>
    if c.params = typesDatareq ∧ types ≠ [] then .ok (cmdsDataReq,typesDatareq,typesVal types) else .ok (c.command,0,.null)
  | none,none => .ok (c.command,0,.null)

def sendCommand (memory : Memory) (c : Command) (host : Text) (style : PrintStyle) (args : List Text) : Result :=
  match t.resolveHost host with
  | none => .failed (-1)
  | some addr => match fill t memory c args with
    | .error result => result
    | .ok (command,type,params) =>
      if command = 0 then .failed (-3)
      else .send ⟨command,type,params,⟨t.port,if addr = 0 then t.loopback else addr⟩,style⟩

def cmdSendCommandLineCommand (memory : Memory) (argv0 : Text) (args : List Text) : Result :=
  let execName := execNameOf argv0
  match readFlags t args ⟨localhost,cmdMcCmdByName t execName,t.commandByName execName,.human⟩ with
  | .error result => result
  | .ok (o,args) => match o.mcCommand,o.command with
    | some mc,_ => .multicall mc.func execName args o.host
    | none,some c => sendCommand t memory c o.host o.style args
    | none,none => .usage

end Source

def lastOf {α β : Type} (pick : α → Option β) (start : β) (l : List α) : β := (l.filterMap pick).getLast?.getD start

inductive Flag where
  | command (name : Text)
  | host (name : Text)
  | number (text : Text)
  | style (name : Text) (style : PrintStyle)

def Flag.words : Flag → List Text
  | .command name => [['-','c'],name]
  | .host name => [['-','h'],name]
  | .number text => [['-','n'],text]
  | .style name _ => [['-','f'],name]

section Choices
variable (t : Tool)

def hostOf : Flag → Option Text
  | .host name => some name
  | _ => none

def multicallOf : Flag → Option (Option Multicall)
  | .command name => some (cmdMcCmdByName t name)
  | _ => none

def commandOf : Flag → Option (Option Command)
  | .command name => some (t.commandByName name)
  | .number text => some (t.commandByNumber (numberOf text))
  | _ => none

def printStyleOf : Flag → Option PrintStyle
  | .style _ style => some style
  | _ => none

def chosen (o : Options) (flags : List Flag) : Options :=
  ⟨lastOf hostOf o.host flags,lastOf (multicallOf t) o.mcCommand flags,lastOf (commandOf t) o.command flags,
    lastOf printStyleOf o.style flags⟩

end Choices

structure Splits (args : List Text) (flags : List Flag) (params : List Text) : Prop where
  words : args = flags.flatMap Flag.words ++ params
  styles : ∀ name style, Flag.style name style ∈ flags → styleOf name = some style
  ends : ∀ first ∈ params.head?, first.head? ≠ some '-'

section Flags
variable {α β : Type} {t : Tool}

theorem lastOfCons (pick : α → Option β) (start : β) (a : α) (l : List α) :
    lastOf pick start (a :: l) = lastOf pick ((pick a).getD start) l := by
  rw [lastOf, lastOf, List.filterMap_cons]
  cases pick a with
  | none => rfl
  | some b =>
    dsimp only
    rw [List.getLast?_cons]
    rfl

def Options.take (t : Tool) (o : Options) (flag : Flag) : Options :=
  ⟨(hostOf flag).getD o.host,(multicallOf t flag).getD o.mcCommand,(commandOf t flag).getD o.command,(printStyleOf flag).getD o.style⟩

theorem chosenCons (o : Options) (flag : Flag) (flags : List Flag) : chosen t o (flag :: flags) = chosen t (o.take t flag) flags := by
  simp only [chosen,lastOfCons,Options.take]

theorem Splits.none {params : List Text} (ends : ∀ first ∈ params.head?, first.head? ≠ some '-') : Splits params [] params :=
  ⟨rfl,(fun _ _ member => nomatch member),ends⟩

theorem Splits.cons {args params : List Text} {flags : List Flag} (splits : Splits args flags params) {flag : Flag}
    (valid : ∀ name style, flag = .style name style → styleOf name = some style) : Splits (flag.words ++ args) (flag :: flags) params where
  words := by rw [splits.words, List.flatMap_cons, List.append_assoc]
  styles name style member := by
    rcases List.mem_cons.mp member with is | later
    · exact valid name style is.symm
    · exact splits.styles name style later
  ends := splits.ends

theorem Splits.tail {args params : List Text} {flags : List Flag} {flag : Flag} (splits : Splits args (flag :: flags) params) :
    ∃ rest, args = flag.words ++ rest ∧ Splits rest flags params :=
  ⟨flags.flatMap Flag.words ++ params,by rw [splits.words, List.flatMap_cons, List.append_assoc],rfl,
    fun name style member => splits.styles name style (List.mem_cons_of_mem _ member),splits.ends⟩

theorem splitsMore {rest params : List Text} {o o' : Options} (flag : Flag)
    (valid : ∀ name style, flag = .style name style → styleOf name = some style)
    (splits : ∃ flags, Splits rest flags params ∧ o' = chosen t (o.take t flag) flags) :
    ∃ flags, Splits (flag.words ++ rest) flags params ∧ o' = chosen t o flags := by
  obtain ⟨flags,splits,rfl⟩ := splits
  exact ⟨flag :: flags,splits.cons valid,(chosenCons o flag flags).symm⟩

theorem readFlag (flag : Flag) (valid : ∀ name style, flag = .style name style → styleOf name = some style) (rest : List Text) (o : Options) :
    readFlags t (flag.words ++ rest) o = readFlags t rest (o.take t flag) := by
  cases flag with
  | style name style =>
    have is := valid name style rfl
    simp only [Flag.words,List.cons_append,List.nil_append,readFlags,List.head?_cons,if_pos,is]
    rfl
  | _ => rfl

theorem readFlagsIff {args params : List Text} {o o' : Options} :
    readFlags t args o = .ok (o',params) ↔ ∃ flags, Splits args flags params ∧ o' = chosen t o flags := by
  constructor
  · intro read
    fun_induction readFlags t args o with
    | case1 o =>
      cases read
      exact ⟨[],.none (fun _ member => nomatch member),rfl⟩
    | case2 o name rest _ ih => exact splitsMore (.command name) (fun _ _ same => nomatch same) (ih read)
    | case3 o host rest _ ih => exact splitsMore (.host host) (fun _ _ same => nomatch same) (ih read)
    | case4 o number rest _ ih => exact splitsMore (.number number) (fun _ _ same => nomatch same) (ih read)
    | case5 o name rest style found _ ih =>
      refine splitsMore (.style name style) ?_ (ih read)
      rintro _ _ ⟨⟩
      exact found
    | case6 => cases read
    | case7 => cases read
    | case8 arg rest o plain =>
      cases read
      refine ⟨[],.none ?_,rfl⟩
      rintro _ ⟨⟩
      exact plain
  · rintro ⟨flags,splits,rfl⟩
    induction flags generalizing args o with
    | nil =>
      obtain ⟨rfl,-,ends⟩ := splits
      cases args with
      | nil => rfl
      | cons first rest =>
        rw [readFlags.eq_def]
        exact if_neg (ends first rfl)
    | cons flag flags ih =>
      have valid : ∀ name style, flag = .style name style → styleOf name = some style := by
        rintro name style rfl
        exact splits.styles name style List.mem_cons_self
      obtain ⟨rest,rfl,later⟩ := splits.tail
      rw [readFlag flag valid, chosenCons]
      exact ih later

end Flags

/- The value that a text gives to the field at `i`: that is the first one of its key. -/
def valueFor (g : Generated) (fields : List Field) (i : Nat) (arg : Text) : Option Text :=
  match arg.dropWhile (· ≠ '='),findField g (arg.takeWhile (· ≠ '=')) fields 0 with
  | _ :: value,some (j,_) => if j = i then some value else none
  | _,_ => none

def integerOf : TypeFunctions → Option Scalar
  | .scalar .int32 | .int32Bitfield => some .int32
  | .scalar .uint32 | .uint32Bitfield => some .uint32
  | .scalar .int64 => some .int64
  | .scalar .uint64 => some .uint64
  | _ => none

def readInteger : Scalar → Text → Option Val
  | .int32,text | .uint32,text => (numeral 0 text).map fun number => .word (BitVec.ofInt 32 (signedOf number))
  | .int64,text => (numeral 10 text).map fun number => .dword (BitVec.ofInt 64 (signedOf number))
  | .uint64,text => (numeral 10 text).map fun number => .dword (unsignedOf number)
  | .float,_ | .double,_ => none

def counted : TypeFunctions → Bool
  | .array _ | .byteArr => true
  | _ => false

section Assigning
variable {g : Generated} {fields : List Field} {cells cells' : List Val} {i : Nat} {f : Field} {memory : Bool} {arg text : Text}

theorem storeWrites {v : Val} (stored : store cells i v = some cells') : i < cells.length ∧ cells' = cells.set i v := by
  rw [store] at stored
  split at stored
  · next inside =>
    cases stored
    exact ⟨inside,rfl⟩
  · cases stored

theorem countedWrites {len : Int} {v : Val} (stored : storeCounted cells f i len v = some cells') :
    ∃ w, cells' = (cells.set f.lenOffset w).set i v := by
  obtain ⟨cells'',first,second⟩ := Option.bind_eq_some_iff.mp stored
  obtain ⟨-,rfl⟩ := storeWrites first
  exact ⟨_,(storeWrites second).2⟩

theorem scanFieldWrites (scanned : scanField g memory f text cells i = some cells') :
    (∃ v, cells' = cells.set i v) ∨ cells' = cells ∨ counted f.funcs = true ∧ ∃ w v, cells' = (cells.set f.lenOffset w).set i v := by
  obtain ⟨v,-,scanned⟩ := Option.bind_eq_some_iff.mp scanned
  split at scanned
  · exact .inl ⟨_,(storeWrites scanned).2⟩
  · exact .inl ⟨_,(storeWrites scanned).2⟩
  · exact .inl ⟨_,(storeWrites scanned).2⟩
  · obtain ⟨v,-,stored⟩ := Option.bind_eq_some_iff.mp scanned
    exact .inl ⟨v,(storeWrites stored).2⟩
  · obtain ⟨v,-,stored⟩ := Option.bind_eq_some_iff.mp scanned
    exact .inl ⟨v,(storeWrites stored).2⟩
  · next funcs =>
    obtain ⟨⟨len,s⟩,-,stored⟩ := Option.bind_eq_some_iff.mp scanned
    obtain ⟨w,is⟩ := countedWrites stored
    exact .inr (.inr ⟨by rw [funcs]; rfl,w,_,is⟩)
  · next funcs =>
    split at scanned
    · obtain ⟨w,is⟩ := countedWrites scanned
      exact .inr (.inr ⟨by rw [funcs]; rfl,w,_,is⟩)
    · cases scanned
      exact .inr (.inl rfl)
    · cases scanned
  · split at scanned
    · exact .inl ⟨_,(storeWrites scanned).2⟩
    · cases scanned
      exact .inr (.inl rfl)
  · split at scanned
    · exact .inl ⟨_,(storeWrites scanned).2⟩
    · cases scanned
      exact .inr (.inl rfl)
  · cases scanned
  · cases scanned
    exact .inr (.inl rfl)
  · cases scanned
    exact .inr (.inl rfl)

theorem scanFieldKeeps (scanned : scanField g memory f text cells i = some cells') {k : Nat} (other : k ≠ i)
    (apart : counted f.funcs = true → f.lenOffset ≠ k) : cells'[k]? = cells[k]? := by
  rcases scanFieldWrites scanned with ⟨v,rfl⟩ | rfl | ⟨has,w,v,rfl⟩
  · exact List.getElem?_set_ne other.symm
  · rfl
  · rw [List.getElem?_set_ne other.symm, List.getElem?_set_ne (apart has)]

theorem findFieldAt {key : Text} {k : Nat} (found : findField g key fields k = some (i,f)) : k ≤ i ∧ fields[i - k]? = some f := by
  induction fields generalizing k with
  | nil => cases found
  | cons first rest ih =>
    rw [findField] at found
    split at found
    · cases found
      exact ⟨le_rfl,by rw [Nat.sub_self]; rfl⟩
    · obtain ⟨above,there⟩ := ih found
      refine ⟨by omega,?_⟩
      rw [show i - k = (i - (k + 1)) + 1 by omega, List.getElem?_cons_succ]
      exact there

theorem assignTakes (ok : assign g memory fields arg cells = .ok cells') :
    ∃ i f value, fields[i]? = some f ∧ (∀ k, valueFor g fields k arg = if i = k then some value else none) ∧
      scanField g memory f value cells i = some cells' := by
  unfold assign at ok
  split at ok
  · cases ok
  · next value cut =>
    split at ok
    · cases ok
    · next i f found =>
      split at ok
      · cases ok
      · next scanned =>
        cases ok
        refine ⟨i,f,value,(findFieldAt found).2,fun k => ?_,scanned⟩
        rw [valueFor, cut, found]

theorem scanInteger {funcs : TypeFunctions} {s : Scalar} (integer : integerOf funcs = some s) (v : Val) :
    scanScalar g s none text v = (readInteger s text).getD v := by
  have either : s = .int32 ∨ s = .uint32 ∨ s = .int64 ∨ s = .uint64 := by
    unfold integerOf at integer
    split at integer <;> cases integer <;> simp
  rcases either with rfl | rfl | rfl | rfl
  · simp only [scanScalar,readInteger]
    cases numeral 0 text <;> rfl
  · simp only [scanScalar,readInteger]
    cases numeral 0 text <;> rfl
  · simp only [scanScalar,readInteger]
    cases numeral 10 text <;> rfl
  · simp only [scanScalar,readInteger]
    cases numeral 10 text <;> rfl

theorem scanFieldInteger {s : Scalar} (integer : integerOf f.funcs = some s) (unconverted : f.inverseConv = none) {v : Val}
    (was : cells[i]? = some v) (scanned : scanField g memory f text cells i = some cells') :
    cells'[i]? = some ((readInteger s text).getD v) := by
  have stores : scanField g memory f text cells i = store cells i (scanScalar g s none text v) := by
    unfold scanField
    rw [was, unconverted]
    generalize f.funcs = funcs at integer
    unfold integerOf at integer
    split at integer <;> cases integer <;> rfl
  obtain ⟨inside,rfl⟩ := storeWrites (stores.symm.trans scanned)
  rw [List.getElem?_set_self inside, scanInteger integer]

structure Integer (fields : List Field) (i : Nat) (f : Field) (s : Scalar) : Prop where
  here : fields[i]? = some f
  integer : integerOf f.funcs = some s
  unconverted : f.inverseConv = none
  uncounted : ∀ f' ∈ fields, counted f'.funcs = true → f'.lenOffset ≠ i

def numberFor (g : Generated) (fields : List Field) (i : Nat) (s : Scalar) (arg : Text) : Option Val :=
  (valueFor g fields i arg).bind (readInteger s)

theorem Integer.assign {s : Scalar} (whole : Integer fields i f s) {v : Val} (was : cells[i]? = some v)
    (ok : assign g memory fields arg cells = .ok cells') : cells'[i]? = some ((numberFor g fields i s arg).getD v) := by
  obtain ⟨j,f',value,there,gives,scanned⟩ := assignTakes ok
  rw [numberFor, gives]
  by_cases same : j = i
  · subst same
    cases there.symm.trans whole.here
    rw [if_pos rfl]
    exact scanFieldInteger whole.integer whole.unconverted was scanned
  · rw [if_neg same, scanFieldKeeps scanned (Ne.symm same) (whole.uncounted f' (List.mem_of_getElem? there))]
    exact was

theorem assignAllCons {memory : Nat → Bool} {args : List Text} {n : Nat} (ok : assignAll g memory fields (arg :: args) n cells = .ok cells') :
    ∃ next, KeyValues.assign g (memory n) fields arg cells = .ok next ∧ assignAll g memory fields args (n + 1) next = .ok cells' := by
  rw [assignAll] at ok
  cases first : KeyValues.assign g (memory n) fields arg cells with
  | error why =>
    rw [first] at ok
    cases ok
  | ok next =>
    rw [first] at ok
    exact ⟨next,rfl,ok⟩

theorem Integer.assignAll {s : Scalar} (whole : Integer fields i f s) {memory : Nat → Bool} {args : List Text} {n : Nat} {v : Val}
    (was : cells[i]? = some v) (ok : assignAll g memory fields args n cells = .ok cells') :
    cells'[i]? = some (lastOf (numberFor g fields i s) v args) := by
  induction args generalizing cells n v with
  | nil =>
    cases ok
    exact was
  | cons arg args ih =>
    obtain ⟨next,first,rest⟩ := assignAllCons ok
    rw [lastOfCons]
    exact ih (whole.assign was first) rest

theorem assignAllNames {memory : Nat → Bool} {args : List Text} {n : Nat} (ok : assignAll g memory fields args n cells = .ok cells') :
    ∀ arg ∈ args, ∃ i value, i < fields.length ∧ valueFor g fields i arg = some value := by
  induction args generalizing cells n with
  | nil => exact fun _ member => nomatch member
  | cons arg args ih =>
    obtain ⟨next,first,rest⟩ := assignAllCons ok
    refine List.forall_mem_cons.mpr ⟨?_,ih rest⟩
    obtain ⟨i,f,value,there,gives,-⟩ := assignTakes first
    exact ⟨i,value,(List.getElem?_eq_some_iff.mp there).1,by rw [gives, if_pos rfl]⟩

theorem zerosAt (here : fields[i]? = some f) : (zerosOf (fieldList fields))[i]? = some (zeroOf f.funcs) := by
  induction fields generalizing i with
  | nil => cases here
  | cons first rest ih =>
    cases i with
    | zero =>
      cases here
      rfl
    | succ i => exact ih here

end Assigning

/- The cells of a parameter: each text names a field, and a number is the one that was given last. -/
structure Filled (t : Tool) (memory : Memory) (fields : List Field) (args : List Text) (cells : List Val) : Prop where
  scanned : assignAll t.generated memory.scanner fields args 0 (zerosOf (fieldList fields)) = .ok cells
  named : ∀ arg ∈ args, ∃ i value, i < fields.length ∧ valueFor t.generated fields i arg = some value
  numbers : ∀ i f s, Integer fields i f s →
    cells[i]? = some (lastOf (numberFor t.generated fields i s) (zeroOf f.funcs) args)

inductive Asks (t : Tool) (memory : Memory) (c : Command) (args : List Text) : BitVec 32 → BitVec 32 → Val → Prop where
  | parameter {p : Parameter} {cells : List Val} (has : c.parameter = some p) (own : c.params ≠ typesDatareq ∨ c.types = none)
      (coder : p.definition.coder = .struct) (allocators : p.allocators = true) (size : p.definition.inMemorySize ≠ 0)
      (granted : memory.parameter = true) (filled : Filled t memory p.fields args cells) :
      Asks t memory c args c.command (if args = [] then 0 else c.params) (.struct cells)
  | data {types : List (BitVec 32)} (is : c.params = typesDatareq) (list : c.types = some types) (some_ : types ≠ []) :
      Asks t memory c args cmdsDataReq typesDatareq (typesVal types)
  | bare (unset : c.parameter = none ∨ c.params = typesDatareq ∧ c.types ≠ none)
      (nothing : c.params = typesDatareq → c.types.getD [] = []) : Asks t memory c args c.command 0 .null

section Sending
variable {t : Tool} {memory : Memory} {c : Command} {args : List Text}

theorem filledIff {p : Parameter} {cells : List Val} :
    Filled t memory p.fields args cells ↔
      assignAll t.generated memory.scanner p.fields args 0 (zerosOf p.definition.fields) = .ok cells := by
  rw [p.listed]
  refine ⟨Filled.scanned,fun ok => ⟨ok,assignAllNames ok,fun i f s whole => ?_⟩⟩
  exact whole.assignAll (zerosAt whole.here) ok

theorem fillIff {command type : BitVec 32} {params : Val} :
    fill t memory c args = .ok (command,type,params) ↔ Asks t memory c args command type params := by
  obtain ⟨number,kind,types,parameter⟩ := c
  constructor
  · intro filled
    unfold fill at filled
    dsimp only at filled
    split at filled
    · next p types =>
      split at filled
      · next own =>
        split at filled
        · cases filled
        split at filled
        · cases filled
        next plain room =>
        split at filled
        · cases filled
        · cases filled
        · next cells ok =>
          cases filled
          simp only [not_or,not_not,ne_eq,Bool.not_eq_false] at plain room
          exact .parameter rfl own plain.1 plain.2 room.1 room.2 (filledIff.mpr ok)
      · next data =>
        obtain ⟨is,list⟩ := not_or.mp data
        split at filled
        · next none_ =>
          cases filled
          exact .bare (.inr ⟨not_not.mp is,list⟩) fun _ => by dsimp only; rw [none_]; rfl
        · next some_ =>
          cases filled
          obtain ⟨types,rfl⟩ := Option.ne_none_iff_exists'.mp list
          exact .data (not_not.mp is) rfl fun empty => some_ (congrArg some empty)
    · next types =>
      split at filled
      · next data =>
        cases filled
        exact .data data.1 rfl data.2
      · next plain =>
        cases filled
        exact .bare (.inl rfl) fun is => not_not.mp fun some_ => plain ⟨is,some_⟩
    · cases filled
      exact .bare (.inl rfl) fun _ => rfl
  · intro asks
    unfold fill
    cases asks with
    | @parameter p cells has own coder allocators size granted filled =>
      dsimp only at has own ⊢
      rw [has]
      dsimp only
      rw [if_pos own, if_neg (by simp [coder,allocators]), if_neg (by simp [size,granted]), filledIff.mp filled]
    | @data types is list some_ =>
      dsimp only at is list ⊢
      rw [list]
      cases parameter with
      | none => exact if_pos ⟨is,some_⟩
      | some p =>
        dsimp only
        rw [if_neg (by simp [is]), if_neg (by simp [some_])]
        rfl
    | bare unset nothing =>
      dsimp only at unset nothing ⊢
      cases parameter with
      | none =>
        cases types with
        | none => rfl
        | some types => exact if_neg fun both => both.2 (nothing both.1)
      | some p =>
        obtain ⟨is,list⟩ := unset.resolve_left (by simp)
        obtain ⟨types,rfl⟩ := Option.ne_none_iff_exists'.mp list
        have empty : types = [] := nothing is
        dsimp only
        rw [if_neg (by simp [is]), if_pos (by rw [empty])]

theorem fillRefuses {m : Message} : fill t memory c args ≠ .error (.send m) := by
  unfold fill
  grind

theorem sendIff {host : Text} {style : PrintStyle} {m : Message} :
    sendCommand t memory c host style args = .send m ↔ ∃ addr, t.resolveHost host = some addr ∧
      Asks t memory c args m.command m.type m.params ∧ m.command ≠ 0 ∧
      m.dest = ⟨t.port,if addr = 0 then t.loopback else addr⟩ ∧ m.style = style := by
  rw [sendCommand]
  cases t.resolveHost host with
  | none => simp
  | some addr =>
    simp only [Option.some.injEq]
    constructor
    · intro sent
      refine ⟨addr,rfl,?_⟩
      split at sent
      · next result refused =>
        subst sent
        exact absurd refused fillRefuses
      · next command type params filled =>
        split at sent
        · cases sent
        · next sendable =>
          cases sent
          exact ⟨fillIff.mp filled,sendable,rfl,rfl⟩
    · rintro ⟨addr,rfl,asks,sendable,dest,style_⟩
      rw [fillIff.mpr asks]
      dsimp only
      rw [if_neg sendable, ← dest, ← style_]

end Sending

structure Typed (f : Field) (v : Val) : Prop where
  keyed : ∃ key, Keyed f key ∧ key.head? ≠ some '-'
  plain : ∃ s text, f.funcs = .scalar s ∧ Plain (.scalar s) v text v

def numberWire : Val → List Byte
  | .word w => beBytes w
  | .dword d => beBytes64 d
  | _ => []

structure Handled (t : Tool) (name : Text) (c : Command) (p : Parameter) (q : Receives.Process) (handler : Nat) : Prop where
  named : t.commandByName name = some c
  single : cmdMcCmdByName t name = none
  has : c.parameter = some p
  own : c.params ≠ typesDatareq
  coder : p.definition.coder = .struct
  allocators : p.allocators = true
  size : p.definition.inMemorySize ≠ 0
  nonzero : c.command ≠ 0
  small : c.command.toNat < 2 ^ 24
  other : c.command ≠ cmdsResponse
  receives : ∀ path, q.env.alloc path = true
  deep : 1 ≤ q.fuel
  known : q.env.definitionForType c.params = some p.definition
  handles : q.xdrCommand c.command = some (some handler)

section Typing
variable {fields : List Field} {values cells : List Val} {f : Field} {v : Val} {env : Env} {rules : Rules}
  {enter : StructDefinition → Val → List Byte → Prop} {tight : StructDefinition → Val → Prop} {s : Scalar} {text : Text}

theorem Typed.printable (typed : Typed f v) : Printable f v := by
  obtain ⟨key,keyed,-⟩ := typed.keyed
  obtain ⟨s,text,is,plain⟩ := typed.plain
  exact .line keyed (is ▸ plain)

theorem plainInteger (plain : Plain (.scalar s) v text v) : integer s = true := by
  cases plain <;> rfl

theorem plainWire (plain : Plain (.scalar s) v text v) : ScalarWire s v (numberWire v) := by
  cases plain with
  | int32 w => exact .int32 w
  | uint32 w => exact .uint32 w
  | int64 d => exact .int64 d
  | uint64 d => exact .uint64 d

theorem typedWires (typed : List.Forall₂ Typed fields values)
    (field : ∀ s i lenOffset, integer s = true → rules.field (.scalar s) i lenOffset cells) (i : Nat) :
    wiresOf env rules enter cells (fieldList fields) i values (values.flatMap numberWire) := by
  induction typed generalizing i with
  | nil => exact ⟨rfl,rfl⟩
  | @cons f v fields values first _ ih =>
    obtain ⟨s,text,is,plain⟩ := first.plain
    obtain ⟨funcs,lenOffset,structId,key,conv⟩ := f
    dsimp only at is
    subst is
    exact ⟨v,values,_,_,rfl,rfl,field s i lenOffset (plainInteger plain),plainWire plain,ih (i + 1)⟩

theorem typedLoose (typed : List.Forall₂ Typed fields values) (i : Nat) : ¬endOpaque env enter tight cells (fieldList fields) i values := by
  induction typed generalizing i with
  | nil => exact fun ends => ends
  | cons first _ ih =>
    obtain ⟨s,text,is,-⟩ := first.plain
    rw [fieldList, endOpaque, is]
    rintro (later | ⟨here,-⟩)
    · exact ih (i + 1) later
    · exact here

theorem typedOnly (typed : List.Forall₂ Typed fields values) {w : Val} (same : Equal (.struct values) w) : w = .struct values := by
  cases same with
  | refl => rfl
  | @struct _ cells same =>
    congr 1
    induction typed generalizing cells with
    | nil =>
      cases same
      rfl
    | cons first _ ih =>
      cases same with
      | cons head rest =>
        obtain ⟨s,text,-,plain⟩ := first.plain
        rw [ih rest]
        congr 1
        cases plain <;> cases head <;> rfl

theorem typedParameters {c : Command} {p : Parameter} (typed : List.Forall₂ Typed p.fields values) (coder : p.definition.coder = .struct)
    (registered : env.definitionForType c.params = some p.definition) :
    Parameters env 1 c.params (.struct values) (values.flatMap numberWire) p.definition where
  registered := registered
  wire := by
    simp only [objectWire,coder,p.listed]
    exact .inl ⟨values,rfl,typedWires typed (fun _ _ _ whole => whole) 0⟩

theorem Handled.understood {t : Tool} {name : Text} {c : Command} {p : Parameter} {q : Receives.Process} {handler : Nat}
    (handled : Handled t name c p q handler) (typed : List.Forall₂ Typed p.fields values) :
    Delivery.Understood q.env 1 q.fuel c.params (.struct values) (values.flatMap numberWire) p.definition where
  allocates := handled.receives
  deep := handled.deep
  registered := handled.known
  admitted := ⟨handled.size,handled.coder⟩
  wire := by
    have field : ∀ s i lenOffset, integer s = true → plainRules.field (.scalar s) i lenOffset values :=
      fun _ _ _ _ => ⟨rfl,fun has => nomatch has⟩
    simp only [objectWire,handled.coder,p.listed]
    exact .inl ⟨values,rfl,typedWires typed field 0⟩

theorem typedRow {r : Row} (good : r.Good) (typed : Typed r.field r.value) :
    r.cell = r.value ∧ ∃ line, r.line = some line ∧ line.head? ≠ some '-' := by
  obtain ⟨key,keyed,notFlag⟩ := typed.keyed
  obtain ⟨s,text,is,plain⟩ := typed.plain
  obtain ⟨f,v,line,c⟩ := r
  dsimp only at keyed is plain ⊢
  cases good with
  | line keyed' plain' there =>
    have same := Option.some.inj (keyed.named.symm.trans keyed'.named)
    subst same
    refine ⟨?_,_,there,?_⟩
    · dsimp only at plain'
      rw [is] at plain'
      cases plain' <;> rfl
    · cases key with
      | nil => simp
      | cons c rest => exact notFlag
  | silent unseen _ kept =>
    rw [is, keyed.named] at unseen
    rcases unseen with none_ | none_ <;> cases none_

end Typing

/- What is printed of a structure are lines, and a command line with the name of a command and these lines in
any order sends one command, for which the handler of `q` is called with the structure. -/
def ReachesHandler (t : Tool) (memory : Memory) (argv0 name : Text) (c : Command) (p : Parameter) (values : List Val)
    (sender : Env) (fuel : Nat) (heap : Heap) (ipcref : BitVec 32) (q : Receives.Process) (handler : Nat) : Prop :=
  ∃ lines, xdrPrintFieldsFunc t.generated [] p.fields values = some (lines.flatMap fun line => line ++ ['\n']) ∧
    ∀ args : List Text, args.Perm lines → ∃ m packet buff,
      cmdSendCommandLineCommand t memory argv0 (['-','c'] :: name :: args) = .send m ∧
      ipcCommandInternal sender fuel heap ipcref true m.command m.type m.params m.dest =
        .ok (some (.rawSockaddr packet m.dest),ipcref + 1) ∧ packet.buff = some buff ∧
      Delivery.Handles q (buff.take packet.len) handler (.struct [.word c.command,.word ipcref,.union c.params (.struct values)])

/- The printed numbers of a structure, typed behind the name of a command, arrive as the same structure. -/
theorem typedReachesHandler {t : Tool} {name : Text} {c : Command} {p : Parameter} {q : Receives.Process} {handler : Nat}
    (handled : Handled t name c p q handler) {values : List Val} (typed : List.Forall₂ Typed p.fields values)
    (distinct : Distinct t.generated p.fields) (some_ : p.fields ≠ [])
    {memory : Memory} (granted : memory.parameter = true ∧ ∀ n, memory.scanner n = true)
    {addr : BitVec 32} (resolved : t.resolveHost localhost = some addr)
    {sender : Env} {fuel : Nat} (deep : 1 ≤ fuel) {heap : Heap} (enough : ∀ call size, heap call size ≠ none)
    (registered : sender.definitionForType c.params = some p.definition)
    (fits : 12 + (values.flatMap numberWire).length ≤ Receives.maxIpPacketSize) (argv0 : Text) (ipcref : BitVec 32) :
    ReachesHandler t memory argv0 name c p values sender fuel heap ipcref q handler := by
  have printable : List.Forall₂ Printable p.fields values := typed.imp fun _ _ => Typed.printable
  obtain ⟨rows,good,listed,valued⟩ := rowsOf printable
  have each : ∀ r ∈ rows, Typed r.field r.value := by
    rw [← listed, ← valued, List.forall₂_map_left_iff, List.forall₂_map_right_iff, List.forall₂_same] at typed
    exact typed
  have cells : rows.map Row.cell = values := by
    rw [← valued]
    exact List.map_congr_left fun r member => (typedRow (good r member) (each r member)).1
  refine ⟨rows.filterMap Row.line,?_,fun args perm => ?_⟩
  · have printed := rowsPrinted (g := t.generated) good []
    rw [listed, valued] at printed
    exact printed
  have plain : ∀ arg ∈ args, arg.head? ≠ some '-' := by
    intro arg member
    obtain ⟨r,there,is⟩ := List.mem_filterMap.mp (perm.mem_iff.mp member)
    obtain ⟨-,line,is',notFlag⟩ := typedRow (good r there) (each r there)
    cases is'.symm.trans is
    exact notFlag
  have nonempty : args ≠ [] := by
    rintro rfl
    obtain ⟨r,there⟩ : ∃ r, r ∈ rows := by
      apply List.exists_mem_of_ne_nil
      rintro rfl
      exact some_ listed.symm
    obtain ⟨-,line,is,-⟩ := typedRow (good r there) (each r there)
    have member : line ∈ rows.filterMap Row.line := List.mem_filterMap.mpr ⟨r,there,is⟩
    exact absurd (perm.mem_iff.mpr member) List.not_mem_nil
  have assigned := rowsAssigned good (listed ▸ distinct) granted.2 perm
  rw [listed, cells] at assigned
  have loose : ¬objectEndsOpaque sender 1 p.definition (.struct values) := by
    simp only [objectEndsOpaque,handled.coder,p.listed]
    rintro ⟨_,⟨⟩,ends⟩
    exact typedLoose typed 0 ends
  let dest : Address := ⟨t.port,if addr = 0 then t.loopback else addr⟩
  obtain ⟨packet,buff,sent,there,bytes⟩ := Delivery.commandSent (typedParameters typed handled.coder registered) deep
    ⟨enough 0 buffLen,.inr ⟨loose,.inr (enough 1 _)⟩⟩ c.command ipcref dest
  obtain ⟨params',same,calls⟩ := Delivery.commandHandled (handled.understood typed) handled.small handled.other handled.handles fits ipcref
  cases typedOnly typed same
  refine ⟨⟨c.command,c.params,.struct values,dest,.human⟩,packet,buff,?_,sent,there,bytes ▸ calls⟩
  have read : readFlags t (['-','c'] :: name :: args) ⟨localhost,cmdMcCmdByName t (execNameOf argv0),t.commandByName (execNameOf argv0),.human⟩ =
      .ok (⟨localhost,none,some c,.human⟩,args) := by
    refine readFlagsIff.mpr ⟨[.command name],⟨rfl,?_,fun first member => plain first (List.mem_of_mem_head? member)⟩,?_⟩
    · intro _ _ member
      cases List.mem_singleton.mp member
    · simp [chosen,lastOf,hostOf,multicallOf,commandOf,printStyleOf,handled.single,handled.named]
  have asks : Asks t memory c args c.command c.params (.struct values) := by
    have filled : Asks t memory c args _ _ _ := .parameter handled.has (.inl handled.own) handled.coder handled.allocators handled.size granted.1
      (filledIff.mpr (p.listed ▸ assigned))
    rwa [if_neg nonempty] at filled
  simp only [cmdSendCommandLineCommand,read]
  exact sendIff.mpr ⟨addr,resolved,asks,handled.nonzero,rfl,rfl⟩

def numberParameter : Parameter := ⟨Delivery.numberDefinition,[⟨.scalar .uint32,0,0,some ['n'],none⟩],rfl,true⟩

def numberCommand : Command := ⟨5,7,none,some numberParameter⟩

def numberTool : Tool :=
  ⟨sampleGenerated,fun name => if name = ['s','e','t'] then some numberCommand else none,fun _ => none,[],fun _ => some 99,99,1⟩

example : cmdSendCommandLineCommand numberTool ⟨true,fun _ => true⟩ ['t']
    [['-','c'],['s','e','t'],['-','f'],['C','S','V'],['n','=','0','x','1','0'],['N','=','x']] =
      .send ⟨5,7,.struct [.word 16],⟨1,99⟩,.csvData⟩ := rfl

theorem numberHandled : Handled numberTool ['s','e','t'] numberCommand numberParameter Delivery.numberProcess 3 where
  named := rfl
  single := rfl
  has := rfl
  own := by decide
  coder := rfl
  allocators := rfl
  size := by decide
  nonzero := by decide
  small := by decide
  other := by decide
  receives _ := rfl
  deep := by decide
  known := rfl
  handles := rfl

theorem typedNumberReaches : ReachesHandler numberTool ⟨true,fun _ => true⟩ ['t'] ['s','e','t'] numberCommand numberParameter [.word 9]
    sampleEnv 1 plenty 1 Delivery.numberProcess 3 := by
  have keyed : Keyed ⟨.scalar .uint32,0,0,some ['n'],none⟩ ['n'] := ⟨rfl,rfl,by decide,by decide,by decide⟩
  exact typedReachesHandler numberHandled (.cons ⟨⟨_,keyed,by decide⟩,_,_,rfl,.uint32 9⟩ .nil) (List.pairwise_singleton _ _) (by decide)
    ⟨rfl,fun _ => rfl⟩ rfl le_rfl (fun _ _ => Option.some_ne_none _) rfl (by decide) ['t'] 1

end LibProc.CommandLine
