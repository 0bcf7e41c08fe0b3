import LibProc.Config
import Mathlib.Tactic.Ring

/-! The command line of PROC_fork_child, cut into its parameters in place by next_param and parse_cmd.
A pointer is an offset into the string and its terminator; an access anywhere else is `none`. The line
is the text that vasprintf made, so its length is an int, and so are the counts below. -/
namespace LibProc.ParseCmd
open Config (Text nul cstr cstrAfter setAfter nulClean)

def singleQuote : Char := '\x27'
def doubleQuote : Char := '\x22'

def isspace (c : Char) : Bool := c ∈ [' ','\x09','\x0a','\x0b','\x0c','\x0d']

inductive InQuote where
  | outside
  | single
  | double
  deriving DecidableEq, Repr

def InQuote.turn (inQuote : InQuote) (c : Char) : InQuote :=
  if c = singleQuote then
    match inQuote with
    | .outside => .single
    | .single => .outside
    | .double => .double
  else if c = doubleQuote then
    match inQuote with
    | .outside => .double
    | .double => .outside
    | .single => .single
  else inQuote

def skipSpace (mem : Text) : Nat → Nat → Option Nat
  | 0,_ => none
  | turns + 1,start => do
    let c ← mem[start]?
    if isspace c = true then skipSpace mem turns (start + 1) else some start

def findEnd (mem : Text) : Nat → Nat → InQuote → Option Nat
  | 0,_,_ => none
  | turns + 1,finish,inQuote => do
    let c ← mem[finish]?
    if c = nul ∨ (isspace c = true ∧ inQuote = .outside) then some (finish - 1)
    else findEnd mem turns (finish + 1) (inQuote.turn c)

structure Param where
  more : Bool
  start : Nat
  finish : Nat
  deriving DecidableEq, Repr

def nextParam (mem : Text) (str : Nat) : Option Param := do
  let c ← mem[str]?
  if c = nul then some ⟨false,str,str⟩
  else
    let start ← skipSpace mem (mem.length + 1) str
    let first ← mem[start]?
    if first = nul then some ⟨false,start,start⟩
    else
      let inQuote : InQuote := if first = doubleQuote then .double else if first = singleQuote then .single else .outside
      let finish ← findEnd mem (mem.length + 1) (start + 1) inQuote
      some ⟨true,start,finish⟩

def countParams (mem : Text) : Nat → Nat → Nat → Option Nat
  | 0,_,_ => none
  | turns + 1,start,cnt => do
    let param ← nextParam mem start
    if param.more = false then some cnt
    else
      let next := param.finish + 1
      let c ← mem[next]?
      countParams mem turns (if c ≠ nul then next + 1 else next) (cnt + 1)

abbrev Argv := List (Option Nat)

def strlen (mem : Text) (str : Nat) : Option Nat := if nul ∈ mem.drop str then some (cstr mem str).length else none

def unquote (mem : Text) (start : Nat) : Option (Text × Nat) := do
  let first ← mem[start]?
  if first = doubleQuote ∨ first = singleQuote then
    let size ← strlen mem start
    let len := size - 1
    let last ← mem[start + len]?
    if first = last then some (mem.set (start + len) nul,start + 1) else some (mem,start)
  else some (mem,start)

structure Parsed where
  mem : Text
  argv : Argv
  cnt : Nat
  deriving DecidableEq, Repr

def fillParams : Nat → Text → Argv → Nat → Nat → Option Parsed
  | 0,_,_,_,_ => none
  | turns + 1,mem,argv,cnt,start => do
    let param ← nextParam mem start
    if param.more = false then some ⟨mem,argv,cnt⟩
    else
      let next := param.finish + 1
      let c ← mem[next]?
      let (cut,after) := if c ≠ nul then (mem.set next nul,next + 1) else (mem,next)
      let (told,arg) ← unquote cut param.start
      if cnt < argv.length then fillParams turns told (argv.set cnt (some arg)) (cnt + 1) after else none

/- `memory` is what malloc answers. The outer `none` is an access outside of the line or of argv. -/
def parseCmd (memory : Bool) (cmd : Text) : Option (Option Parsed) := do
  let cnt ← countParams cmd (cmd.length + 1) 0 0
  if memory = false then some none
  else
    let parsed ← fillParams (cmd.length + 1) cmd (List.replicate (cnt + 1) none) 0 0
    some (some parsed)

structure Line where
  text : Text
  clean : nul ∉ text

def Line.terminated (line : Line) : Text := line.text ++ [nul]

def strings (mem : Text) : Argv → List Text
  | some arg :: rest => cstr mem arg :: strings mem rest
  | _ => []

def paramOf : InQuote → Text → Text
  | _,[] => []
  | inQuote,c :: rest => if isspace c = true ∧ inQuote = .outside then [] else c :: paramOf (inQuote.turn c) rest

inductive Params : Text → List Text → Prop where
  | none {spaces} (blank : ∀ c ∈ spaces, isspace c = true) : Params spaces []
  | last {spaces c param} (blank : ∀ c ∈ spaces, isspace c = true) (starts : isspace c = false)
      (whole : paramOf (InQuote.outside.turn c) param = param) : Params (spaces ++ c :: param) [c :: param]
  | next {spaces c param space rest params} (blank : ∀ c ∈ spaces, isspace c = true) (starts : isspace c = false)
      (whole : paramOf (InQuote.outside.turn c) (param ++ space :: rest) = param) (ends : isspace space = true)
      (later : Params rest params) : Params (spaces ++ c :: (param ++ space :: rest)) ((c :: param) :: params)

def unquoted : Text → Text
  | [] => []
  | c :: rest => if (c = doubleQuote ∨ c = singleQuote) ∧ (c :: rest).getLast? = some c then rest.dropLast else c :: rest

section
variable {before spaces rest param : Text} {params : List Text}

theorem paramOfSplit (inQuote : InQuote) (text : Text) : paramOf inQuote text = text ∨
    ∃ space rest, isspace space = true ∧ text = paramOf inQuote text ++ space :: rest := by
  induction text generalizing inQuote with
  | nil => exact .inl rfl
  | cons c rest ih =>
    rw [paramOf]
    split
    · rename_i ends
      exact .inr ⟨c,rest,ends.1,rfl⟩
    · rcases ih (inQuote.turn c) with whole | ⟨space,later,ends,split⟩
      · exact .inl (congrArg (c :: ·) whole)
      · exact .inr ⟨space,later,ends,congrArg (c :: ·) split⟩

theorem paramsExist (text : Text) : ∃ params, Params text params := by
  induction size : text.length using Nat.strong_induction_on generalizing text with
  | _ n ih =>
    have blank : ∀ c ∈ text.takeWhile isspace, isspace c = true := fun c member => List.mem_takeWhile_imp member
    have split := List.takeWhile_append_dropWhile (p := isspace) (l := text)
    cases remains : text.dropWhile isspace with
    | nil =>
      rw [remains, List.append_nil] at split
      rw [split] at blank
      exact ⟨[],.none blank⟩
    | cons c tail =>
      have starts : isspace c = false := by
        have head := List.head?_dropWhile_not isspace text
        rw [remains] at head
        simpa using head
      rw [remains] at split
      rw [← split]
      rcases paramOfSplit (InQuote.outside.turn c) tail with whole | ⟨space,later,ends,cut⟩
      · exact ⟨[c :: tail],.last blank starts whole⟩
      · have shorter : later.length < n := by
          rw [← size, ← split, List.length_append, List.length_cons, cut, List.length_append, List.length_cons]
          omega
        obtain ⟨params,done⟩ := ih later.length shorter later rfl
        rw [cut]
        exact ⟨_,.next blank starts (by rw [← cut]) ends done⟩

theorem readAfter (before rest : Text) (c : Char) : (before ++ c :: rest)[before.length]? = some c := by simp

theorem skipSpaceReads (blank : ∀ c ∈ spaces, isspace c = true) {stop : Char} (starts : isspace stop = false) (before rest : Text)
    (turns : Nat) (enough : spaces.length < turns) :
    skipSpace (before ++ (spaces ++ stop :: rest)) turns before.length = some (before.length + spaces.length) := by
  induction spaces generalizing before turns with
  | nil =>
    obtain ⟨more,rfl⟩ := Nat.exists_eq_add_of_lt enough
    rw [List.nil_append, skipSpace, readAfter]
    simp [starts]
  | cons c spaces ih =>
    obtain ⟨more,rfl⟩ : ∃ more, turns = more + 1 := ⟨turns - 1,by omega⟩
    rw [List.cons_append, skipSpace, readAfter]
    have space : isspace c = true := blank c List.mem_cons_self
    have later := ih (fun d member => blank d (List.mem_cons_of_mem c member)) (before ++ [c]) more (Nat.lt_of_succ_lt_succ enough)
    rw [List.append_assoc, List.singleton_append, List.length_append, List.length_singleton] at later
    simp only [Option.bind_eq_bind,Option.bind_some,space,if_true,later,List.length_cons]
    congr 1
    ring

theorem findEndReads (clean : nul ∉ rest) (before : Text) (inQuote : InQuote) (turns : Nat) (enough : rest.length < turns) :
    findEnd (before ++ (rest ++ [nul])) turns before.length inQuote = some (before.length + (paramOf inQuote rest).length - 1) := by
  induction rest generalizing before inQuote turns with
  | nil =>
    obtain ⟨more,rfl⟩ := Nat.exists_eq_add_of_lt enough
    rw [List.nil_append, findEnd, readAfter]
    simp [paramOf]
  | cons c rest ih =>
    obtain ⟨more,rfl⟩ : ∃ more, turns = more + 1 := ⟨turns - 1,by omega⟩
    rw [List.cons_append, findEnd, readAfter, paramOf]
    have text : c ≠ nul := fun same => clean (same ▸ List.mem_cons_self)
    have later := ih (fun member => clean (List.mem_cons_of_mem c member)) (before ++ [c]) (inQuote.turn c) more (Nat.lt_of_succ_lt_succ enough)
    rw [List.append_assoc, List.singleton_append, List.length_append, List.length_singleton] at later
    simp only [Option.bind_eq_bind,Option.bind_some,text,false_or]
    split
    · rfl
    · rw [later, List.length_cons]
      congr 1
      omega

theorem nulNoSpace : isspace nul = false := by decide

theorem nextParamNone (spaces : Text) (blank : ∀ c ∈ spaces, isspace c = true) (before : Text) :
    ∃ start, nextParam (before ++ (spaces ++ [nul])) before.length = some ⟨false,start,start⟩ := by
  cases spaces with
  | nil =>
    refine ⟨before.length,?_⟩
    rw [List.nil_append, nextParam, readAfter]
    simp
  | cons c spaces =>
    have skips := skipSpaceReads blank nulNoSpace before [] ((before ++ (c :: spaces ++ [nul])).length + 1) (by simp; omega)
    have text : c ≠ nul := by
      rintro rfl
      have space := blank nul List.mem_cons_self
      rw [nulNoSpace] at space
      cases space
    refine ⟨before.length + (c :: spaces).length,?_⟩
    have first := readAfter before (spaces ++ [nul]) c
    have stops := readAfter (before ++ (c :: spaces)) [] nul
    rw [List.append_assoc, List.length_append] at stops
    rw [nextParam]
    rw [← List.cons_append] at first
    simp only [first,skips,stops,Option.bind_eq_bind,Option.bind_some,if_neg text,if_true]

theorem quoteTurn (c : Char) : (if c = doubleQuote then InQuote.double else if c = singleQuote then .single else .outside) =
    InQuote.outside.turn c := by
  unfold InQuote.turn
  by_cases double : c = doubleQuote
  · subst double
    rfl
  · rw [if_neg double, if_neg double]

theorem nextParamReads (blank : ∀ c ∈ spaces, isspace c = true) {c : Char} (starts : isspace c = false)
    (clean : nul ∉ spaces ++ c :: rest) (whole : paramOf (InQuote.outside.turn c) rest = param) (before : Text) :
    ∃ finish, nextParam (before ++ (spaces ++ c :: rest ++ [nul])) before.length = some ⟨true,(before ++ spaces).length,finish⟩ ∧
      finish + 1 = (before ++ (spaces ++ c :: param)).length := by
  have text : c ≠ nul := by
    rintro rfl
    exact clean (by simp)
  have clean' : nul ∉ rest := fun member => clean (by simp [member])
  have skips := skipSpaceReads blank starts before (rest ++ [nul])
    ((before ++ (spaces ++ c :: rest ++ [nul])).length + 1) (by simp; omega)
  have first := readAfter (before ++ spaces) (rest ++ [nul]) c
  have finds := findEndReads clean' (before ++ spaces ++ [c]) (InQuote.outside.turn c)
    ((before ++ (spaces ++ c :: rest ++ [nul])).length + 1) (by simp; omega)
  rw [whole] at finds
  have reads : ∃ d, (before ++ (spaces ++ c :: rest ++ [nul]))[before.length]? = some d ∧ d ≠ nul := by
    cases spaces with
    | nil => exact ⟨c,readAfter before (rest ++ [nul]) c,text⟩
    | cons d spaces => exact ⟨d,readAfter before _ d,fun same => clean (by simp [same])⟩
  obtain ⟨d,reads,other⟩ := reads
  refine ⟨(before ++ spaces ++ [c]).length + param.length - 1,?_,by simp; omega⟩
  rw [nextParam]
  rw [← List.length_append] at skips
  simp only [List.append_assoc,List.cons_append,List.nil_append] at reads skips first finds ⊢
  have place : (before ++ (spaces ++ [c])).length = (before ++ spaces).length + 1 := by simp [Nat.add_assoc]
  simp only [reads,skips,first,place ▸ finds,quoteTurn,Option.bind_eq_bind,Option.bind_some,if_neg other,if_neg text,place]

theorem countReads {text : Text} (split : Params text params) (clean : nul ∉ text) (before : Text) (turns : Nat)
    (enough : text.length < turns) (cnt : Nat) :
    countParams (before ++ (text ++ [nul])) turns before.length cnt = some (cnt + params.length) := by
  induction split generalizing before turns cnt with
  | @none spaces blank =>
    obtain ⟨more,rfl⟩ := Nat.exists_eq_add_of_lt enough
    obtain ⟨start,ends⟩ := nextParamNone spaces blank before
    rw [countParams, ends]
    rfl
  | @last spaces c param blank starts whole =>
    obtain ⟨more,rfl⟩ : ∃ more, turns = more + 2 := ⟨turns - 2,by simp at enough; omega⟩
    obtain ⟨finish,reads,place⟩ := nextParamReads blank starts clean whole before
    obtain ⟨start,ends⟩ := nextParamNone [] nofun (before ++ (spaces ++ c :: param))
    have next := readAfter (before ++ (spaces ++ c :: param)) [] nul
    rw [List.nil_append] at ends
    rw [← List.append_assoc] at reads ⊢
    rw [countParams, reads]
    simp only [Option.bind_eq_bind,Option.bind_some,place,next,Bool.true_eq_false,if_false,ne_eq,not_true_eq_false]
    rw [countParams, ends]
    rfl
  | @next spaces c param space rest params blank starts whole ends later ih =>
    obtain ⟨more,rfl⟩ : ∃ more, turns = more + 1 := ⟨turns - 1,by omega⟩
    obtain ⟨finish,reads,place⟩ := nextParamReads blank starts clean whole before
    have next := readAfter (before ++ (spaces ++ c :: param)) (rest ++ [nul]) space
    have text : space ≠ nul := fun same => clean (by simp [same])
    have tail := ih (fun member => clean (by simp [member])) (before ++ (spaces ++ c :: param) ++ [space])
      more (by simp at enough; omega) (cnt + 1)
    simp only [List.append_assoc,List.cons_append,List.nil_append] at reads next tail ⊢
    have along : (before ++ (spaces ++ c :: (param ++ [space]))).length = (before ++ (spaces ++ c :: param)).length + 1 := by
      simp [Nat.add_assoc]
    rw [along] at tail
    rw [countParams, reads]
    simp only [Option.bind_eq_bind,Option.bind_some,place,next,Bool.true_eq_false,if_false,if_pos text,tail,List.length_cons]
    congr 1
    ring

theorem lastRead (before after : Text) (c : Char) (rest : Text) :
    (before ++ (c :: rest ++ after))[before.length + rest.length]? = (c :: rest).getLast? := by
  rw [List.getElem?_append_right (Nat.le_add_right _ _), Nat.add_sub_cancel_left, List.getElem?_append_left (by simp),
    List.getLast?_eq_getElem?]
  simp

structure Told (before param after : Text) (body : Text) (arg : Nat) : Prop where
  size : body.length = param.length
  reads : unquote (before ++ (param ++ nul :: after)) before.length = some (before ++ (body ++ nul :: after),arg)
  string : ∀ later, cstr (before ++ (body ++ nul :: later)) arg = unquoted param
  low : before.length ≤ arg
  high : arg ≤ (before ++ body).length

theorem unquoteIs {c : Char} (clean : nul ∉ c :: rest) (before after : Text) :
    unquote (before ++ (c :: rest ++ nul :: after)) before.length =
      if (c = doubleQuote ∨ c = singleQuote) ∧ (c :: rest).getLast? = some c then
        some ((before ++ (c :: rest ++ nul :: after)).set (before.length + rest.length) nul,before.length + 1)
      else some (before ++ (c :: rest ++ nul :: after),before.length) := by
  have first := readAfter before (rest ++ nul :: after) c
  have last := lastRead before (nul :: after) c rest
  have string := cstrAfter before (c :: rest) after clean rfl
  obtain ⟨d,is⟩ : ∃ d, (c :: rest).getLast? = some d := ⟨_,List.getLast?_eq_some_getLast (List.cons_ne_nil c rest)⟩
  rw [List.cons_append] at last string ⊢
  have size : strlen (before ++ (c :: (rest ++ nul :: after))) before.length = some (rest.length + 1) := by
    rw [strlen, if_pos (by simp), string, List.length_cons]
  rw [is] at last ⊢
  rw [unquote, first]
  by_cases quote : c = doubleQuote ∨ c = singleQuote
  · simp only [Option.bind_eq_bind,Option.bind_some,quote,true_and,if_true,size,Nat.add_sub_cancel,last,Option.some.injEq,eq_comm]
  · simp only [Option.bind_eq_bind,Option.bind_some,quote,false_and,if_false]

theorem unquoteReads {c : Char} (clean : nul ∉ c :: rest) (before after : Text) : ∃ body arg, Told before (c :: rest) after body arg := by
  have is := unquoteIs clean before after
  by_cases quoted : (c = doubleQuote ∨ c = singleQuote) ∧ (c :: rest).getLast? = some c
  · rw [if_pos quoted] at is
    rcases List.eq_nil_or_concat rest with rfl | ⟨inner,d,rfl⟩
    · refine ⟨[nul],before.length + 1,rfl,?_,fun later => ?_,Nat.le_succ _,by simp⟩
      · rw [is]
        exact congrArg (fun mem => some (mem,_)) (setAfter before (nul :: after) c nul rfl)
      · have string := cstrAfter (before ++ [nul]) [] later nofun rfl
        rw [List.append_assoc, List.length_append, List.length_singleton] at string
        rw [unquoted, if_pos quoted]
        exact string
    · rw [List.concat_eq_append] at clean quoted is ⊢
      have same : d = c := by simpa [List.getLast?_cons] using quoted.2
      subst same
      have place : before.length + (inner ++ [d]).length = (before ++ d :: inner).length := by simp
      have split : ∀ e later, before ++ (d :: (inner ++ [e]) ++ later) = before ++ d :: inner ++ e :: later := by simp
      refine ⟨d :: (inner ++ [nul]),before.length + 1,by simp,?_,fun later => ?_,Nat.le_succ _,by simp⟩
      · rw [is, place, split, setAfter _ _ _ nul rfl, split]
      · have string := cstrAfter (before ++ [d]) inner (nul :: later) (fun member => clean (by simp [member])) rfl
        rw [List.length_append, List.length_singleton] at string
        rw [unquoted, if_pos quoted, List.dropLast_concat]
        refine (congrArg (fun mem => cstr mem _) ?_).trans string
        simp
  · rw [if_neg quoted] at is
    exact ⟨c :: rest,before.length,rfl,is,fun later => by rw [unquoted, if_neg quoted]; exact cstrAfter before _ later clean rfl,
      le_refl _,by simp⟩

theorem setNext (done : Argv) (many : Nat) (arg : Option Nat) : (done ++ List.replicate (many + 1) none).set done.length arg =
    done ++ [arg] ++ List.replicate many none := by
  rw [List.set_append_right _ _ (Nat.le_refl _), Nat.sub_self, List.replicate_succ, List.set_cons_zero, List.append_assoc]
  rfl

theorem fillReads {text : Text} (split : Params text params) (clean : nul ∉ text) (before : Text) (turns : Nat)
    (enough : text.length < turns) (done : Argv) : ∃ (cut : Text) (args : List Nat),
      fillParams turns (before ++ (text ++ [nul])) (done ++ List.replicate (params.length + 1) none) done.length before.length =
        some ⟨before ++ cut,done ++ (args.map some ++ [none]),done.length + params.length⟩ ∧
      cut.length = text.length + 1 ∧ args.map (cstr (before ++ cut)) = params.map unquoted ∧
      ∀ arg ∈ args, arg ≤ (before ++ text).length := by
  induction split generalizing before turns done with
  | @none spaces blank =>
    obtain ⟨more,rfl⟩ := Nat.exists_eq_add_of_lt enough
    obtain ⟨start,ends⟩ := nextParamNone spaces blank before
    refine ⟨spaces ++ [nul],[],?_,by simp,rfl,nofun⟩
    rw [fillParams, ends]
    rfl
  | @last spaces c param blank starts whole =>
    obtain ⟨more,rfl⟩ : ∃ more, turns = more + 2 := ⟨turns - 2,by simp at enough; omega⟩
    obtain ⟨finish,reads,place⟩ := nextParamReads blank starts clean whole before
    obtain ⟨body,arg,told⟩ := unquoteReads (fun member => clean (List.mem_append_right _ member)) (before ++ spaces) []
    have next := readAfter (before ++ (spaces ++ c :: param)) [] nul
    have along : (before ++ spaces ++ body).length = (before ++ (spaces ++ c :: param)).length := by
      simp [told.size]
    obtain ⟨start,ends⟩ := nextParamNone [] nofun (before ++ spaces ++ body)
    have string := told.string []
    have turn := told.reads
    rw [along] at ends
    simp only [List.append_assoc,List.cons_append,List.nil_append] at reads next ends turn string
    refine ⟨spaces ++ (body ++ [nul]),[arg],?_,by simp [told.size, Nat.add_assoc],by simp [string],?_⟩
    · rw [fillParams]
      simp only [List.append_assoc,List.cons_append,reads,Option.bind_eq_bind,Option.bind_some,place,next,Bool.true_eq_false,
        if_false,ne_eq,not_true_eq_false,turn]
      rw [if_pos (by simp), setNext, fillParams, ends]
      simp [Nat.add_assoc]
    · intro other member
      rw [List.mem_singleton.mp member]
      have high := told.high
      rw [along] at high
      exact high
  | @next spaces c param space rest params blank starts whole ends later ih =>
    obtain ⟨more,rfl⟩ : ∃ more, turns = more + 1 := ⟨turns - 1,by omega⟩
    obtain ⟨finish,reads,place⟩ := nextParamReads blank starts clean whole before
    have inside : nul ∉ c :: param := fun member => clean (by simp only [List.mem_append,List.mem_cons] at member ⊢; tauto)
    obtain ⟨body,arg,told⟩ := unquoteReads inside (before ++ spaces) (rest ++ [nul])
    have next := readAfter (before ++ (spaces ++ c :: param)) (rest ++ [nul]) space
    have text : space ≠ nul := fun same => clean (by simp [same])
    have cuts := setAfter (before ++ (spaces ++ c :: param)) (rest ++ [nul]) space nul rfl
    have along : (before ++ spaces ++ body ++ [nul]).length = (before ++ (spaces ++ c :: param)).length + 1 := by
      simp [told.size, Nat.add_assoc]
    obtain ⟨cut,args,fills,size,strings,inside⟩ := ih (fun member => clean (by simp [member])) (before ++ spaces ++ body ++ [nul])
      more (by simp at enough; omega) (done ++ [some arg])
    have turn := told.reads
    have string := told.string cut
    rw [along] at fills
    simp only [List.append_assoc,List.cons_append,List.nil_append] at reads next cuts turn string fills strings
    refine ⟨spaces ++ (body ++ nul :: cut),arg :: args,?_,?_,?_,?_⟩
    · rw [fillParams]
      simp only [List.append_assoc,List.cons_append,reads,Option.bind_eq_bind,Option.bind_some,place,next,Bool.true_eq_false,
        if_false,if_pos text,cuts,turn]
      rw [if_pos (by simp), List.length_cons, setNext]
      have place : (done ++ [some arg]).length = done.length + 1 := by simp
      rw [place] at fills
      simp only [List.append_assoc,List.cons_append,List.nil_append] at fills ⊢
      rw [fills]
      simp [Nat.add_assoc, Nat.add_comm 1]
    · simp [told.size,size]
      omega
    · simp [string,strings]
    · have high := told.high
      intro other member
      rcases List.mem_cons.mp member with rfl | later
      · simp [told.size] at high ⊢
        omega
      · have low := inside other later
        simp [told.size] at low ⊢
        omega

theorem stringsOf (mem : Text) (args : List Nat) : strings mem (args.map some ++ [none]) = args.map (cstr mem) := by
  induction args with
  | nil => rfl
  | cons arg rest ih => exact congrArg (cstr mem arg :: ·) ih

theorem parseReads (line : Line) (split : Params line.text params) :
    countParams line.terminated (line.terminated.length + 1) 0 0 = some params.length ∧
      parseCmd false line.terminated = some none ∧
      ∃ (mem : Text) (args : List Nat), parseCmd true line.terminated = some (some ⟨mem,args.map some ++ [none],params.length⟩) ∧
        mem.length = line.terminated.length ∧ args.length = params.length ∧ (∀ arg ∈ args, arg ≤ line.text.length) ∧
        strings mem (args.map some ++ [none]) = params.map unquoted := by
  have enough : line.text.length < line.terminated.length + 1 := by
    rw [Line.terminated, List.length_append, List.length_singleton]
    omega
  have counts := countReads split line.clean [] _ enough 0
  obtain ⟨mem,args,fills,size,told,inside⟩ := fillReads split line.clean [] _ enough []
  simp only [List.nil_append,List.length_nil,Nat.zero_add] at counts fills told inside
  change countParams line.terminated _ _ _ = _ at counts
  change fillParams _ line.terminated _ _ _ = _ at fills
  refine ⟨counts,?_,mem,args,?_,?_,?_,inside,?_⟩
  · rw [parseCmd, counts]
    rfl
  · rw [parseCmd, counts]
    simp only [Option.bind_eq_bind,Option.bind_some,Bool.true_eq_false,if_false,fills]
  · rw [size, Line.terminated, List.length_append, List.length_singleton]
  · rw [← List.length_map (cstr mem), told, List.length_map]
  · rw [stringsOf, told]

end

structure Argument extends Line where
  unquoted : doubleQuote ∉ text

def Argument.quoted (arg : Argument) : Text := doubleQuote :: (arg.text ++ [doubleQuote])

def quotedText (args : List Argument) : Text := [' '].intercalate (args.map Argument.quoted)

theorem paramOfQuoted {text : Text} (noQuote : doubleQuote ∉ text) (rest : Text) :
    paramOf .double (text ++ doubleQuote :: rest) = text ++ doubleQuote :: paramOf .outside rest := by
  induction text with
  | nil => rfl
  | cons c text ih =>
    have other : c ≠ doubleQuote := fun same => noQuote (same ▸ List.mem_cons_self)
    have stays : InQuote.double.turn c = .double := by
      unfold InQuote.turn
      by_cases single : c = singleQuote
      · rw [if_pos single]
      · rw [if_neg single, if_neg other]
    rw [List.cons_append, paramOf, stays, ih fun member => noQuote (List.mem_cons_of_mem c member), if_neg (by simp)]
    rfl

theorem unquotedArgument (arg : Argument) : unquoted arg.quoted = arg.text := by
  have last : (doubleQuote :: (arg.text ++ [doubleQuote])).getLast? = some doubleQuote := by
    rw [← List.cons_append, List.getLast?_concat]
  rw [Argument.quoted, unquoted, if_pos ⟨.inl rfl,last⟩, List.dropLast_concat]

theorem quotedTextCons (arg other : Argument) (rest : List Argument) :
    quotedText (arg :: other :: rest) = arg.quoted ++ ' ' :: quotedText (other :: rest) := by
  simp [quotedText,List.intercalate]

theorem quotedTextSingle (arg : Argument) : quotedText [arg] = arg.quoted := by simp [quotedText,List.intercalate]

theorem quotedParams (args : List Argument) : Params (quotedText args) (args.map Argument.quoted) := by
  induction args with
  | nil => exact .none nofun
  | cons arg rest ih =>
    cases rest with
    | nil =>
      have whole : paramOf .double (arg.text ++ [doubleQuote]) = arg.text ++ [doubleQuote] := paramOfQuoted arg.unquoted []
      rw [quotedTextSingle]
      change Params ([] ++ doubleQuote :: (arg.text ++ [doubleQuote])) [doubleQuote :: (arg.text ++ [doubleQuote])]
      exact .last nofun (by decide) whole
    | cons other rest =>
      have whole : paramOf .double (arg.text ++ [doubleQuote] ++ ' ' :: quotedText (other :: rest)) = arg.text ++ [doubleQuote] := by
        rw [List.append_assoc]
        exact paramOfQuoted arg.unquoted _
      rw [quotedTextCons]
      change Params ([] ++ doubleQuote :: (arg.text ++ [doubleQuote] ++ ' ' :: quotedText (other :: rest)))
        ((doubleQuote :: (arg.text ++ [doubleQuote])) :: (other :: rest).map Argument.quoted)
      exact .next nofun (by decide) whole (by decide) ih

theorem quotedClean (args : List Argument) : nul ∉ quotedText args := by
  have each : ∀ arg : Argument, nul ∉ arg.quoted := by
    intro arg
    have clean := arg.clean
    simp [Argument.quoted,clean,show nul ≠ doubleQuote by decide]
  induction args with
  | nil => exact List.not_mem_nil
  | cons arg rest ih =>
    cases rest with
    | nil =>
      rw [quotedTextSingle]
      exact each arg
    | cons other rest =>
      rw [quotedTextCons, List.mem_append, List.mem_cons]
      rintro (first | space | later)
      · exact each arg first
      · exact absurd space (by decide)
      · exact ih later

def quotedLine (args : List Argument) : Line := ⟨quotedText args,quotedClean args⟩

/- Both passes see the same parameters in every line, argv is written in range and ends with NULL, and what
it points to is in the line; and arguments in double quotes, with a space between them, come back as they are. -/
theorem commandParsed :
    (∀ line : Line, ∃ (cnt : Nat) (mem : Text) (args : List Nat),
      countParams line.terminated (line.terminated.length + 1) 0 0 = some cnt ∧ parseCmd false line.terminated = some none ∧
        parseCmd true line.terminated = some (some ⟨mem,args.map some ++ [none],cnt⟩) ∧ args.length = cnt ∧
        mem.length = line.terminated.length ∧ ∀ arg ∈ args, arg ≤ line.text.length) ∧
    ∀ args : List Argument, ∃ parsed, parseCmd true (quotedLine args).terminated = some (some parsed) ∧
      strings parsed.mem parsed.argv = args.map fun arg => arg.text := by
  constructor
  · intro line
    obtain ⟨params,split⟩ := paramsExist line.text
    obtain ⟨counts,fails,mem,args,parses,size,many,inside,-⟩ := parseReads line split
    exact ⟨params.length,mem,args,counts,fails,parses,many,size,inside⟩
  · intro args
    obtain ⟨-,-,mem,ptrs,parses,-,-,-,told⟩ := parseReads (quotedLine args) (quotedParams args)
    refine ⟨_,parses,told.trans ?_⟩
    rw [List.map_map]
    exact List.map_congr_left fun arg _ => unquotedArgument arg

end LibProc.ParseCmd
