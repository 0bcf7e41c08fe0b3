import Mathlib.Data.List.DropRight

/-! The configuration reader: one recursive function over the lines of a file. It builds an
object by the callbacks of its description, or keeps the lines of an object whose description
is not known yet, and reads those lines again when the object is asked for. The line stands in
a buffer that the reader cuts into strings in place. -/
namespace LibProc.Config

abbrev Text := List Char

def nul : Char := '\x00'

def cstr (buff : Text) (start : Nat) : Text := (buff.drop start).takeWhile (· ≠ nul)

theorem nulClean {line : Text} (clean : nul ∉ line) : ∀ c ∈ line, decide (c ≠ nul) = true := by
  intro c inside
  exact decide_eq_true fun same => clean (same ▸ inside)

theorem cstrAfter (before line after : Text) (clean : nul ∉ line) {n : Nat} (start : n = before.length) :
    cstr (before ++ (line ++ nul :: after)) n = line := by
  rw [cstr, start, List.drop_left, List.takeWhile_append_of_pos (nulClean clean)]
  simp

theorem cstrTerminated (line after : Text) (clean : nul ∉ line) : cstr (line ++ nul :: after) 0 = line :=
  cstrAfter [] line after clean rfl

theorem setAfter (before after : Text) (c d : Char) {n : Nat} (start : n = before.length) :
    (before ++ c :: after).set n d = before ++ d :: after := by
  rw [start, List.set_append_right _ _ (Nat.le_refl _)]
  simp

def strcaseEq (left right : Text) : Bool := left.map Char.toLower == right.map Char.toLower

/- A callback with its two fixed arguments. `ptrCpy` is `CFG_PtrCpyCB` at offset zero. -/
inductive ParseCB where
  | user (n : Nat)
  | ptrCpy
  deriving DecidableEq, Repr

structure ParseValue where
  name : Text
  lookupCb : Option Nat
  cb : Option ParseCB
  deriving DecidableEq, Repr

structure ParseObj where
  initCb : Option ParseCB
  finiCb : Option ParseCB
  keys : List ParseValue
  deriving DecidableEq, Repr

structure BufferedObj (V : Type) where
  parsedCfg : V
  buff : Option Text
  len : Nat
  val : ParseValue
  deriving DecidableEq, Repr

inductive Value (V : Type) where
  | string (text : Option Text)
  | pointer (data : V)
  deriving DecidableEq, Repr

structure Call (V : Type) where
  depth : Nat
  cb : ParseCB
  key : Text
  value : Value V
  data : V
  deriving DecidableEq, Repr

/- A lookup is given the parameters of the tag and whether the object may be buffered. It
answers with the description and with whether the object is to be buffered. -/
abbrev Lookup := Nat → Text → Bool → Option ParseObj × Bool

/- The program that reads its configuration: its pointers, its lookups and its callbacks. A
callback leaves its data changed in place and returns the data to go on with. -/
structure Program (V : Type) where
  null : V
  buffered : BufferedObj V → V
  string : Option Text → V
  lookup : Lookup
  run : Nat → Text → Value V → V → V × V

structure Source where
  file : Text
  replay : Option Text
  stop : Bool
  deriving DecidableEq, Repr

/- `accum` is the text kept so far: its length is `used`, and `len` is what is allocated. -/
structure Context (V : Type) where
  source : Source
  buff : Text
  accum : Option Text
  len : Nat
  allowBuffering : Bool
  log : List (Call V)
  deriving DecidableEq, Repr

def Context.logged {V : Type} (ctx : Context V) (calls : List (Call V)) : Context V :=
  { ctx with log := ctx.log ++ calls }

section Lines

def buffSize : Nat := 1024 * 4

def fgets (file : Text) : Text × Text :=
  let window := file.take (buffSize - 1)
  let body := window.takeWhile (· ≠ '\n')
  let count := if body.length < window.length then body.length + 1 else body.length
  (file.take count,file.drop count)

def isBlank (c : Char) : Bool := c = ' ' || c = '\t'

def stripLine (text : Text) : Text := (text.rdropWhile (fun c => c = '\n' || c = '\r')).dropWhile isBlank

def isSkipped (line : Text) : Bool :=
  match line with
  | [] => true
  | c :: _ => c = '#' || c = ';'

/- The loop over the file. A line that does not fit is dropped, and so is the piece read after
it. Each turn reads at least one character, so the length of the file is fuel enough. -/
def fileLine : Nat → Bool → Text → Option Text × Text
  | 0, _, file => (none,file)
  | fuel + 1, skipFlag, file =>
    if file.isEmpty then (none,file)
    else
      let read := fgets file
      let text := cstr read.1 0
      if text.isEmpty then fileLine fuel skipFlag read.2
      else if text.getLast? ≠ some '\n' || skipFlag then fileLine fuel (!skipFlag) read.2
      else
        let line := stripLine text
        if isSkipped line then fileLine fuel skipFlag read.2 else (some line,read.2)

def replayLine (text : Text) : Text × Option Text :=
  let line := text.takeWhile (· ≠ '\n')
  (line,if line.length < text.length then some (text.drop (line.length + 1)) else none)

def Source.nextLine (source : Source) (buff : Text) : Bool × Text × Source :=
  match source.replay with
  | some text =>
    let line := replayLine (cstr text 0)
    (true,line.1.take (buffSize - 1) ++ [nul],
      { source with replay := line.2, stop := source.stop || line.2.isNone })
  | none =>
    if source.stop then (true,buff,source)
    else
      match fileLine source.file.length false source.file with
      | (some line, rest) => (true,line ++ [nul],{ source with file := rest })
      | (none, rest) => (false,buff,{ source with file := rest })

def nextLine {V : Type} (ctx : Context V) : Bool × Context V :=
  let next := ctx.source.nextLine ctx.buff
  (next.1,{ ctx with buff := next.2.1, source := next.2.2 })

end Lines

section Tags

structure CutTag where
  buff : Text
  params : Option Nat
  deriving DecidableEq, Repr

def CutTag.obj (tag : CutTag) : Text := cstr tag.buff 1

def CutTag.paramsLcl (tag : CutTag) : Text :=
  match tag.params with
  | none => []
  | some start => cstr tag.buff start

def cutTag (buff : Text) : Option CutTag :=
  let obj := cstr buff 1
  if obj.getLast? = some '>' then
    let buff := buff.set obj.length nul
    match (cstr buff 1).findIdx? (· = ' ') with
    | none => some ⟨buff,none⟩
    | some blank => some ⟨buff.set (1 + blank) nul,some (2 + blank)⟩
  else none

/- The two terminators are patched back, so that the buffer holds the line again. -/
def CutTag.patched (tag : CutTag) : Text :=
  let oterm := 1 + tag.obj.length
  match tag.params with
  | none => tag.buff.set oterm '>'
  | some start =>
    let buff := tag.buff.set oterm ' '
    buff.set (start + (cstr buff start).length) '>'

def CutTag.recut (tag : CutTag) (buff : Text) : Text :=
  let buff := buff.set (1 + tag.obj.length) nul
  match tag.params with
  | none => buff
  | some start => buff.set (start + (cstr buff start).length - 1) nul

def openLine (name : Text) (params : Option Text) : Text :=
  '<' :: name ++ ((params.map fun text => ' ' :: text).getD [] ++ ['>'])

def cutOf (name : Text) : Option Text → CutTag
  | none => ⟨'<' :: name ++ [nul, nul],none⟩
  | some text => ⟨'<' :: name ++ nul :: (text ++ [nul, nul]),some (2 + name.length)⟩

structure TagText (name : Text) (params : Option Text) : Prop where
  ended : nul ∉ name
  solid : ' ' ∉ name
  endedParams : ∀ text ∈ params, nul ∉ text

theorem blankAbsent {name : Text} (solid : ' ' ∉ name) : name.findIdx? (· = ' ') = none := by
  rw [List.findIdx?_eq_none_iff]
  intro c inside
  exact decide_eq_false fun same => solid (same ▸ inside)

theorem blankFirst {name : Text} (after : Text) (solid : ' ' ∉ name) :
    (name ++ ' ' :: after).findIdx? (· = ' ') = some name.length := by
  simp [List.findIdx?_append, blankAbsent solid, List.findIdx?_cons]

theorem cutOfObj {name : Text} {params : Option Text} (clean : TagText name params) :
    (cutOf name params).obj = name := by
  cases params with
  | none => exact cstrAfter ['<'] name [nul] clean.ended rfl
  | some text => exact cstrAfter ['<'] name (text ++ [nul, nul]) clean.ended rfl

theorem cutOfParams {name : Text} {params : Option Text} (clean : TagText name params) :
    (cutOf name params).paramsLcl = params.getD [] := by
  cases params with
  | none => rfl
  | some text =>
    have length : 2 + name.length = ('<' :: (name ++ [nul])).length := by simp; omega
    have read := cstrAfter ('<' :: (name ++ [nul])) text [nul] (clean.endedParams text rfl) length
    simpa [CutTag.paramsLcl, cutOf] using read

theorem cutOpenLine {name : Text} {params : Option Text} (clean : TagText name params) :
    cutTag (openLine name params ++ [nul]) = some (cutOf name params) := by
  have mark : nul ∉ ['>'] := by decide
  cases params with
  | none =>
    have whole : cstr ('<' :: (name ++ ['>', nul])) 1 = name ++ ['>'] := by
      have ended : nul ∉ name ++ ['>'] := by simp only [List.mem_append, clean.ended, mark, or_self, not_false_eq_true]
      simpa using cstrAfter ['<'] (name ++ ['>']) [] ended (n := 1) rfl
    have cut : ('<' :: (name ++ ['>', nul])).set (name ++ ['>']).length nul = (cutOf name none).buff :=
      setAfter ('<' :: name) [nul] '>' nul (by simp)
    have left : cstr (cutOf name none).buff 1 = name := cutOfObj clean
    have start : openLine name none ++ [nul] = '<' :: (name ++ ['>', nul]) := by simp [openLine]
    simp only [cutTag, start, whole, cut, left, blankAbsent clean.solid, List.getLast?_append,
      List.getLast?_singleton, Option.some_or, if_true]
    rfl
  | some text =>
    have ended : nul ∉ name ++ ' ' :: text := by
      simp only [List.mem_append, List.mem_cons, clean.ended, clean.endedParams text rfl, not_or, or_false, not_false_eq_true,
        true_and]
      decide
    have whole : cstr ('<' :: ((name ++ ' ' :: text) ++ ['>', nul])) 1 = (name ++ ' ' :: text) ++ ['>'] := by
      have all : nul ∉ (name ++ ' ' :: text) ++ ['>'] := by
        rw [List.mem_append]
        exact not_or.mpr ⟨ended,mark⟩
      simpa using cstrAfter ['<'] ((name ++ ' ' :: text) ++ ['>']) [] all (n := 1) rfl
    have cut : ('<' :: ((name ++ ' ' :: text) ++ ['>', nul])).set ((name ++ ' ' :: text) ++ ['>']).length nul =
        '<' :: ((name ++ ' ' :: text) ++ [nul, nul]) :=
      setAfter ('<' :: (name ++ ' ' :: text)) [nul] '>' nul (by simp; omega)
    have left : cstr ('<' :: ((name ++ ' ' :: text) ++ [nul, nul])) 1 = name ++ ' ' :: text :=
      cstrAfter ['<'] (name ++ ' ' :: text) [nul] ended rfl
    have blank : ('<' :: ((name ++ ' ' :: text) ++ [nul, nul])).set (1 + name.length) nul =
        (cutOf name (some text)).buff := by
      have placed := setAfter ('<' :: name) (text ++ [nul, nul]) ' ' nul (n := 1 + name.length) (by simp; omega)
      simpa [cutOf] using placed
    have start : openLine name (some text) ++ [nul] = '<' :: ((name ++ ' ' :: text) ++ ['>', nul]) := by
      simp [openLine]
    simp only [cutTag, start, whole, cut, left, blankFirst text clean.solid, blank, List.getLast?_append,
      List.getLast?_singleton, Option.some_or, if_true]
    rfl

theorem patchedOpenLine {name : Text} {params : Option Text} (clean : TagText name params) :
    (cutOf name params).patched = openLine name params ++ [nul] := by
  have obj := cutOfObj clean
  cases params with
  | none =>
    have placed := setAfter ('<' :: name) [nul] nul '>' (n := 1 + name.length) (by simp; omega)
    rw [CutTag.patched, obj]
    simpa [cutOf, openLine] using placed
  | some text =>
    have blank : (cutOf name (some text)).buff.set (1 + name.length) ' ' = '<' :: (name ++ ' ' :: (text ++ [nul, nul])) :=
      setAfter ('<' :: name) (text ++ [nul, nul]) nul ' ' (by simp; omega)
    have read : cstr ('<' :: (name ++ ' ' :: (text ++ [nul, nul]))) (2 + name.length) = text := by
      have length : 2 + name.length = ('<' :: (name ++ [' '])).length := by simp; omega
      simpa using cstrAfter ('<' :: (name ++ [' '])) text [nul] (clean.endedParams text rfl) length
    have last : ('<' :: (name ++ ' ' :: (text ++ [nul, nul]))).set (2 + name.length + text.length) '>' =
        '<' :: (name ++ ' ' :: (text ++ ['>', nul])) := by
      have length : 2 + name.length + text.length = ('<' :: (name ++ ' ' :: text)).length := by simp; omega
      simpa using setAfter ('<' :: (name ++ ' ' :: text)) [nul] nul '>' length
    have start : openLine name (some text) ++ [nul] = '<' :: (name ++ ' ' :: (text ++ ['>', nul])) := by
      simp [openLine]
    rw [CutTag.patched, obj, start, ← last]
    simp only [cutOf] at blank ⊢
    rw [blank, read]

end Tags

section Accumulating
variable {V : Type}

/- The sizes are unsigned: with less than three characters of room the difference wraps to
more than any line, and the buffer does not grow. Writing past it is no result. -/
def accumulateLine (ctx : Context V) : Option (Context V) :=
  let line := cstr ctx.buff 0
  let fresh := ctx.accum.isNone || ctx.len = 0
  let accum := if fresh then [] else ctx.accum.getD []
  let len := if fresh then 1024 else ctx.len
  let len := if accum.length + 3 ≤ len ∧ len - accum.length - 3 ≤ line.length then len * 2 else len
  if accum.length + line.length + 2 ≤ len then
    some { ctx with accum := some (accum ++ line ++ ['\n']), len := len }
  else none

structure Gathering (ctx : Context V) (text : Text) : Prop where
  accum : ctx.accum = some text
  room : text.length + 3 ≤ ctx.len
  least : 1024 ≤ ctx.len

structure Gathers (ctx ctx' : Context V) (text : Text) : Prop where
  source : ctx'.source = ctx.source
  buff : ctx'.buff = ctx.buff
  allowBuffering : ctx'.allowBuffering = ctx.allowBuffering
  log : ctx'.log = ctx.log
  text : Gathering ctx' text

theorem accumulateLineGathers {ctx : Context V} {line text : Text} (stored : cstr ctx.buff 0 = line)
    (short : line.length ≤ 1000) (begun : ctx.accum = none ∧ text = [] ∨ Gathering ctx text) :
    ∃ ctx', accumulateLine ctx = some ctx' ∧ Gathers ctx ctx' (text ++ line ++ ['\n']) := by
  have kept : ∃ len, 1024 ≤ len ∧ text.length + 3 ≤ len ∧
      (if ctx.accum.isNone || ctx.len = 0 then [] else ctx.accum.getD []) = text ∧
      (if ctx.accum.isNone || ctx.len = 0 then 1024 else ctx.len) = len := by
    rcases begun with ⟨absent,rfl⟩ | held
    · exact ⟨1024,by simp [absent]⟩
    · have wide := held.least
      have begun : ¬(ctx.accum.isNone || decide (ctx.len = 0)) = true := by simp [held.accum]; omega
      rw [if_neg begun, if_neg begun, held.accum]
      exact ⟨ctx.len,wide,held.room,rfl,rfl⟩
  obtain ⟨len,least,room,same,size⟩ := kept
  simp only [accumulateLine, stored, same, size]
  split
  · rename_i grow
    rw [if_pos (by omega)]
    exact ⟨_,rfl,⟨rfl,rfl,rfl,rfl,⟨rfl,by simp; omega,by simp; omega⟩⟩⟩
  · rename_i grow
    rw [if_pos (by omega)]
    exact ⟨_,rfl,⟨rfl,rfl,rfl,rfl,⟨rfl,by simp; omega,least⟩⟩⟩

end Accumulating

section Calling
variable {V : Type} (program : Program V)

structure Fired (V : Type) where
  left : V
  result : V
  calls : List (Call V)
  deriving DecidableEq, Repr

def callback (cb : ParseCB) (key : Text) (value : Value V) (data : V) : V × V :=
  match cb, value with
  | .user n, value => program.run n key value data
  | .ptrCpy, .string text => (program.string text,program.string text)
  | .ptrCpy, .pointer object => (object,object)

def fire (depth : Nat) (cb : Option ParseCB) (key : Text) (value : Value V) (data : V) : Fired V :=
  match cb with
  | none => ⟨data,data,[]⟩
  | some cb =>
    let after := callback program cb key value data
    ⟨after.1,after.2,[⟨depth,cb,key,value,data⟩]⟩

def findKey (keys : List ParseValue) (name : Text) : Option ParseValue :=
  keys.find? (fun key => strcaseEq key.name name)

theorem findKeyNamed {keys : List ParseValue} {name : Text} {key : ParseValue} (found : findKey keys name = some key) :
    strcaseEq key.name name = true := by
  rw [findKey] at found
  simpa using List.find?_some found

def fireKey (depth : Nat) (keys : List ParseValue) (name : Text) (value : Value V) (data : V) : Fired V :=
  fire program depth ((findKey keys name).bind ParseValue.cb) name value data

def cutKeyValue (buff : Text) : Text × Option Text × Text :=
  match (cstr buff 0).findIdx? (· = '=') with
  | none => (cstr buff 0,none,buff)
  | some i =>
    let buff := buff.set i nul
    (cstr buff 0,some (cstr buff (i + 1)),buff)

def fireValue (depth : Nat) (keys : List ParseValue) (key : Text) (value : Option Text) (data : V) : Fired V :=
  match findKey keys key with
  | none => ⟨data,data,[]⟩
  | some curr => if curr.lookupCb.isSome then ⟨data,data,[]⟩ else fire program depth curr.cb key (.string value) data

def keysOf (obj : Option ParseObj) : List ParseValue := (obj.map ParseObj.keys).getD []

def processKeyValueLine (depth : Nat) (keys : List ParseValue) (data : V) (ctx : Context V) : V × Context V :=
  let line := cutKeyValue ctx.buff
  let fired := fireValue program depth keys line.1 line.2.1 data
  (fired.result,{ ctx with buff := line.2.2 }.logged fired.calls)

end Calling

section Objects
variable {V : Type} (program : Program V)

structure Found where
  curr : Option ParseValue
  typeName : Text
  child : Option ParseObj
  objBuff : Option ParseValue
  deriving DecidableEq, Repr

def Found.nothing : Found := ⟨none,[],none,none⟩

def typePrefix : Text := "__type_".toList

def typeKey : Text := "__type".toList

/- The type name is cut to what fits in 256 characters with the terminator. -/
def findObject (look : Lookup) (parObj : Option ParseObj) (obj params : Text) (bufferObj : Bool) : Found :=
  match findKey (keysOf parObj) obj with
  | none => .nothing
  | some curr =>
    match curr.lookupCb with
    | none => .nothing
    | some lookupCb =>
      let answer := look lookupCb params bufferObj
      ⟨some curr,(typePrefix ++ obj).take 255,answer.1,if answer.2 then some curr else none⟩

def Found.keeps (found : Found) : Bool := found.child.isNone && found.objBuff.isSome

structure Opened (V : Type) where
  data : V
  parData : V
  dropped : V × V
  calls : List (Call V)

/- The init callback of the object, then the type callbacks of the enclosing object and of the
object, whose results are dropped. -/
def openObject (depth : Nat) (found : Found) (parObj : Option ParseObj) (obj params : Text) (parData : V) : Opened V :=
  let init := fire program (depth + 1) (found.child.bind ParseObj.initCb) obj (.string params) program.null
  let above := fireKey program depth (keysOf parObj) found.typeName (.string params) parData
  let type := fireKey program (depth + 1) (keysOf found.child) typeKey (.string params) init.result
  ⟨type.left,above.left,(type.result,above.result),init.calls ++ above.calls ++ type.calls⟩

def finiObject (depth : Nat) (found : Found) (obj params : Text) (data : V) : Fired V :=
  fire program (depth + 1) (found.child.bind ParseObj.finiCb) obj (.string params) data

def handed (found : Found) (accum : Option Text) (data : V) : V :=
  match found.objBuff with
  | none => data
  | some val =>
    match found.child with
    | some _ => program.buffered ⟨data,none,0,val⟩
    | none => program.buffered ⟨program.null,accum,(accum.getD []).length,val⟩

def released (found : Found) (ctx : Context V) : Context V :=
  if found.keeps then { ctx with accum := none, len := 0 } else ctx

def deliver (depth : Nat) (curr : Option ParseValue) (data parData : V) : Fired V :=
  match curr with
  | none => ⟨parData,parData,[]⟩
  | some key => fire program depth key.cb key.name (.pointer data) parData

structure Parsed (V : Type) where
  left : V
  result : V
  ctx : Context V
  deriving DecidableEq, Repr

end Objects

section Reader
variable {V : Type}

/- Four steps of the reader: what keeps a line, what becomes of the line of a key, what goes on from the first callbacks
of an object, and what a tag line without '>' gives. With the source's own steps it is the source's reader; with others it is
a reader whose runs say something about the source's. -/
structure Steps (V : Type) where
  keep : Context V → Option (Context V)
  pair : Nat → List ParseValue → V → Context V → Option (V × Context V)
  opens : Opened V → Option (Opened V)
  broken : V → Option V

def sourceSteps (program : Program V) : Steps V where
  keep := accumulateLine
  pair depth keys data ctx := some (processKeyValueLine program depth keys data ctx)
  opens := some
  broken _ := some program.null

variable (steps : Steps V) (program : Program V)

def keepTag (found : Found) (tag : CutTag) (ctx : Context V) : Option (Context V) :=
  if ctx.accum.isSome || found.keeps then
    (steps.keep { ctx with buff := tag.patched }).map fun ctx => { ctx with buff := tag.recut ctx.buff }
  else some { ctx with buff := tag.buff }

def keepIfKept (ctx : Context V) : Option (Context V) := if ctx.accum.isSome then steps.keep ctx else some ctx

def readLinesWith (nested : V → Context V → Option (Parsed V)) (depth : Nat) (child : Option ParseObj) (objLcl : Text) :
    Nat → V → Context V → Option (V × Context V)
  | 0, _, _ => none
  | fuel + 1, data, ctx =>
    match nextLine ctx with
    | (false, ctx) => some (data,ctx)
    | (true, ctx) =>
      let obj := cstr ctx.buff 0
      if obj.take 2 = ['<', '/'] then do
        let ctx ← keepIfKept steps ctx
        let ctx := { ctx with buff := ctx.buff.set (obj.length - 1) nul }
        let obj := cstr ctx.buff 0
        if obj.length < 3 || !strcaseEq (obj.drop 2) objLcl then readLinesWith nested depth child objLcl fuel data ctx
        else some (data,ctx)
      else if obj.take 1 = ['<'] then do
        let inner ← nested data { ctx with allowBuffering := true }
        readLinesWith nested depth child objLcl fuel inner.result { inner.ctx with allowBuffering := ctx.allowBuffering }
      else if ctx.accum.isNone then do
        let line ← steps.pair depth (keysOf child) data ctx
        readLinesWith nested depth child objLcl fuel line.1 line.2
      else do
        let ctx ← steps.keep ctx
        readLinesWith nested depth child objLcl fuel data ctx

/- The lookup of the tag itself is an argument, as it need not answer the same each time. A tag
line without '>' is left alone. -/
def parseObjectWith : Nat → Lookup → Nat → Option ParseObj → V → Context V → Option (Parsed V)
  | 0, _, _, _, _, _ => none
  | fuel + 1, look, depth, parObj, parData, ctx =>
    match cutTag ctx.buff with
    | none => (steps.broken parData).map fun result => ⟨parData,result,ctx⟩
    | some tag => do
      let found := if ctx.accum.isNone then findObject look parObj tag.obj tag.paramsLcl ctx.allowBuffering else .nothing
      let ctx ← keepTag steps found tag ctx
      let opened ← steps.opens (openObject program depth found parObj tag.obj tag.paramsLcl parData)
      let body ← readLinesWith steps (parseObjectWith fuel program.lookup (depth + 1) found.child) (depth + 1) found.child
        tag.obj fuel opened.data (ctx.logged opened.calls)
      let fini := finiObject program depth found tag.obj tag.paramsLcl body.1
      let object := handed program found body.2.accum fini.result
      let above := deliver program depth found.curr object opened.parData
      some ⟨above.left,above.result,(released found (body.2.logged fini.calls)).logged above.calls⟩

def readLines := readLinesWith (sourceSteps program)

def parseObject := parseObjectWith (sourceSteps program) program

variable [DecidableEq V]

/- The object as it is left, whose `parsedCfg` is what is returned, and the calls made. The context
is cleared, so the replayed object is not buffered again unless the lookup says so. Without a
text there is nothing to read from. -/
def cfgForObjectBufferWith (fuel : Nat) (look : Lookup) (obj : BufferedObj V) :
    Option (BufferedObj V × List (Call V)) :=
  if obj.parsedCfg ≠ program.null then some (obj,[])
  else do
    let text ← obj.buff
    let fakeRoot : ParseObj := ⟨none,none,[{ obj.val with cb := some .ptrCpy }]⟩
    let ctx : Context V := ⟨⟨[],some text,false⟩,[],none,0,false,[]⟩
    match nextLine ctx with
    | (false, ctx) => some ({ obj with buff := none },ctx.log)
    | (true, ctx) => do
      let parsed ← parseObjectWith steps program fuel look 0 (some fakeRoot) obj.parsedCfg ctx
      some ({ obj with parsedCfg := parsed.left, buff := none },parsed.ctx.log)

def cfgForObjectBuffer := cfgForObjectBufferWith (sourceSteps program) program

end Reader

end LibProc.Config
