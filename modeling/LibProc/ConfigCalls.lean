import LibProc.Replay

/-! What the callbacks of a description are given. The data pointer of an object starts as NULL, is what the last callback of the
object returned, and is handed on to the next one. A line without '=' and a tag without '>' break this, the one by a value of NULL,
the other by a pointer of NULL, and so does a type callback that returns another pointer, which is dropped; no other line does,
however malformed it is. -/
namespace LibProc.ConfigCalls
open Config ConfigTree ConfigReader
open Replay (roomySteps)

variable {V : Type}

section File
variable (steps : Steps V) (program : Program V)

def rootLinesWith (fuel : Nat) (root : ParseObj) : Nat → V → Context V → Option (V × Context V)
  | 0,_,_ => none
  | turns + 1,data,ctx =>
    match nextLine ctx with
    | (false,ctx) => some (data,ctx)
    | (true,ctx) =>
      if (cstr ctx.buff 0).take 1 = ['<'] then do
        let parsed ← parseObjectWith steps program fuel program.lookup 0 (some root) data ctx
        rootLinesWith fuel root turns parsed.result parsed.ctx
      else do
        let line ← steps.pair 0 root.keys data ctx
        rootLinesWith fuel root turns line.1 line.2

def readFileWith (fuel : Nat) (rootObj : Option ParseObj) (data : V) (ctx : Context V) : Option (V × Context V) :=
  match rootObj with
  | none => some (data,ctx)
  | some root => if root.initCb.isSome then rootLinesWith steps program fuel root fuel data ctx else some (data,ctx)

def parseFileWith (fuel : Nat) (rootObj : Option ParseObj) : Option Text → Option (V × List (Call V))
  | none => some (program.null,[])
  | some file => do
    let init := fire program 0 (rootObj.bind ParseObj.initCb) [] (.string (some [])) program.null
    let body ← readFileWith steps program fuel rootObj init.result ⟨⟨file,none,false⟩,[],none,0,true,init.calls⟩
    let fini := fire program 0 (rootObj.bind ParseObj.finiCb) [] (.string (some [])) body.1
    some (fini.result,body.2.log ++ fini.calls)

end File

def takesValue (keys : List ParseValue) (key : Text) : Bool :=
  match findKey keys key with
  | none => false
  | some curr => curr.lookupCb.isNone && curr.cb.isSome

/- The steps of a run that stops in front of a kept line without room, of a line without '=' that names such a key, of an object
whose type callbacks do not return the data as they leave it, and of a tag without '>' where there is a data pointer to lose. -/
def soundSteps [DecidableEq V] (program : Program V) : Steps V where
  keep := accumulateLine
  pair depth keys data ctx :=
    let line := cutKeyValue ctx.buff
    if line.2.1.isNone && takesValue keys line.1 then none else some (processKeyValueLine program depth keys data ctx)
  opens opened := if opened.dropped = (opened.data,opened.parData) then some opened else none
  broken data := if data = program.null then some program.null else none

def fileTurns (file : Text) : Nat := file.length + 1

/- The run is stopped nowhere: it is the one of the steps that never stop. -/
def Sound [DecidableEq V] (program : Program V) (rootObj : Option ParseObj) (file : Text) : Prop :=
  parseFileWith (soundSteps program) program (fileTurns file) rootObj (some file) =
    parseFileWith (roomySteps program) program (fileTurns file) rootObj (some file)

structure Callbacks where
  initCb : Option ParseCB
  typeCb : Option ParseCB
  finiCb : Option ParseCB
  aboveCb : Option ParseCB
  objectCb : Option ParseCB
  name : Text
  typeName : Text
  key : Text
  params : Text

section
variable (program : Program V) (own : Callbacks) (depth : Nat)

def Callbacks.init : Fired V := fire program (depth + 1) own.initCb own.name (.string (some own.params)) program.null

def Callbacks.type : Fired V := fire program (depth + 1) own.typeCb typeKey (.string (some own.params)) (own.init program depth).result

def Callbacks.above (data : V) : Fired V := fire program depth own.aboveCb own.typeName (.string (some own.params)) data

def Callbacks.fini (data : V) : Fired V := fire program (depth + 1) own.finiCb own.name (.string (some own.params)) data

def Callbacks.deliver (object data : V) : Fired V := fire program depth own.objectCb own.key (.pointer object) data

end

/- The calls on an object that has this data pointer, and the pointer after them: each call is given what the one before it
returned, a value is never NULL, and an object within the object has a pointer of its own that starts as NULL. -/
inductive Threads (program : Program V) : Nat → V → List (Call V) → V → Prop where
  | done (depth : Nat) (data : V) : Threads program depth data [] data
  | value {depth : Nat} {data last : V} {rest : List (Call V)} (cb : ParseCB) (key text : Text)
      (next : Threads program depth (callback program cb key (.string (some text)) data).2 rest last) :
      Threads program depth data (⟨depth,cb,key,.string (some text),data⟩ :: rest) last
  | object {depth : Nat} {data middle last : V} {calls rest : List (Call V)} (own : Callbacks) (object : V)
      (inner : Threads program (depth + 1) (own.type program depth).result calls middle)
      (handed : object = (own.fini program depth middle).result ∨ ∃ kept, object = program.buffered kept)
      (next : Threads program depth (own.deliver program depth object (own.above program depth data).result).result rest last) :
      Threads program depth data ((own.init program depth).calls ++ (own.above program depth data).calls ++
        (own.type program depth).calls ++ calls ++ (own.fini program depth middle).calls ++
        (own.deliver program depth object (own.above program depth data).result).calls ++ rest) last

section
variable {program : Program V} {depth : Nat} {data middle last : V} {calls more : List (Call V)}

def Leads (program : Program V) (depth : Nat) (data : V) (calls : List (Call V)) (middle : V) : Prop :=
  ∀ rest last, Threads program depth middle rest last → Threads program depth data (calls ++ rest) last

theorem Leads.trans (first : Leads program depth data calls middle) (second : Leads program depth middle more last) :
    Leads program depth data (calls ++ more) last := by
  intro rest final threads
  rw [List.append_assoc]
  exact first _ _ (second _ _ threads)

theorem Leads.threads (leads : Leads program depth data calls last) : Threads program depth data calls last := by
  have whole := leads [] last (.done depth last)
  rwa [List.append_nil] at whole

variable {ctx ctx' : Context V}

/- What a reader has done when it comes back: the calls it has added lead from the pointer it was given to the one it returns. -/
def Logged (program : Program V) (depth : Nat) (data : V) (ctx : Context V) (data' : V) (ctx' : Context V) : Prop :=
  ∃ calls, ctx'.log = ctx.log ++ calls ∧ Leads program depth data calls data'

theorem Logged.trans {program : Program V} {mid : Context V} (first : Logged program depth data ctx middle mid)
    (second : Logged program depth middle mid last ctx') : Logged program depth data ctx last ctx' := by
  obtain ⟨calls,log,leads⟩ := first
  obtain ⟨more,log',leads'⟩ := second
  exact ⟨calls ++ more,by rw [log', log, List.append_assoc],leads.trans leads'⟩

variable [DecidableEq V]

def own (found : Found) (parObj : Option ParseObj) (tag : CutTag) : Callbacks where
  initCb := found.child.bind ParseObj.initCb
  typeCb := (findKey (keysOf found.child) typeKey).bind ParseValue.cb
  finiCb := found.child.bind ParseObj.finiCb
  aboveCb := (findKey (keysOf parObj) found.typeName).bind ParseValue.cb
  objectCb := found.curr.bind ParseValue.cb
  name := tag.obj
  typeName := found.typeName
  key := (found.curr.map ParseValue.name).getD []
  params := tag.paramsLcl

end

section Returning
variable {steps : Steps V} {program : Program V}

end Returning

end LibProc.ConfigCalls
