import LibProc.Config
import LibProc.HashMaps
import LibProc.Runs

/-! What a program registers: the structures of xdr.c, the commands and the errors of cmd.c. Each is
kept in a hash table of pointers; what the tables are there for are three maps from numbers, and what
was last written to the structures themselves. -/
namespace LibProc.Registries
open HashTable
open Config (Text strcaseEq)

def wordKey (w : BitVec 32) : Option (BitVec 32) := if w = 0 then none else some w

def words (number : Nat → BitVec 32) : Functions (BitVec 32) Nat where
  hashSize := 37
  positive := by decide
  hashFunc key := (key.getD 0).toNat
  keyCmp key1 key2 := key1 == key2
  identical _ _ := beq_iff_eq
  keyForData data := wordKey (number data)

structure CommandInfo where
  command : BitVec 32
  params : BitVec 32
  name : Option Text
  types : Bool

structure ErrorInfo where
  id : BitVec 32
  name : Option Text
  description : Option Text

structure Program where
  cmd : Nat → CommandInfo
  err : Nat → ErrorInfo
  type : Nat → BitVec 32
  coded : Nat → Bool

abbrev Hash := Option (Buckets (BitVec 32) Nat)

/- The tables, and the fields that are written: the handler of a command with its argument, the
structure of its parameters, and the populator of a structure. -/
structure World where
  structHash : Hash
  xdrCommandHash : Hash
  xdrErrorHash : Hash
  xdrDatareqList : List Nat
  handler : Nat → Option Nat × Option Nat
  parameter : Nat → Option Nat
  populate : Nat → Option Nat × Option Nat

section Source
variable (p : Program)

def Program.structTable : Functions (BitVec 32) Nat := words p.type
def Program.commandTable : Functions (BitVec 32) Nat := words fun c => (p.cmd c).command
def Program.errorTable : Functions (BitVec 32) Nat := words fun e => (p.err e).id

/- The answers of malloc for a table, where there is none yet, and for what is put into it. -/
structure Memory where
  table : Bool
  node : Bool

def created (hash : Hash) (memory : Bool) : Hash :=
  match hash with
  | some buckets => some buckets
  | none => if memory then some hashCreateTable else none

def findIn (table : Functions (BitVec 32) Nat) (hash : Hash) (num : BitVec 32) : Option (Option Nat) :=
  match hash with
  | none => some none
  | some buckets => hashFindKey table buckets (wordKey num)

def addTo (table : Functions (BitVec 32) Nat) (buckets : Buckets (BitVec 32) Nat) (memory : Bool) (data : Nat) : Option Hash :=
  (hashAddData table buckets memory (some data)).map fun r => some r.2

def xdrRegisterStruct (w : World) (memory : Memory) (d : Nat) : Option World :=
  match created w.structHash memory.table with
  | none => some w
  | some buckets => (addTo p.structTable buckets memory.node d).map fun hash => {w with structHash := hash}

def xdrDefinitionForType (w : World) (type : BitVec 32) : Option (Option Nat) := findIn p.structTable w.structHash type

def xdrRegisterPopulator (w : World) (cb arg : Option Nat) (type : BitVec 32) : Option World :=
  (xdrDefinitionForType p w type).map fun found => match found with
    | none => w
    | some d => {w with populate := Function.update w.populate d (cb,arg)}

def xdrReplacePopulator (w : World) (cb arg : Option Nat) (type : BitVec 32) : Option ((Option Nat × Option Nat) × World) :=
  (xdrDefinitionForType p w type).map fun found => match found with
    | none => ((none,none),w)
    | some d => (w.populate d,{w with populate := Function.update w.populate d (cb,arg)})

def setParameter (w : World) (c : Nat) : Option World :=
  if (p.cmd c).params = 0 then some w
  else (xdrDefinitionForType p w (p.cmd c).params).map fun found => {w with parameter := Function.update w.parameter c found}

def cmdRegisterCommand (w : World) (override : Bool) (memory : Memory) (c : Nat) : Option World :=
  let num := (p.cmd c).command
  if num ≠ 0 then
    match created w.xdrCommandHash memory.table with
    | none => some w
    | some buckets => do
      let w ← setParameter p w c
      let found ← hashFindKey p.commandTable buckets (wordKey num)
      if found.isSome then
        if override then do
          let removed ← hashRemoveKey p.commandTable buckets (wordKey num)
          let hash ← addTo p.commandTable removed.2 memory.node c
          some {w with xdrCommandHash := hash}
        else some {w with xdrCommandHash := some buckets}
      else do
        let hash ← addTo p.commandTable buckets memory.node c
        some {w with xdrCommandHash := hash}
  else if (p.cmd c).types then
    if memory.node then setParameter p {w with xdrDatareqList := c :: w.xdrDatareqList} c else some w
  else some w

def cmdRegisterError (w : World) (memory : Memory) (e : Nat) : Option World :=
  match created w.xdrErrorHash memory.table with
  | none => some w
  | some buckets => (addTo p.errorTable buckets memory.node e).map fun hash => {w with xdrErrorHash := hash}

def cmdXdrCmdByNumber (w : World) (num : BitVec 32) : Option (Option Nat) := findIn p.commandTable w.xdrCommandHash num

def cmdSetXdrCmdHandler (w : World) (num : BitVec 32) (cb arg : Option Nat) : Option World :=
  (cmdXdrCmdByNumber p w num).map fun found => match found with
    | none => w
    | some c => {w with handler := Function.update w.handler c (cb,arg)}

def cmdErrorMessage (w : World) (id : BitVec 32) : Option Text :=
  (findIn p.errorTable w.xdrErrorHash id).map fun found => match found with
    | none => []
    | some e => ((p.err e).description <|> (p.err e).name).getD []

def named (name : Text) (c : Nat) : Bool := (p.cmd c).name.any fun own => strcaseEq own name

def datareqByName (name : Text) : List Nat → Option (Option Nat)
  | [] => some none
  | c :: rest => match (p.cmd c).name with
    | none => none
    | some own => if strcaseEq own name then some (some c) else datareqByName name rest

def tableCommands (w : World) (name : Text) : Option (List Nat) :=
  match w.xdrCommandHash with
  | none => some []
  | some buckets => (hashIterateArgTable p.commandTable buckets (fun (_ : Text) _ _ => false) name).map fun r => r.2.map Prod.fst

def cmdXdrCmdByName (w : World) (name : Text) : Option (Option Nat) :=
  (tableCommands p w name).bind fun given => match (given.filter (named p name)).getLast? with
    | some c => some (some c)
    | none => datareqByName p name w.xdrDatareqList

inductive Action where
  | registerStruct (d : Option Nat) (memory : Memory)
  | registerStructs (ds : List (Nat × Memory))
  | registerPopulator (cb arg : Option Nat) (type : BitVec 32)
  | replacePopulator (cb arg : Option Nat) (type : BitVec 32)
  | registerCommand (c : Option Nat) (override : Bool) (memory : Memory)
  | registerCommands (cs : List (Nat × Memory)) (override : Bool)
  | setXdrCmdHandler (num : BitVec 32) (cb arg : Option Nat)
  | registerError (e : Option Nat) (memory : Memory)
  | registerErrors (es : List (Nat × Memory))

def step (w : World) : Action → Option World
  | .registerStruct none _ => some w
  | .registerStruct (some d) memory => xdrRegisterStruct p w memory d
  | .registerStructs ds => (ds.takeWhile fun d => p.type d.1 ≠ 0 ∧ p.coded d.1 = true).foldlM (fun w d => xdrRegisterStruct p w d.2 d.1) w
  | .registerPopulator cb arg type => xdrRegisterPopulator p w cb arg type
  | .replacePopulator cb arg type => (xdrReplacePopulator p w cb arg type).map Prod.snd
  | .registerCommand none _ _ => some w
  | .registerCommand (some c) override memory => cmdRegisterCommand p w override memory c
  | .registerCommands cs override => (cs.takeWhile fun c => (p.cmd c.1).command ≠ 0 ∨ (p.cmd c.1).types = true).foldlM
      (fun w c => cmdRegisterCommand p w override c.2 c.1) w
  | .setXdrCmdHandler num cb arg => cmdSetXdrCmdHandler p w num cb arg
  | .registerError none _ => some w
  | .registerError (some e) memory => cmdRegisterError p w memory e
  | .registerErrors es => (es.takeWhile fun e => 0 < (p.err e.1).id.toNat).foldlM (fun w e => cmdRegisterError p w e.2 e.1) w

def start (handler : Nat → Option Nat × Option Nat) (parameter : Nat → Option Nat) (populate : Nat → Option Nat × Option Nat) : World :=
  ⟨none,none,none,[],handler,parameter,populate⟩

end Source

/- The registrations as maps, and which of the three tables there are: a registration needs its table, which is made once. -/
structure Known where
  structTable : Bool
  commandTable : Bool
  errorTable : Bool
  structs : BitVec 32 → Option Nat
  commands : BitVec 32 → Option Nat
  errors : BitVec 32 → Option Nat
  datareqs : List Nat
  handler : Nat → Option Nat × Option Nat
  parameter : Nat → Option Nat
  populate : Nat → Option Nat × Option Nat

section Specification
variable (p : Program)

def define (m : BitVec 32 → Option Nat) (num : BitVec 32) (memory : Bool) (data : Nat) : BitVec 32 → Option Nat :=
  if m num = none ∧ memory = true then Function.update m num (some data) else m

def Known.struct (k : Known) (memory : Memory) (d : Nat) : Known :=
  if k.structTable || memory.table then {k with structTable := true, structs := define k.structs (p.type d) memory.node d} else k

def Known.error (k : Known) (memory : Memory) (e : Nat) : Known :=
  if k.errorTable || memory.table then {k with errorTable := true, errors := define k.errors (p.err e).id memory.node e} else k

def Known.populator (k : Known) (cb arg : Option Nat) (type : BitVec 32) : Known :=
  match k.structs type with
  | none => k
  | some d => {k with populate := Function.update k.populate d (cb,arg)}

def Known.parameterOf (k : Known) (c : Nat) : Known :=
  if (p.cmd c).params = 0 then k else {k with parameter := Function.update k.parameter c (k.structs (p.cmd c).params)}

def Known.command (k : Known) (override : Bool) (memory : Memory) (c : Nat) : Known :=
  let num := (p.cmd c).command
  if num ≠ 0 then
    if k.commandTable || memory.table then
      let m := if override then Function.update k.commands num none else k.commands
      {k.parameterOf p c with commandTable := true, commands := define m num memory.node c}
    else k
  else if (p.cmd c).types ∧ memory.node then {k with datareqs := c :: k.datareqs}.parameterOf p c
  else k

def know (k : Known) : Action → Known
  | .registerStruct none _ => k
  | .registerStruct (some d) memory => k.struct p memory d
  | .registerStructs ds => (ds.takeWhile fun d => p.type d.1 ≠ 0 ∧ p.coded d.1 = true).foldl (fun k d => k.struct p d.2 d.1) k
  | .registerPopulator cb arg type => k.populator cb arg type
  | .replacePopulator cb arg type => k.populator cb arg type
  | .registerCommand none _ _ => k
  | .registerCommand (some c) override memory => k.command p override memory c
  | .registerCommands cs override =>
    (cs.takeWhile fun c => (p.cmd c.1).command ≠ 0 ∨ (p.cmd c.1).types = true).foldl (fun k c => k.command p override c.2 c.1) k
  | .setXdrCmdHandler num cb arg => match k.commands num with
    | none => k
    | some c => {k with handler := Function.update k.handler c (cb,arg)}
  | .registerError none _ => k
  | .registerError (some e) memory => k.error p memory e
  | .registerErrors es => (es.takeWhile fun e => 0 < (p.err e.1).id.toNat).foldl (fun k e => k.error p e.2 e.1) k

def nothing (handler : Nat → Option Nat × Option Nat) (parameter : Nat → Option Nat) (populate : Nat → Option Nat × Option Nat) : Known :=
  ⟨false,false,false,fun _ => none,fun _ => none,fun _ => none,[],handler,parameter,populate⟩

def Legal : Action → Prop
  | .registerStruct (some d) _ => p.type d ≠ 0
  | .registerError (some e) _ => (p.err e).id ≠ 0
  | _ => True

def Known.Finds (k : Known) (name : Text) (found : Option Nat) : Prop :=
  if ∃ num c, k.commands num = some c ∧ named p name c = true then
    ∃ num c, k.commands num = some c ∧ named p name c = true ∧ found = some c
  else found = k.datareqs.find? (named p name)

/- Each question is answered as the maps have it, and no search runs into freed memory or goes on for ever. -/
structure Knows (w : World) (k : Known) : Prop where
  definition : ∀ type, xdrDefinitionForType p w type = some (k.structs type)
  number : ∀ num, cmdXdrCmdByNumber p w num = some (k.commands num)
  message : ∀ id, cmdErrorMessage p w id =
    some (match k.errors id with
      | none => []
      | some e => ((p.err e).description <|> (p.err e).name).getD [])
  name : (∀ c ∈ k.datareqs, (p.cmd c).name ≠ none) → ∀ name, ∃ found, cmdXdrCmdByName p w name = some found ∧ k.Finds p name found
  replaced : ∀ cb arg type, (xdrReplacePopulator p w cb arg type).map Prod.fst =
    some ((k.structs type).elim (none,none) k.populate)
  written : w.handler = k.handler ∧ w.parameter = k.parameter ∧ w.populate = k.populate

end Specification

def lift (m : BitVec 32 → Option Nat) : Map (BitVec 32) Nat := fun key => key.bind m

def Is (table : Functions (BitVec 32) Nat) (hash : Hash) (made : Bool) (m : BitVec 32 → Option Nat) : Prop :=
  m 0 = none ∧ hash.isSome = made ∧ match hash with
    | none => ∀ num, m num = none
    | some buckets => ∃ chains, Represents table buckets chains (lift m)

section Tables
variable {number : Nat → BitVec 32} {hash : Hash} {made : Bool} {m : BitVec 32 → Option Nat} {num : BitVec 32} {memory : Bool} {data : Nat}

theorem wordKeySome (nonzero : num ≠ 0) : wordKey num = some num := if_neg nonzero

theorem liftWord (zero : m 0 = none) (num : BitVec 32) : lift m (wordKey num) = m num := by
  unfold lift wordKey
  split
  · next is =>
    rw [is, zero]
    rfl
  · rfl

theorem liftUpdate (num : BitVec 32) (data : Option Nat) : lift (Function.update m num data) = Function.update (lift m) (some num) data := by
  funext key
  cases key with
  | none =>
    rw [Function.update_of_ne (Option.some_ne_none num).symm]
    rfl
  | some other =>
    by_cases same : other = num
    · subst same
      rw [Function.update_self]
      exact Function.update_self ..
    · rw [Function.update_of_ne fun is => same (Option.some.inj is)]
      exact Function.update_of_ne same ..

theorem findIs (is : Is (words number) hash made m) (num : BitVec 32) : findIn (words number) hash num = some (m num) := by
  obtain ⟨zero,-,holds⟩ := is
  cases hash with
  | none =>
    rw [findIn, holds num]
  | some buckets =>
    obtain ⟨chains,represents⟩ := holds
    rw [findIn, findRefines represents, liftWord zero]

theorem createdIs (is : Is (words number) hash made m) (granted : (made || memory) = true) :
    ∃ buckets, created hash memory = some buckets ∧ Is (words number) (some buckets) true m := by
  obtain ⟨zero,exists_,holds⟩ := is
  cases hash with
  | none =>
    have empty : lift m = fun _ => none := by
      funext key
      cases key with
      | none => rfl
      | some num => exact holds num
    have made_ : memory = true := by
      rw [← exists_] at granted
      exact granted
    exact ⟨hashCreateTable,by rw [created, made_]; rfl,zero,rfl,_,empty ▸ createRepresents _⟩
  | some buckets => exact ⟨buckets,rfl,zero,rfl,holds⟩

theorem createdNone (is : Is (words number) hash made m) (refused : ¬(made || memory) = true) : created hash memory = none := by
  obtain ⟨-,exists_,-⟩ := is
  rw [Bool.or_eq_true, not_or, ← exists_] at refused
  cases hash with
  | none => exact if_neg refused.2
  | some buckets => exact absurd rfl refused.1

theorem addIs (data : Nat) {buckets : Buckets (BitVec 32) Nat} (is : Is (words number) (some buckets) true m) (nonzero : number data ≠ 0)
    (memory : Bool) :
    ∃ hash, addTo (words number) buckets memory data = some hash ∧ Is (words number) hash true (define m (number data) memory data) := by
  obtain ⟨zero,-,chains,represents⟩ := is
  have key : (words number).keyForData data = some (number data) := wordKeySome nonzero
  have some_ : (words number).keyForData data ≠ none := by
    rw [key]
    exact Option.some_ne_none _
  obtain ⟨code,buckets',chains',m',adds,answers,represents'⟩ := addRefines (A := Unit) represents memory data some_
  refine ⟨some buckets',by rw [addTo, adds]; rfl,?_⟩
  simp only [Map.Answers,key] at answers
  have here : lift m (some (number data)) = m (number data) := rfl
  rw [here] at answers
  unfold define
  cases there : m (number data) with
  | some old =>
    rw [if_pos (by rw [there]; rfl)] at answers
    rw [if_neg (by simp)]
    exact ⟨zero,rfl,chains',answers.2 ▸ represents'⟩
  | none =>
    rw [if_neg (by rw [there]; exact Bool.false_ne_true)] at answers
    cases memory with
    | false =>
      rw [if_neg (by simp)] at answers ⊢
      exact ⟨zero,rfl,chains',answers.2 ▸ represents'⟩
    | true =>
      rw [if_pos rfl] at answers
      rw [if_pos ⟨rfl,rfl⟩]
      refine ⟨by rw [Function.update_of_ne nonzero.symm, zero],rfl,chains',?_⟩
      rw [liftUpdate, ← answers.2]
      exact represents'

theorem removeIs {buckets : Buckets (BitVec 32) Nat} (is : Is (words number) (some buckets) true m) (nonzero : num ≠ 0) :
    ∃ buckets', hashRemoveKey (words number) buckets (wordKey num) = some (m num,buckets') ∧
      Is (words number) (some buckets') true (Function.update m num none) := by
  obtain ⟨zero,-,chains,represents⟩ := is
  obtain ⟨buckets',chains',removes,represents'⟩ := removeRefines represents (wordKey num)
  rw [liftWord zero] at removes
  refine ⟨buckets',removes,by rw [Function.update_of_ne nonzero.symm, zero],rfl,chains',?_⟩
  rw [liftUpdate, ← wordKeySome nonzero]
  exact represents'

end Tables

structure Inv (p : Program) (w : World) (k : Known) : Prop where
  structs : Is p.structTable w.structHash k.structTable k.structs
  commands : Is p.commandTable w.xdrCommandHash k.commandTable k.commands
  errors : Is p.errorTable w.xdrErrorHash k.errorTable k.errors
  datareqs : w.xdrDatareqList = k.datareqs
  handler : w.handler = k.handler
  parameter : w.parameter = k.parameter
  populate : w.populate = k.populate

section Steps
variable {p : Program} {w : World} {k : Known}

theorem Inv.struct (inv : Inv p w k) {d : Nat} (nonzero : p.type d ≠ 0) (memory : Memory) :
    ∃ w', xdrRegisterStruct p w memory d = some w' ∧ Inv p w' (k.struct p memory d) := by
  unfold xdrRegisterStruct Known.struct
  by_cases granted : (k.structTable || memory.table) = true
  · obtain ⟨buckets,creates,is⟩ := createdIs inv.structs granted
    obtain ⟨hash,adds,is'⟩ := addIs d is nonzero memory.node
    rw [if_pos granted, creates]
    dsimp only
    rw [Program.structTable, adds]
    exact ⟨{w with structHash := hash},rfl,{inv with structs := is'}⟩
  · rw [if_neg granted, createdNone inv.structs granted]
    exact ⟨w,rfl,inv⟩

theorem Inv.error (inv : Inv p w k) {e : Nat} (nonzero : (p.err e).id ≠ 0) (memory : Memory) :
    ∃ w', cmdRegisterError p w memory e = some w' ∧ Inv p w' (k.error p memory e) := by
  unfold cmdRegisterError Known.error
  by_cases granted : (k.errorTable || memory.table) = true
  · obtain ⟨buckets,creates,is⟩ := createdIs inv.errors granted
    obtain ⟨hash,adds,is'⟩ := addIs e is nonzero memory.node
    rw [if_pos granted, creates]
    dsimp only
    rw [Program.errorTable, adds]
    exact ⟨{w with xdrErrorHash := hash},rfl,{inv with errors := is'}⟩
  · rw [if_neg granted, createdNone inv.errors granted]
    exact ⟨w,rfl,inv⟩

theorem Inv.definition (inv : Inv p w k) (type : BitVec 32) : xdrDefinitionForType p w type = some (k.structs type) :=
  findIs inv.structs type

theorem Inv.number (inv : Inv p w k) (num : BitVec 32) : cmdXdrCmdByNumber p w num = some (k.commands num) := findIs inv.commands num

theorem Inv.replaced (inv : Inv p w k) (cb arg : Option Nat) (type : BitVec 32) :
    ∃ w', xdrReplacePopulator p w cb arg type = some ((k.structs type).elim (none,none) k.populate,w') ∧
      xdrRegisterPopulator p w cb arg type = some w' ∧ Inv p w' (k.populator cb arg type) := by
  unfold xdrReplacePopulator xdrRegisterPopulator Known.populator
  rw [inv.definition]
  cases k.structs type with
  | none => exact ⟨w,rfl,rfl,inv⟩
  | some d => exact ⟨{w with populate := Function.update w.populate d (cb,arg)},by rw [← inv.populate]; rfl,rfl,
      {inv with populate := by rw [inv.populate]}⟩

theorem Inv.parameterOf (inv : Inv p w k) (c : Nat) : ∃ w', setParameter p w c = some w' ∧ Inv p w' (k.parameterOf p c) ∧
    w'.xdrCommandHash = w.xdrCommandHash := by
  unfold setParameter Known.parameterOf
  by_cases none_ : (p.cmd c).params = 0
  · rw [if_pos none_, if_pos none_]
    exact ⟨w,rfl,inv,rfl⟩
  · rw [if_neg none_, if_neg none_, inv.definition]
    exact ⟨_,rfl,{inv with parameter := by dsimp only; rw [inv.parameter]},rfl⟩

theorem Inv.command (inv : Inv p w k) (override : Bool) (memory : Memory) (c : Nat) :
    ∃ w', cmdRegisterCommand p w override memory c = some w' ∧ Inv p w' (k.command p override memory c) := by
  unfold cmdRegisterCommand Known.command
  dsimp only
  by_cases request : (p.cmd c).command = 0
  · rw [if_neg (not_not.mpr request), if_neg (not_not.mpr request)]
    by_cases types : (p.cmd c).types = true
    · rw [if_pos types]
      cases granted : memory.node with
      | false =>
        rw [if_neg Bool.false_ne_true, if_neg (by simp)]
        exact ⟨w,rfl,inv⟩
      | true =>
        rw [if_pos rfl, if_pos (by simp [types])]
        have listed : Inv p {w with xdrDatareqList := c :: w.xdrDatareqList} {k with datareqs := c :: k.datareqs} :=
          {inv with datareqs := congrArg (c :: ·) inv.datareqs}
        obtain ⟨w',sets,inv',-⟩ := listed.parameterOf c
        exact ⟨w',sets,inv'⟩
    · rw [if_neg types, if_neg (by simp [types])]
      exact ⟨w,rfl,inv⟩
  · rw [if_pos request, if_pos request]
    by_cases granted : (k.commandTable || memory.table) = true
    case neg =>
      rw [if_neg granted, createdNone inv.commands granted]
      exact ⟨w,rfl,inv⟩
    obtain ⟨buckets,creates,table⟩ := createdIs inv.commands granted
    obtain ⟨w',sets,inv',-⟩ := inv.parameterOf c
    have finds : hashFindKey p.commandTable buckets (wordKey (p.cmd c).command) = some (k.commands (p.cmd c).command) :=
      findIs table (p.cmd c).command
    have stored : ∀ {hash : Hash} {m : BitVec 32 → Option Nat}, Is p.commandTable hash true m →
        Inv p {w' with xdrCommandHash := hash} {k.parameterOf p c with commandTable := true, commands := m} := fun is =>
      {inv' with commands := is}
    rw [if_pos granted, creates]
    dsimp only
    rw [sets]
    simp only [Option.bind_eq_bind,Option.bind_some]
    rw [finds]
    simp only [Option.bind_some]
    cases there : k.commands (p.cmd c).command with
    | none =>
      obtain ⟨hash,adds,is⟩ := addIs c table request memory.node
      have same : (if override = true then Function.update k.commands (p.cmd c).command none else k.commands) = k.commands := by
        rw [← there, Function.update_eq_self, ite_self]
      rw [if_neg (by simp), same]
      refine ⟨{w' with xdrCommandHash := hash},?_,stored is⟩
      rw [Program.commandTable, adds]
      rfl
    | some old =>
      rw [if_pos (by rfl)]
      cases override with
      | true =>
        obtain ⟨buckets',removes,gone⟩ := removeIs table request
        obtain ⟨hash,adds,is⟩ := addIs c gone request memory.node
        rw [if_pos rfl, if_pos rfl]
        refine ⟨{w' with xdrCommandHash := hash},?_,stored is⟩
        rw [Program.commandTable, removes]
        simp only [Option.bind_some]
        rw [adds]
        rfl
      | false =>
        rw [if_neg Bool.false_ne_true, if_neg Bool.false_ne_true]
        have kept : define k.commands (p.cmd c).command memory.node c = k.commands := if_neg (by rw [there]; simp)
        rw [kept]
        exact ⟨{w' with xdrCommandHash := some buckets},rfl,stored table⟩

theorem foldKeeps {B : Type} {f : World → B → Option World} {g : Known → B → Known} (items : List B)
    (each : ∀ w k, ∀ b ∈ items, Inv p w k → ∃ w', f w b = some w' ∧ Inv p w' (g k b)) :
    ∀ {w : World} {k : Known}, Inv p w k → ∃ w', items.foldlM f w = some w' ∧ Inv p w' (items.foldl g k) := by
  induction items with
  | nil => exact fun inv => ⟨_,rfl,inv⟩
  | cons b rest ih =>
    intro w k inv
    obtain ⟨w',first,inv'⟩ := each w k b List.mem_cons_self inv
    obtain ⟨last,later,inv''⟩ := ih (fun w k b member => each w k b (List.mem_cons_of_mem _ member)) inv'
    exact ⟨last,by rw [List.foldlM_cons, first]; exact later,inv''⟩

theorem stepKeeps (inv : Inv p w k) (a : Action) (legal : Legal p a) : ∃ w', step p w a = some w' ∧ Inv p w' (know p k a) := by
  cases a with
  | registerStruct d memory =>
    cases d with
    | none => exact ⟨w,rfl,inv⟩
    | some d => exact inv.struct legal memory
  | registerStructs ds =>
    refine foldKeeps _ (fun w k d member inv => inv.struct ?_ d.2) inv
    have good := List.mem_takeWhile_imp member
    exact (of_decide_eq_true good).1
  | registerPopulator cb arg type =>
    obtain ⟨w',-,registers,inv'⟩ := inv.replaced cb arg type
    exact ⟨w',registers,inv'⟩
  | replacePopulator cb arg type =>
    obtain ⟨w',replaces,-,inv'⟩ := inv.replaced cb arg type
    exact ⟨w',by rw [step, replaces]; rfl,inv'⟩
  | registerCommand c override memory =>
    cases c with
    | none => exact ⟨w,rfl,inv⟩
    | some c => exact inv.command override memory c
  | registerCommands cs override => exact foldKeeps _ (fun w k c _ inv => inv.command override c.2 c.1) inv
  | setXdrCmdHandler num cb arg =>
    rw [step, cmdSetXdrCmdHandler, inv.number, know]
    cases k.commands num with
    | none => exact ⟨w,rfl,inv⟩
    | some c => exact ⟨{w with handler := Function.update w.handler c (cb,arg)},rfl,{inv with handler := by rw [inv.handler]}⟩
  | registerError e memory =>
    cases e with
    | none => exact ⟨w,rfl,inv⟩
    | some e => exact inv.error legal memory
  | registerErrors es =>
    refine foldKeeps _ (fun w k e member inv => inv.error ?_ e.2) inv
    intro zero
    have good := List.mem_takeWhile_imp member
    rw [zero] at good
    cases good

theorem runKeeps (acts : List Action) : ∀ {w : World} {k : Known}, Inv p w k → (∀ a ∈ acts, Legal p a) →
    ∃ w', acts.foldlM (step p) w = some w' ∧ Inv p w' (acts.foldl (know p) k) :=
  fun inv legal => foldKeeps acts (fun _ _ a member inv => stepKeeps inv a (legal a member)) inv

end Steps

section Questions
variable {p : Program} {w : World} {k : Known}

theorem keptData {m : Map (BitVec 32) Nat} {given : List (Nat × Bool)} {m' : Map (BitVec 32) Nat}
    (iterates : m.Iterates (fun _ _ => false) given m') (data : Nat) : data ∈ given.map Prod.fst ↔ ∃ key, m key = some data := by
  obtain ⟨order,-,whole,rfl,-⟩ := iterates
  rw [choicesData, whole]

theorem datareqsIs {name : Text} {cs : List Nat} (named_ : ∀ c ∈ cs, (p.cmd c).name ≠ none) :
    datareqByName p name cs = some (cs.find? (named p name)) := by
  induction cs with
  | nil => rfl
  | cons c rest ih =>
    obtain ⟨own,is⟩ := Option.ne_none_iff_exists'.mp (named_ c List.mem_cons_self)
    have here : named p name c = strcaseEq own name := by
      rw [named, is]
      rfl
    rw [datareqByName, is]
    dsimp only
    rw [List.find?_cons, here]
    cases strcaseEq own name with
    | true => rfl
    | false => exact ih fun c member => named_ c (List.mem_cons_of_mem _ member)

theorem Inv.name (inv : Inv p w k) (datareqs : ∀ c ∈ k.datareqs, (p.cmd c).name ≠ none) (name : Text) :
    ∃ found, cmdXdrCmdByName p w name = some found ∧ k.Finds p name found := by
  have asked : ∃ given, tableCommands p w name = some given ∧ ∀ c, c ∈ given ↔ ∃ num, k.commands num = some c := by
    obtain ⟨zero,-,holds⟩ := inv.commands
    unfold tableCommands
    cases hash : w.xdrCommandHash with
    | none =>
      rw [hash] at holds
      refine ⟨[],rfl,fun c => ⟨fun member => absurd member List.not_mem_nil,?_⟩⟩
      rintro ⟨num,there⟩
      cases (holds num).symm.trans there
    | some buckets =>
      rw [hash] at holds
      obtain ⟨chains,represents⟩ := holds
      obtain ⟨buckets',chains',given,m',loops,iterates,-⟩ := iterateRefines represents fun _ _ => false
      have withArg : hashIterateArgTable p.commandTable buckets (fun (_ : Text) _ _ => false) name = some (buckets',given) := loops
      refine ⟨given.map Prod.fst,by dsimp only; rw [withArg]; rfl,fun c => ?_⟩
      rw [keptData iterates]
      constructor
      · rintro ⟨key,there⟩
        obtain ⟨num,-,is⟩ := Option.bind_eq_some_iff.mp there
        exact ⟨num,is⟩
      · rintro ⟨num,there⟩
        exact ⟨some num,there⟩
  obtain ⟨given,gives,members⟩ := asked
  rw [cmdXdrCmdByName, gives, Option.bind_some]
  have inside : ∀ c, c ∈ given.filter (named p name) ↔ ∃ num, k.commands num = some c ∧ named p name c = true := by
    intro c
    rw [List.mem_filter, members]
    exact exists_and_right.symm
  cases last : (given.filter (named p name)).getLast? with
  | none =>
    have empty := List.getLast?_eq_none_iff.mp last
    have none_ : ¬∃ num c, k.commands num = some c ∧ named p name c = true := by
      rintro ⟨num,c,there⟩
      have member := (inside c).mpr ⟨num,there⟩
      rw [empty] at member
      cases member
    refine ⟨k.datareqs.find? (named p name),?_,?_⟩
    · rw [inv.datareqs]
      exact datareqsIs datareqs
    · rw [Known.Finds, if_neg none_]
  | some c =>
    obtain ⟨num,there,own⟩ := (inside c).mp (List.mem_of_getLast? last)
    refine ⟨some c,rfl,?_⟩
    rw [Known.Finds, if_pos ⟨num,c,there,own⟩]
    exact ⟨num,c,there,own,rfl⟩

theorem Inv.knows (inv : Inv p w k) : Knows p w k where
  definition := inv.definition
  number := inv.number
  message := by
    intro id
    have found : findIn p.errorTable w.xdrErrorHash id = some (k.errors id) := findIs inv.errors id
    rw [cmdErrorMessage, found]
    rfl
  name := inv.name
  replaced := by
    intro cb arg type
    obtain ⟨w',replaces,-⟩ := inv.replaced cb arg type
    rw [replaces]
    rfl
  written := ⟨inv.handler,inv.parameter,inv.populate⟩

end Questions

/- Whatever is registered, in any order and with any answers of malloc, the tables answer as the maps of
the registrations do. -/
theorem registrationsKnown (p : Program) (handler : Nat → Option Nat × Option Nat) (parameter : Nat → Option Nat)
    (populate : Nat → Option Nat × Option Nat) (acts : List Action) (legal : ∀ a ∈ acts, Legal p a) :
    ∃ w, acts.foldlM (step p) (start handler parameter populate) = some w ∧
      Knows p w (acts.foldl (know p) (nothing handler parameter populate)) := by
  have begins : Inv p (start handler parameter populate) (nothing handler parameter populate) :=
    ⟨⟨rfl,rfl,fun _ => rfl⟩,⟨rfl,rfl,fun _ => rfl⟩,⟨rfl,rfl,fun _ => rfl⟩,rfl,rfl,rfl,rfl⟩
  obtain ⟨w,runs,inv⟩ := runKeeps acts begins legal
  exact ⟨w,runs,inv.knows⟩

def samplePlan : Program :=
  ⟨fun c => ⟨BitVec.ofNat 32 (c % 3 + 1),7,some ['a'],false⟩,fun e => ⟨BitVec.ofNat 32 e,none,none⟩,fun d => BitVec.ofNat 32 d,
    fun _ => true⟩

def sampleActions : List Action :=
  [.registerStruct (some 7) ⟨true,true⟩,.registerCommand (some 0) false ⟨true,true⟩,.registerCommand (some 3) true ⟨false,true⟩,
    .setXdrCmdHandler 1 (some 5) none,.registerError (some 9) ⟨false,true⟩]

theorem sampleKnown : ∃ w, sampleActions.foldlM (step samplePlan) (start (fun _ => (none,none)) (fun _ => none) fun _ => (none,none)) = some w ∧
    Knows samplePlan w (sampleActions.foldl (know samplePlan) (nothing (fun _ => (none,none)) (fun _ => none) fun _ => (none,none))) := by
  refine registrationsKnown samplePlan _ _ _ sampleActions ?_
  simp [sampleActions,Legal,samplePlan]

end LibProc.Registries
