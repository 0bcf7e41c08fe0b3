import LibProc.XdrBytes
import Mathlib.Logic.Function.Basic

/-! The legacy commands of cmd.c, one byte each. Their table is allocated and not cleared;
the start-up, the configuration file and CMD_set_cmd_handler each write a part of an entry. -/
namespace LibProc.LegacyCommands
open XdrBytes (Byte)

def maxNumCmds : Nat := 256
def cmdStatusRequest : Nat := 1
def cmdProtected : BitVec 32 := 1

inductive Handler where
  | invalidCommand
  | fakeStatusCommand
  | function (address : Nat)
  deriving DecidableEq, Repr

structure Command where
  cmdCb : Option Handler
  uid : BitVec 32
  group : BitVec 32
  prot : BitVec 32
  deriving DecidableEq, Repr

abbrev Table := Fin maxNumCmds → Command

inductive Stop where
  | noTable
  | outside (index : Nat)
  | nullCall
  deriving DecidableEq, Repr

structure CommandDesc where
  funcName : Option String
  cmdNum : BitVec 32
  deriving DecidableEq, Repr

def writeEntry (table : Table) (index : Nat) (change : Command → Command) : Except Stop Table :=
  if inside : index < maxNumCmds then
    .ok (Function.update table ⟨index,inside⟩ (change (table ⟨index,inside⟩)))
  else .error (.outside index)

def registerDesc (dlsym : Option String → Option Nat) (table : Table) (cmd : CommandDesc) : Except Stop Table :=
  match dlsym cmd.funcName with
  | none => .ok table
  | some address => writeEntry table cmd.cmdNum.toNat fun entry => { entry with cmdCb := some (.function address) }

def defaultHandler (index : Nat) : Handler :=
  if index = cmdStatusRequest then .fakeStatusCommand else .invalidCommand

def cmdHandlerInit (memory : Option Table) (dlsym : Option String → Option Nat) (cmds : List CommandDesc) :
    Except Stop Table :=
  match memory with
  | none => .error .noTable
  | some block => cmds.foldlM (registerDesc dlsym) fun i => { block i with cmdCb := some (defaultHandler i) }

structure SetCall where
  cmdNum : Int
  handler : Option Handler
  uid : BitVec 32
  group : BitVec 32
  protection : BitVec 32
  deriving DecidableEq, Repr

def cmdSetCmdHandler (table : Table) (call : SetCall) : Table × Int :=
  if inside : 0 ≤ call.cmdNum ∧ call.cmdNum.toNat < maxNumCmds then
    (Function.update table ⟨call.cmdNum.toNat,inside.2⟩ ⟨call.handler,call.uid,call.group,call.protection⟩,0)
  else (table,-1)

structure Called where
  handler : Handler
  cmd : Byte
  data : List Byte
  deriving DecidableEq, Repr

def cmdHandlerCb (table : Table) (cmd : Byte) (data : List Byte) : Except Stop (Option Called) :=
  let entry := table ⟨cmd.toNat,cmd.isLt⟩
  if entry.prot = cmdProtected then .ok none
  else match entry.cmdCb with
    | none => .error .nullCall
    | some handler => .ok (some ⟨handler,cmd,data⟩)

def receive (memory : Option Table) (dlsym : Option String → Option Nat) (cmds : List CommandDesc) (calls : List SetCall)
    (cmd : Byte) (data : List Byte) : Except Stop (Option Called) := do
  let table ← cmdHandlerInit memory dlsym cmds
  cmdHandlerCb (calls.foldl (fun table call => (cmdSetCmdHandler table call).1) table) cmd data

structure Registration where
  handler : Option Handler
  protected_ : Bool
  deriving DecidableEq, Repr

def descRegistration (dlsym : Option String → Option Nat) (c : Nat) (cmd : CommandDesc) : Option Registration :=
  if cmd.cmdNum.toNat = c then (dlsym cmd.funcName).map fun address => ⟨some (.function address),false⟩ else none

def callRegistration (c : Nat) (call : SetCall) : Option Registration :=
  if call.cmdNum = c then some ⟨call.handler,call.protection = cmdProtected⟩ else none

def lastRegistration (dlsym : Option String → Option Nat) (cmds : List CommandDesc) (calls : List SetCall) (c : Nat) :
    Registration :=
  ((cmds.filterMap (descRegistration dlsym c) ++ calls.filterMap (callRegistration c)).getLast?).getD
    ⟨some (defaultHandler c),false⟩

/- The registrations alone decide: the handler of the last one is called once with the rest of
the packet, and none if it is protected. -/
def Decided (last : Registration) (cmd : Byte) (data : List Byte) (outcome : Except Stop (Option Called)) : Prop :=
  if last.protected_ then outcome = .ok none
  else ∃ handler, last.handler = some handler ∧ outcome = .ok (some ⟨handler,cmd,data⟩)

def NumbersInside (dlsym : Option String → Option Nat) (cmds : List CommandDesc) : Prop :=
  ∀ cmd ∈ cmds, (dlsym cmd.funcName).isSome = true → cmd.cmdNum.toNat < maxNumCmds

section
variable {dlsym : Option String → Option Nat} {c : Fin maxNumCmds}

theorem getLastCons {α : Type} (a init : α) (l : List α) : ((a :: l).getLast?).getD init = l.getLast?.getD a := by
  rw [List.getLast?_cons, Option.getD_some]

theorem registerDescEntry {table table' : Table} {cmd : CommandDesc} (done : registerDesc dlsym table cmd = .ok table') :
    (table' c).prot = (table c).prot ∧
      (table' c).cmdCb = ((descRegistration dlsym c cmd).map Registration.handler).getD (table c).cmdCb := by
  unfold registerDesc at done
  unfold descRegistration
  cases found : dlsym cmd.funcName with
  | none =>
    rw [found] at done
    cases done
    simp
  | some address =>
    simp only [found,writeEntry] at done
    split at done
    · rename_i inside
      cases done
      by_cases same : cmd.cmdNum.toNat = c
      · have here : c = ⟨cmd.cmdNum.toNat,inside⟩ := Fin.ext same.symm
        subst here
        simp
      · have other : c ≠ ⟨cmd.cmdNum.toNat,inside⟩ := fun is => same (by rw [is])
        simp [Function.update_of_ne other,same]
    · cases done

theorem registerDescOk {table : Table} {cmd : CommandDesc} :
    (∃ table', registerDesc dlsym table cmd = .ok table') ↔
      ((dlsym cmd.funcName).isSome = true → cmd.cmdNum.toNat < maxNumCmds) := by
  unfold registerDesc
  cases dlsym cmd.funcName with
  | none => simp
  | some address =>
    by_cases inside : cmd.cmdNum.toNat < maxNumCmds
    · simp [writeEntry,inside]
    · simp [writeEntry,inside]

theorem configEntry {cmds : List CommandDesc} {table table' : Table}
    (done : cmds.foldlM (registerDesc dlsym) table = .ok table') :
    (table' c).prot = (table c).prot ∧
      (table' c).cmdCb =
        ((cmds.filterMap (descRegistration dlsym c)).map Registration.handler).getLast?.getD (table c).cmdCb := by
  induction cmds generalizing table with
  | nil =>
    cases done
    exact ⟨rfl,rfl⟩
  | cons cmd rest ih =>
    rw [List.foldlM_cons] at done
    cases first : registerDesc dlsym table cmd with
    | error stop =>
      rw [first] at done
      cases done
    | ok middle =>
      rw [first] at done
      obtain ⟨prot,cmdCb⟩ := ih done
      obtain ⟨sameProt,sameCb⟩ := @registerDescEntry dlsym c _ _ _ first
      refine ⟨prot.trans sameProt,cmdCb.trans ?_⟩
      rw [sameCb, List.filterMap_cons]
      cases descRegistration dlsym c cmd with
      | none => rfl
      | some registration =>
        rw [List.map_cons, getLastCons]
        rfl

theorem configOk {cmds : List CommandDesc} {table : Table} :
    (∃ table', cmds.foldlM (registerDesc dlsym) table = .ok table') ↔ NumbersInside dlsym cmds := by
  induction cmds generalizing table with
  | nil => simp [NumbersInside,pure,Except.pure]
  | cons cmd rest ih =>
    rw [NumbersInside, List.forall_mem_cons, ← @registerDescOk dlsym table, List.foldlM_cons]
    cases registerDesc dlsym table cmd with
    | error stop => simp [bind,Except.bind]
    | ok middle =>
      simp only [bind,Except.bind,Except.ok.injEq,exists_eq',true_and]
      exact ih

theorem setEntry (table : Table) (call : SetCall) :
    ((cmdSetCmdHandler table call).1 c).cmdCb =
        ((callRegistration c call).map Registration.handler).getD (table c).cmdCb ∧
      (((cmdSetCmdHandler table call).1 c).prot = cmdProtected ↔
        ((callRegistration c call).map Registration.protected_).getD (decide ((table c).prot = cmdProtected)) = true) := by
  unfold cmdSetCmdHandler callRegistration
  by_cases same : call.cmdNum = (c : Nat)
  · have inside : 0 ≤ call.cmdNum ∧ call.cmdNum.toNat < maxNumCmds := by omega
    have here : c = ⟨call.cmdNum.toNat,inside.2⟩ := Fin.ext (by simp [same])
    rw [dif_pos inside, if_pos same, here]
    simp
  · rw [if_neg same]
    split
    · rename_i inside
      have other : c ≠ ⟨call.cmdNum.toNat,inside.2⟩ := by
        intro is
        have value := congrArg Fin.val is
        simp only at value
        omega
      simp [Function.update_of_ne other]
    · simp

theorem setEntries (calls : List SetCall) (table : Table) :
    ((calls.foldl (fun table call => (cmdSetCmdHandler table call).1) table) c).cmdCb =
        ((calls.filterMap (callRegistration c)).map Registration.handler).getLast?.getD (table c).cmdCb ∧
      (((calls.foldl (fun table call => (cmdSetCmdHandler table call).1) table) c).prot = cmdProtected ↔
        ((calls.filterMap (callRegistration c)).map Registration.protected_).getLast?.getD
          (decide ((table c).prot = cmdProtected)) = true) := by
  induction calls generalizing table with
  | nil => simp
  | cons call rest ih =>
    obtain ⟨cmdCb,prot⟩ := ih (cmdSetCmdHandler table call).1
    obtain ⟨firstCb,firstProt⟩ := @setEntry c table call
    have flag : decide (((cmdSetCmdHandler table call).1 c).prot = cmdProtected) =
        ((callRegistration c call).map Registration.protected_).getD (decide ((table c).prot = cmdProtected)) := by
      rw [Bool.eq_iff_iff, decide_eq_true_iff]
      exact firstProt
    rw [List.foldl_cons, cmdCb, prot, firstCb, flag, List.filterMap_cons]
    cases callRegistration c call with
    | none => exact ⟨rfl,Iff.rfl⟩
    | some registration =>
      rw [List.map_cons, List.map_cons, getLastCons, getLastCons]
      exact ⟨rfl,Iff.rfl⟩

theorem lastHandler (cmds : List CommandDesc) (calls : List SetCall) :
    (lastRegistration dlsym cmds calls c).handler =
      ((calls.filterMap (callRegistration c)).map Registration.handler).getLast?.getD
        (((cmds.filterMap (descRegistration dlsym c)).map Registration.handler).getLast?.getD (some (defaultHandler c))) := by
  rw [lastRegistration, List.getLast?_append, List.getLast?_map, List.getLast?_map]
  cases (calls.filterMap (callRegistration c)).getLast? with
  | some last => rfl
  | none =>
    cases (cmds.filterMap (descRegistration dlsym c)).getLast? with
    | some last => rfl
    | none => rfl

theorem lastProtected (cmds : List CommandDesc) (calls : List SetCall) :
    (lastRegistration dlsym cmds calls c).protected_ =
      ((calls.filterMap (callRegistration c)).map Registration.protected_).getLast?.getD false := by
  rw [lastRegistration, List.getLast?_append, List.getLast?_map]
  cases (calls.filterMap (callRegistration c)).getLast? with
  | some last => rfl
  | none =>
    cases found : (cmds.filterMap (descRegistration dlsym c)).getLast? with
    | none => rfl
    | some last =>
      obtain ⟨cmd,-,is⟩ := List.mem_filterMap.mp (List.mem_of_getLast? found)
      unfold descRegistration at is
      split at is
      · obtain ⟨address,-,rfl⟩ := Option.map_eq_some_iff.mp is
        rfl
      · cases is

theorem uncalledNone {calls : List SetCall} (uncalled : ¬ ∃ call ∈ calls, call.cmdNum = (c : Nat)) :
    calls.filterMap (callRegistration c) = [] := by
  rw [List.filterMap_eq_nil_iff]
  intro call member
  exact if_neg fun same => uncalled ⟨call,member,same⟩

theorem receivedEntry {block table : Table} {cmds : List CommandDesc} (calls : List SetCall)
    (done : cmdHandlerInit (some block) dlsym cmds = .ok table) :
    ((calls.foldl (fun table call => (cmdSetCmdHandler table call).1) table) c).cmdCb =
        (lastRegistration dlsym cmds calls c).handler ∧
      (((calls.foldl (fun table call => (cmdSetCmdHandler table call).1) table) c).prot = cmdProtected ↔
        if ∃ call ∈ calls, call.cmdNum = (c : Nat) then (lastRegistration dlsym cmds calls c).protected_ = true
        else (block c).prot = cmdProtected) := by
  obtain ⟨prot,cmdCb⟩ := @configEntry dlsym c _ _ _ done
  obtain ⟨setCb,setProt⟩ := @setEntries c calls table
  rw [lastHandler, lastProtected, setCb, cmdCb, setProt, prot]
  refine ⟨rfl,?_⟩
  by_cases called : ∃ call ∈ calls, call.cmdNum = (c : Nat)
  · rw [if_pos called]
    obtain ⟨call,member,same⟩ := called
    have one : callRegistration c call = some ⟨call.handler,call.protection = cmdProtected⟩ := if_pos same
    have some_ : calls.filterMap (callRegistration c) ≠ [] :=
      List.ne_nil_of_mem (List.mem_filterMap.mpr ⟨call,member,one⟩)
    rw [List.getLast?_map, List.getLast?_eq_some_getLast some_]
    rfl
  · rw [if_neg called]
    simp [uncalledNone called]

end

/- The table is there, no number of the file is outside it, the last handler is not a NULL pointer,
and, unless CMD_set_cmd_handler wrote the entry, its memory does not happen to say protected. -/
def Determined (memory : Option Table) (dlsym : Option String → Option Nat) (cmds : List CommandDesc)
    (calls : List SetCall) (cmd : Byte) : Prop :=
  ∃ block, memory = some block ∧ NumbersInside dlsym cmds ∧
    ((lastRegistration dlsym cmds calls cmd.toNat).protected_ = true ∨
      (lastRegistration dlsym cmds calls cmd.toNat).handler ≠ none) ∧
    ((∃ call ∈ calls, call.cmdNum = cmd.toNat) ∨ (block ⟨cmd.toNat,cmd.isLt⟩).prot ≠ cmdProtected)

theorem unprotected {dlsym : Option String → Option Nat} {cmds : List CommandDesc} {calls : List SetCall}
    {c : Fin maxNumCmds} (uncalled : ¬ ∃ call ∈ calls, call.cmdNum = (c : Nat)) :
    (lastRegistration dlsym cmds calls c).protected_ = false := by
  rw [lastProtected, uncalledNone uncalled]
  rfl

theorem dispatchDecided (memory : Option Table) (dlsym : Option String → Option Nat) (cmds : List CommandDesc)
    (calls : List SetCall) (cmd : Byte) (data : List Byte) :
    Decided (lastRegistration dlsym cmds calls cmd.toNat) cmd data (receive memory dlsym cmds calls cmd data) ↔
      Determined memory dlsym cmds calls cmd := by
  have stops : ∀ {last : Registration} {stop : Stop}, ¬ Decided last cmd data (.error stop) := by
    intro last stop decided
    unfold Decided at decided
    split at decided
    · cases decided
    · obtain ⟨handler,-,is⟩ := decided
      cases is
  cases memory with
  | none => exact iff_of_false stops (by rintro ⟨block,is,-⟩; cases is)
  | some block =>
    by_cases inside : NumbersInside dlsym cmds
    · obtain ⟨table,done⟩ : ∃ table, cmdHandlerInit (some block) dlsym cmds = .ok table := configOk.mpr inside
      obtain ⟨cmdCb,prot⟩ := @receivedEntry dlsym ⟨cmd.toNat,cmd.isLt⟩ _ _ _ calls done
      simp only [Determined,Option.some.injEq,exists_eq_left',inside,true_and]
      simp only [receive,done,bind,Except.bind,cmdHandlerCb,cmdCb]
      by_cases called : ∃ call ∈ calls, call.cmdNum = cmd.toNat
      · rw [if_pos called] at prot
        simp only [prot]
        generalize lastRegistration dlsym cmds calls cmd.toNat = last
        rw [Decided]
        by_cases protected_ : last.protected_ = true
        · simp [protected_,called]
        · rw [if_neg protected_, if_neg protected_]
          cases last.handler with
          | none => simp [protected_]
          | some handler => simp [called]
      · have open_ := @unprotected dlsym cmds calls ⟨cmd.toNat,cmd.isLt⟩ called
        simp only at open_
        rw [if_neg called] at prot
        simp only [prot]
        rw [Decided, open_, if_neg (by simp)]
        by_cases garbage : (block ⟨cmd.toNat,cmd.isLt⟩).prot = cmdProtected
        · simp [garbage,called]
        · rw [if_neg garbage]
          cases (lastRegistration dlsym cmds calls cmd.toNat).handler with
          | none => simp
          | some handler => simp [garbage]
    · refine iff_of_false ?_ fun determined => inside determined.choose_spec.2.1
      cases done : cmdHandlerInit (some block) dlsym cmds with
      | error stop =>
        simp only [receive,done,bind,Except.bind]
        exact stops
      | ok table => exact absurd (configOk.mp ⟨table,done⟩) inside

def libraryFunction : Option String → Option Nat := fun name => if name = some "reboot" then some 500 else none

def dirty : Table := fun _ => ⟨none,9,9,cmdProtected⟩

theorem programHandlerDecides :
    receive (some dirty) libraryFunction [⟨some "reboot",5⟩] [⟨7,some (.function 700),0,0,0⟩] 7 [1,2] =
      .ok (some ⟨.function 700,7,[1,2]⟩) := by
  have decided := (dispatchDecided (some dirty) libraryFunction [⟨some "reboot",5⟩] [⟨7,some (.function 700),0,0,0⟩] 7 [1,2]).mpr
    ⟨dirty,rfl,by intro cmd member; simp_all [maxNumCmds],.inr (by decide),.inl ⟨_,List.mem_singleton.mpr rfl,rfl⟩⟩
  obtain ⟨handler,is,outcome⟩ := decided
  cases is
  exact outcome

/- The memory of entry 5 happens to say protected, and the function of the file is not called; the
number 300 is outside the table. -/
theorem dirtyMemoryDecides :
    ¬ Decided (lastRegistration libraryFunction [⟨some "reboot",5⟩] [] 5) 5 [1,2]
        (receive (some dirty) libraryFunction [⟨some "reboot",5⟩] [] 5 [1,2]) ∧
      receive (some dirty) libraryFunction [⟨some "reboot",300⟩] [] 5 [1,2] = .error (.outside 300) := by
  refine ⟨?_,rfl⟩
  rintro ⟨handler,is,outcome⟩
  cases outcome

end LibProc.LegacyCommands
