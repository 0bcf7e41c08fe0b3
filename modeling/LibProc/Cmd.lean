import LibProc.Ipc
import LibProc.Runs
import LibProc.SchedRemove

/-! cmd.c: the requests a process waits on. A request is a `CMDResponseCb` in the list
`cmds->resp`, with a timeout event that has it as argument. Its callback is foreign
code and may make further requests, so the functions that call it are cut there; the
rest of them runs when it returns. `called` records the calls, newest first, and is
not part of the process. -/
namespace LibProc.Requests
open PriorityQueue Scheduler SchedRemove XdrBytes Xdr Ipc

abbrev RequestId := Nat

inductive CbType where
  | cooked
  | raw
  deriving DecidableEq, Repr

structure ResponseCb where
  id : BitVec 32
  host : Address
  cbType : CbType
  toEvt : Option EventId
  deriving DecidableEq, Repr

inductive Running where
  | nothing
  | response (state : RequestId) (resp : Option (StructDefinition × Val))
  | timeout (state : RequestId) (evt : EventId) (curTime : Timeval)

def Running.isNothing : Running → Bool
  | .nothing => true
  | _ => false

structure Process where
  ctx : EventState RequestId
  states : RequestId → ResponseCb
  fresh : RequestId
  resp : List RequestId
  nextCmdRef : BitVec 32
  running : Running
  called : List (RequestId × Bool)
  alive : Bool

def setToEvt (p : Process) (s : RequestId) (evt : Option EventId) : Process :=
  {p with states := Function.update p.states s {p.states s with toEvt := evt}}

structure Call where
  env : Env
  fuel : Nat
  heap : Heap
  command : BitVec 32
  paramType : BitVec 32
  params : Val
  dest : Address
  cbType : CbType
  timeout : BitVec 32
  now : Timeval
  malloc : Bool
  evtMalloc : Bool
  grow : Bool

/- The malloc of the state is not checked before memset. -/
def cmdAddResponseCb (p : Process) (id : BitVec 32) (c : Call) : Process :=
  if c.malloc then
    let state := p.fresh
    let p := {p with
      states := Function.update p.states state ⟨id,c.dest,c.cbType,none⟩, fresh := state + 1, resp := state :: p.resp}
    if c.timeout = 0 then p
    else
      let r := evtSchedAdd p.ctx c.evtMalloc c.grow c.now (evtMs2tv c.timeout.toInt) state
      setToEvt {p with ctx := r.2} state r.1
  else {p with alive := false}

def ipcCommand (p : Process) (c : Call) : Process :=
  match ipcCommandInternal c.env c.fuel c.heap p.nextCmdRef true c.command c.paramType c.params c.dest with
  | .error _ => {p with alive := false}
  | .ok (none,next) => {p with nextCmdRef := next}
  | .ok (some _,next) => cmdAddResponseCb {p with nextCmdRef := next} p.nextCmdRef c

def responseHeaderFields : FieldList :=
  .cons (.scalar .int32) 0 0 (.cons (.scalar .uint32) 0 0 (.cons (.scalar .int32) 0 0 .nil))

def responseRef (env : Env) (data : List Byte) : Option (BitVec 32) :=
  match xdrStructDecoder env 0 responseHeaderFields data (.struct [.null,.null,.null]) data.length with
  | .error _ => none
  | .ok r =>
    if r.res < 0 then none
    else match r.dst with
      | .struct [.word cmd,.word ipcref,_] => if cmd = cmdsResponse then some ipcref else none
      | _ => none

def answered (p : Process) (env : Env) (data : List Byte) (src : Address) : Option RequestId :=
  match responseRef env data with
  | none => none
  | some ipcref => p.resp.find? fun s => (p.states s).id = ipcref ∧ (p.states s).host = src

def typesResponse : BitVec 32 := 0x01000104

/- The response a cooked callback is given. `none` is a packet that is not one: nobody
registered the type, there is no memory, or the packet does not decode. -/
def cookResponse (env : Env) (data : List Byte) : Except Stop (Option (StructDefinition × Val)) :=
  match env.definitionForType typesResponse with
  | none => .ok none
  | some d =>
    if d.inMemorySize = 0 ∨ env.alloc [] = false then .ok none
    else do
      let r ← enterDecoder env (data.length + 1) d data (.struct (zerosOf d.fields)) 0 data.length none [0]
      if r.res < 0 then
        structFreeDeallocator env d.fields r.dst
        .ok none
      else .ok (some (d,r.dst))

def removeTimer (p : Process) (s : RequestId) : Process :=
  match (p.states s).toEvt with
  | none => {p with running := .nothing}
  | some e => setToEvt {p with ctx := (evtSchedRemove p.ctx e).2, running := .nothing} s none

def callBack (p : Process) (s : RequestId) (timedOut : Bool) (running : Running) : Process :=
  {p with called := (s,timedOut) :: p.called, running := running}

def cmdResolveCallback (p : Process) (env : Env) (data : List Byte) (s : RequestId) : Process :=
  match (p.states s).cbType with
  | .raw => callBack p s false (.response s none)
  | .cooked => match cookResponse env data with
    | .error _ => {p with alive := false}
    | .ok none => removeTimer p s
    | .ok (some resp) => callBack p s false (.response s (some resp))

def cmdHandleXdrResponse (p : Process) (env : Env) (data : List Byte) (src : Address) : Process :=
  match answered p env data src with
  | none => p
  | some s => cmdResolveCallback {p with resp := p.resp.erase s} env data s

def responseTimeoutCb (p : Process) (e : EventId) (curTime : Timeval) : Process :=
  let s := (p.ctx.events e).call
  callBack {p with resp := p.resp.erase s} s true (.timeout s e curTime)

def fire (p : Process) (now : Timeval) : Process :=
  match fireTimedEvent p.ctx now with
  | (some (e,true),ctx) => responseTimeoutCb {p with ctx := ctx} e now
  | (_,ctx) => {p with ctx := ctx}

def resume (p : Process) (env : Env) : Process :=
  match p.running with
  | .nothing => p
  | .response s none => removeTimer p s
  | .response s (some (d,v)) => match structFreeDeallocator env d.fields v with
    | .error _ => {p with alive := false}
    | .ok _ => removeTimer p s
  | .timeout s e curTime =>
    setToEvt {p with ctx := finishTimedEvent p.ctx e curTime false false, running := .nothing} s none

inductive Action where
  | command (c : Call)
  | packet (env : Env) (data : List Byte) (src : Address)
  | fire (now : Timeval)
  | ret (env : Env)

def step (p : Process) : Action → Process
  | .command c => ipcCommand p c
  | .packet env data src => cmdHandleXdrResponse p env data src
  | .fire now => fire p now
  | .ret env => resume p env

def start (hashSize : Nat) (events : Memory RequestId) (d dbg : Nat → EventId) (states : RequestId → ResponseCb) :
    Process :=
  ⟨evtInitWithSize hashSize events d dbg,states,0,[],1,.nothing,[],true⟩

def times (p : Process) (s : RequestId) : Nat := p.called.countP fun call => call.1 == s

def decodes (env : Env) (data : List Byte) : Bool :=
  match cookResponse env data with
  | .ok (some _) => true
  | _ => false

end LibProc.Requests
