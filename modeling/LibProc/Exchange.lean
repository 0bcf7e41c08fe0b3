import LibProc.Delivery
import LibProc.Responses

/-! Any number of processes that send each other the commands and the responses of ipc.c. What was
sent may arrive late, in any order, more than once or never, and others may send whatever they like
from addresses of their own. `net` are all datagrams that were ever sent, and `log` is what became of
those that arrived, newest first. -/
namespace LibProc.Exchange
open XdrBytes Xdr Ipc Runs
open Requests (RequestId)
open Receives (maxIpPacketSize Stack)

/- Why a datagram was sent. The commands of a process are numbered from 1 on; a reply is to the
datagram at a position. -/
inductive Origin where
  | command (number : Nat) (request : Option RequestId)
  | reply (position : Nat)
  | legacy
  | foreign

structure Datagram where
  src : Address
  dest : Address
  bytes : List Byte
  origin : Origin

structure Node where
  requests : Requests.Process
  count : Nat

inductive Event (N : Type) where
  | handled (node : N) (position : Nat) (command : Val)
  | answered (node : N) (request : RequestId) (position : Nat)

structure World (N : Type) where
  nodes : N → Node
  net : List Datagram
  log : List (Event N)

inductive Reply where
  | response (env : Env) (fuel : Nat) (heap : Heap) (paramType : BitVec 32) (params : Val)
  | error (env : Env) (fuel : Nat) (heap : Heap) (errCode : BitVec 32)

/- `cb` is false for a command without a callback. The tables of a process may change between two
packets. -/
inductive Action (N : Type) where
  | command (node : N) (src : Address) (cb : Bool) (c : Requests.Call)
  | reply (node : N) (src : Address) (position : Nat) (command : Val) (reply : Reply)
  | legacy (node : N) (src dest : Address) (cmd : Byte) (data : List Byte)
  | foreign (src dest : Address) (bytes : List Byte)
  | deliver (node : N) (position : Nat) (p : Receives.Process) (stack : Stack)
  | fire (node : N) (now : Timeval)
  | ret (node : N) (env : Env)

section Steps
variable {N : Type}

def World.requests (w : World N) (node : N) : Requests.Process := (w.nodes node).requests

def World.post (w : World N) (d : Datagram) : World N := {w with net := w.net ++ [d]}

def World.note (w : World N) (event : Event N) : World N := {w with log := event :: w.log}

variable [DecidableEq N]

def World.set (w : World N) (node : N) (n : Node) : World N := {w with nodes := Function.update w.nodes node n}

def World.setRequests (w : World N) (node : N) (p : Requests.Process) : World N :=
  w.set node {w.nodes node with requests := p}

def crash (w : World N) (node : N) : World N := w.setRequests node {w.requests node with alive := false}

def rawSockaddr (w : World N) (src : Address) (origin : Origin) (handed : Handed) : World N :=
  match handed.packet.buff with
  | none => w
  | some buff => w.post ⟨src,handed.dest,buff.take handed.packet.len,origin⟩

def issued (p : Requests.Process) (cb : Bool) (c : Requests.Call) (next : BitVec 32) : Requests.Process :=
  if cb then Requests.ipcCommand p c else {p with nextCmdRef := next}

def requestOf (p : Requests.Process) (cb : Bool) : Option RequestId := if cb then some p.fresh else none

def command (w : World N) (node : N) (src : Address) (cb : Bool) (c : Requests.Call) : World N :=
  let p := w.requests node
  let count := (w.nodes node).count + 1
  match ipcCommandInternal c.env c.fuel c.heap p.nextCmdRef true c.command c.paramType c.params c.dest with
  | .error _ => crash w node
  | .ok (handed,next) =>
    let w := w.set node ⟨issued p cb c next,count⟩
    match handed with
    | none => w
    | some handed => rawSockaddr w src (.command count (requestOf p cb)) handed

def ipcrefOf : Val → Option (BitVec 32)
  | .struct (_ :: .word ipcref :: _) => some ipcref
  | _ => none

def replySent (ipcref : BitVec 32) (dest : Address) : Reply → Except Stop (Option Handed)
  | .response env fuel heap paramType params => ipcResponse env fuel heap ipcref paramType params dest
  | .error env fuel heap errCode => ipcError env fuel heap ipcref errCode dest

def reply (w : World N) (node : N) (src : Address) (position : Nat) (command : Val) (r : Reply) : World N :=
  match w.net[position]?, ipcrefOf command with
  | some d, some ipcref => match replySent ipcref d.src r with
    | .error _ => crash w node
    | .ok none => w
    | .ok (some handed) => rawSockaddr w src (.reply position) handed
  | _, _ => w

/- A call of cmd_handler_cb for the datagram at a position. The IPC_error for a command without a
handler is a reply like those of handlers. -/
def act (node : N) (position : Nat) (p : Receives.Process) (w : World N) : Receives.Call → World N
  | .xdrResponse data len src =>
    let packet := data.take len.toNat
    let w' := w.setRequests node (Requests.cmdHandleXdrResponse (w.requests node) p.env packet src)
    match Requests.answered (w.requests node) p.env packet src with
    | none => w'
    | some s => w'.note (.answered node s position)
  | .xdrHandler _ command _ => w.note (.handled node position command)
  | .unsupported command _ => w.note (.handled node position command)
  | _ => w

def deliver (w : World N) (node : N) (position : Nat) (p : Receives.Process) (stack : Stack) : World N :=
  match w.net[position]? with
  | none => w
  | some d =>
    if fits : d.bytes.length ≤ maxIpPacketSize then
      let trace := Receives.cmdHandlerCb p .read stack (.packet d.bytes d.src fits)
      let w := trace.calls.foldl (act node position p) w
      if trace.returned then w else crash w node
    else w

def step (w : World N) : Action N → World N
  | .command node src cb c => command w node src cb c
  | .reply node src position command r => reply w node src position command r
  | .legacy _ src dest cmd data => w.post ⟨src,dest,cmd :: data,.legacy⟩
  | .foreign src dest bytes => w.post ⟨src,dest,bytes,.foreign⟩
  | .deliver node position p stack => deliver w node position p stack
  | .fire node now => w.setRequests node (Requests.fire (w.requests node) now)
  | .ret node env => w.setRequests node (Requests.resume (w.requests node) env)

end Steps

section Specification
variable {N : Type}

/- A process sends from its own addresses, makes fewer than 2^32 commands, none with the number of a
response, and answers what it was given; command 0 of the old format was never used. -/
def Legal (owner : Address → Option N) (w : World N) : Action N → Prop
  | .command node src _ c => (w.requests node).alive = true ∧ owner src = some node ∧ c.command ≠ cmdsResponse ∧
      (w.nodes node).count + 1 < 2 ^ 32
  | .reply node src position command _ => (w.requests node).alive = true ∧ owner src = some node ∧
      .handled node position command ∈ w.log
  | .legacy node src _ cmd _ => (w.requests node).alive = true ∧ owner src = some node ∧ cmd ≠ 0
  | .foreign src _ _ => owner src = none
  | .deliver node position _ _ => (w.requests node).alive = true ∧ (w.requests node).running.isNothing = true ∧
      ∃ d, w.net[position]? = some d ∧ owner d.dest = some node
  | .fire node _ => (w.requests node).alive = true ∧ (w.requests node).running.isNothing = true
  | .ret node _ => (w.requests node).alive = true ∧ (w.requests node).running.isNothing = false

def start (process : N → Requests.Process) : World N := ⟨fun node => ⟨process node,0⟩,[],[]⟩

def Started (p : Requests.Process) : Prop := p.resp = [] ∧ p.fresh = 0 ∧ p.nextCmdRef = 1

/- The datagram at `k` is a reply to the datagram the request was sent in, made by the process the
request was sent to, after that process had been given the command. -/
def Answers (owner : Address → Option N) (w : World N) (node : N) (s : RequestId) (k : Nat) (earlier : List (Event N)) : Prop :=
  ∀ peer, owner ((w.requests node).states s).host = some peer →
    ∃ d j d' number command, w.net[k]? = some d ∧ d.origin = .reply j ∧ owner d.src = some peer ∧
      w.net[j]? = some d' ∧ d'.origin = .command number (some s) ∧ owner d'.src = some node ∧
      d'.dest = ((w.requests node).states s).host ∧ .handled peer j command ∈ earlier

/- Every request is answered once at most, and then by a reply to it. -/
def Agreed (owner : Address → Option N) (w : World N) : Prop :=
  ∀ later node s k earlier, w.log = later ++ .answered node s k :: earlier →
    (∀ k', .answered node s k' ∉ earlier) ∧ Answers owner w node s k earlier

end Specification

structure Keeps (p q : Requests.Process) : Prop where
  next : q.nextCmdRef = p.nextCmdRef
  fresh : q.fresh = p.fresh
  id : ∀ s, (q.states s).id = (p.states s).id
  host : ∀ s, (q.states s).host = (p.states s).host
  resp : q.resp.Sublist p.resp

section Process
variable {p q : Requests.Process}

theorem Keeps.refl (p : Requests.Process) : Keeps p p := ⟨rfl,rfl,fun _ => rfl,fun _ => rfl,List.Sublist.refl _⟩

theorem Keeps.trans {r : Requests.Process} (second : Keeps q r) (first : Keeps p q) : Keeps p r where
  next := second.next.trans first.next
  fresh := second.fresh.trans first.fresh
  id s := (second.id s).trans (first.id s)
  host s := (second.host s).trans (first.host s)
  resp := second.resp.trans first.resp

theorem keepsFields (next : q.nextCmdRef = p.nextCmdRef) (fresh : q.fresh = p.fresh) (states : q.states = p.states)
    (resp : q.resp.Sublist p.resp) : Keeps p q :=
  ⟨next,fresh,fun s => by rw [states],fun s => by rw [states],resp⟩

theorem setToEvtKeeps (p : Requests.Process) (s : RequestId) (evt : Option Scheduler.EventId) : Keeps p (Requests.setToEvt p s evt) := by
  refine ⟨rfl,rfl,fun x => ?_,fun x => ?_,List.Sublist.refl _⟩
  all_goals
    simp only [Requests.setToEvt]
    by_cases same : x = s
    · rw [same, Function.update_self]
    · rw [Function.update_of_ne same]

theorem removeTimerKeeps (p : Requests.Process) (s : RequestId) : Keeps p (Requests.removeTimer p s) := by
  unfold Requests.removeTimer
  split
  · exact keepsFields rfl rfl rfl (List.Sublist.refl _)
  · exact (setToEvtKeeps _ s none).trans (keepsFields rfl rfl rfl (List.Sublist.refl _))

theorem resolveKeeps (p : Requests.Process) (env : Env) (data : List Byte) (s : RequestId) :
    Keeps p (Requests.cmdResolveCallback p env data s) := by
  unfold Requests.cmdResolveCallback
  split
  · exact keepsFields rfl rfl rfl (List.Sublist.refl _)
  · split
    · exact keepsFields rfl rfl rfl (List.Sublist.refl _)
    · exact removeTimerKeeps p s
    · exact keepsFields rfl rfl rfl (List.Sublist.refl _)

theorem responseKeeps (p : Requests.Process) (env : Env) (data : List Byte) (src : Address) :
    Keeps p (Requests.cmdHandleXdrResponse p env data src) := by
  unfold Requests.cmdHandleXdrResponse
  split
  · exact Keeps.refl p
  · exact (resolveKeeps _ env data _).trans (keepsFields rfl rfl rfl List.erase_sublist)

theorem fireKeeps (p : Requests.Process) (now : Timeval) : Keeps p (Requests.fire p now) := by
  unfold Requests.fire
  split
  · exact keepsFields rfl rfl rfl List.erase_sublist
  · exact keepsFields rfl rfl rfl (List.Sublist.refl _)

theorem resumeKeeps (p : Requests.Process) (env : Env) : Keeps p (Requests.resume p env) := by
  unfold Requests.resume
  split
  · exact Keeps.refl p
  · exact removeTimerKeeps p _
  · split
    · exact keepsFields rfl rfl rfl (List.Sublist.refl _)
    · exact removeTimerKeeps p _
  · exact (setToEvtKeeps _ _ none).trans (keepsFields rfl rfl rfl (List.Sublist.refl _))

theorem responseErases {env : Env} {data : List Byte} {src : Address} {s : RequestId}
    (found : Requests.answered p env data src = some s) :
    (Requests.cmdHandleXdrResponse p env data src).resp.Sublist (p.resp.erase s) := by
  simp only [Requests.cmdHandleXdrResponse,found]
  exact (resolveKeeps {p with resp := p.resp.erase s} env data s).resp

theorem responseRefHeader {env : Env} {data : List Byte} {ipcref : BitVec 32} (read : Requests.responseRef env data = some ipcref) :
    data.take 8 = header cmdsResponse ipcref := by
  unfold Requests.responseRef at read
  split at read
  · cases read
  · rename_i r done
    split at read
    · cases read
    · rename_i good
      obtain ⟨-,command,number,later,is,begins⟩ := headerDecoded ⟨_,rfl⟩ (not_lt.mp good) done
      rw [is] at read
      split at read
      · rename_i cells
        cases cells
        split at read
        · rename_i isResponse
          cases read
          rw [begins, isResponse]
        · cases read
      · cases read

inductive Adds (p q : Requests.Process) (dest : Address) (request : Option RequestId) : Prop where
  | kept (fresh : q.fresh = p.fresh) (states : q.states = p.states) (resp : q.resp = p.resp)
  | asked (request : request = some p.fresh) (fresh : q.fresh = p.fresh + 1) (resp : q.resp = p.fresh :: p.resp)
      (others : ∀ s, s ≠ p.fresh → q.states s = p.states s) (id : (q.states p.fresh).id = p.nextCmdRef)
      (host : (q.states p.fresh).host = dest)

theorem commandNext {c : Requests.Call} {nextCmdRef next : BitVec 32} {handed : Option Handed}
    (sent : ipcCommandInternal c.env c.fuel c.heap nextCmdRef true c.command c.paramType c.params c.dest = .ok (handed,next)) :
    next = nextCmdRef + 1 := by
  simp only [ipcCommandInternal] at sent
  cases out : growAndRetry c.env c.fuel c.heap commandFields [.word c.command,.word nextCmdRef,.union c.paramType c.params] with
  | error stop =>
    rw [out] at sent
    cases sent
  | ok packet =>
    rw [out] at sent
    cases sent
    rfl

theorem issuedAdds (p : Requests.Process) (cb : Bool) (c : Requests.Call) {handed : Option Handed} {next : BitVec 32}
    (sent : ipcCommandInternal c.env c.fuel c.heap p.nextCmdRef true c.command c.paramType c.params c.dest = .ok (handed,next)) :
    (issued p cb c next).nextCmdRef = next ∧ Adds p (issued p cb c next) c.dest (requestOf p cb) := by
  cases cb with
  | false => exact ⟨rfl,.kept rfl rfl rfl⟩
  | true => ?_
  simp only [issued,requestOf,Requests.ipcCommand,sent,if_true]
  cases handed with
  | none => exact ⟨rfl,.kept rfl rfl rfl⟩
  | some handed =>
    simp only [Requests.cmdAddResponseCb]
    split
    · split
      · exact ⟨rfl,.asked rfl rfl rfl (fun s other => Function.update_of_ne other _ _) (by simp) (by simp)⟩
      · refine ⟨rfl,.asked rfl rfl rfl (fun s other => ?_) ?_ ?_⟩
        · simp only [Requests.setToEvt]
          rw [Function.update_of_ne other, Function.update_of_ne other]
        · simp [Requests.setToEvt]
        · simp [Requests.setToEvt]
    · exact ⟨rfl,.kept rfl rfl rfl⟩

end Process

section Received
variable {p : Receives.Process} {stack : Stack} {d : Datagram}

def Concerns (d : Datagram) : Receives.Call → Prop
  | .xdrResponse data len src => data.take len.toNat = d.bytes ∧ src = d.src
  | .xdrHandler _ command _ | .unsupported command _ => ∃ number ipcref, number ≠ cmdsResponse ∧
      ipcrefOf command = some ipcref ∧ d.bytes.take 8 = header number ipcref ∧ d.bytes.head? = some 0
  | _ => True

theorem commandConcerns {data : List Byte} {cmdNum : BitVec 32} {word xdrCmd : Decoded} (front : data.take d.bytes.length = d.bytes)
    (zero : data.headD 0 = 0) (first : decodeUint32 data (.word cmdNum) 0 d.bytes.length none [] = .ok word)
    (other : wordAt p.env (some word.dst) ≠ cmdsResponse) (good : 0 ≤ xdrCmd.res)
    (done : xdrStructDecoder p.env p.fuel commandFields data (.struct (uninitsOf commandFields)) d.bytes.length = .ok xdrCmd) :
    ∃ number ipcref, number ≠ cmdsResponse ∧ ipcrefOf xdrCmd.dst = some ipcref ∧ d.bytes.take 8 = header number ipcref ∧
      d.bytes.head? = some 0 := by
  obtain ⟨room,number,ipcref,later,is,begins⟩ := headerDecoded commandHeaded good done
  have same : d.bytes.take 8 = header number ipcref := by
    rw [← begins, ← congrArg (List.take 8) front, List.take_take, Nat.min_eq_left room]
  have four : data.take 4 = beBytes number := by
    have half := congrArg (List.take 4) begins
    rw [List.take_take] at half
    exact half
  have fine : 0 ≤ word.res := by
    simp only [decodeUint32] at first
    unfold decodeWord at first
    rw [if_neg (by omega)] at first
    cases bytes : Xdr.get 4 data with
    | error stop =>
      rw [bytes] at first
      cases first
    | ok net =>
      rw [bytes] at first
      cases first
      exact le_rfl
  obtain ⟨-,-,-,read⟩ := wordRead first fine
  rw [read, four, beWordBytes] at other
  refine ⟨number,ipcref,other,by rw [is]; rfl,same,?_⟩
  rw [← front, List.head?_take, if_neg (by omega)]
  cases data with
  | nil =>
    rw [List.take_nil] at four
    cases four
  | cons b rest => exact congrArg some zero

theorem xdrConcerns {fits : d.bytes.length ≤ maxIpPacketSize} (zero : (stack.received (.packet d.bytes d.src fits)).headD 0 = 0) :
    ∀ call ∈ (Receives.xdrPacket p stack (stack.received (.packet d.bytes d.src fits)) (Receives.dataLen (.packet d.bytes d.src fits))
      d.src).calls, Concerns d call := by
  intro call member
  unfold Receives.xdrPacket at member
  split at member
  · rw [List.mem_singleton.mp member]
    trivial
  rename_i word first
  rw [Receives.dataLenPacket] at first
  split at member
  · rcases List.mem_cons.mp member with rfl | member
    · trivial
    rcases List.mem_cons.mp member with rfl | member
    · trivial
    rw [List.mem_singleton.mp member]
    refine ⟨?_,rfl⟩
    rw [Receives.dataLenPacket]
    exact Receives.receivedTake
  rename_i other
  split at member
  · simp only [List.mem_cons,List.not_mem_nil,or_false] at member
    rcases member with rfl | rfl <;> trivial
  rename_i xdrCmd done
  rw [Receives.dataLenPacket] at done
  split at member
  · simp only [List.mem_cons,List.not_mem_nil,or_false] at member
    rcases member with rfl | rfl | rfl <;> trivial
  rename_i good
  rcases List.mem_append.mp member with member | member
  · simp only [List.mem_cons,List.not_mem_nil,or_false] at member
    rcases member with rfl | rfl | rfl <;> trivial
  · have concerns := commandConcerns Receives.receivedTake zero first other (not_lt.mp good) done
    generalize xdrCmd.dst = command at concerns member
    unfold Receives.handleCommand at member
    split at member
    · split at member
      · cases member
      · rw [List.mem_singleton.mp member]
        exact concerns
      · rw [List.mem_singleton.mp member]
        exact concerns
    · cases member

theorem receivedConcerns (p : Receives.Process) (stack : Stack) (fits : d.bytes.length ≤ maxIpPacketSize) :
    ∀ call ∈ (Receives.cmdHandlerCb p .read stack (.packet d.bytes d.src fits)).calls, Concerns d call := by
  intro call member
  unfold Receives.cmdHandlerCb at member
  simp only [if_true] at member
  split at member
  · split at member
    · rename_i zero
      exact xdrConcerns zero call member
    · unfold Receives.legacyPacket at member
      dsimp only at member
      split at member
      all_goals
        simp only [List.mem_cons,List.not_mem_nil,or_false] at member
      · rcases member with rfl | rfl <;> trivial
      · rcases member with rfl | rfl <;> trivial
      · rcases member with rfl | rfl | rfl <;> trivial
  · cases member

end Received

section Invariant
variable {N : Type} {owner : Address → Option N} {w w' : World N}

def Traced (owner : Address → Option N) (w : World N) (d : Datagram) : Prop :=
  match d.origin with
  | .command number _ => ∃ node command, owner d.src = some node ∧ number ≤ (w.nodes node).count ∧ command ≠ cmdsResponse ∧
      d.bytes.take 8 = header command (BitVec.ofNat 32 number)
  | .reply position => ∃ node command ipcref d', owner d.src = some node ∧ .handled node position command ∈ w.log ∧
      ipcrefOf command = some ipcref ∧ w.net[position]? = some d' ∧ d.dest = d'.src ∧
      d.bytes.take 8 = header cmdsResponse ipcref
  | .legacy => ∃ cmd data, cmd ≠ 0 ∧ d.bytes = cmd :: data
  | .foreign => owner d.src = none

def Handled (owner : Address → Option N) (w : World N) (node : N) (position : Nat) (command : Val) : Prop :=
  ∃ d number ipcref, w.net[position]? = some d ∧ owner d.dest = some node ∧ number ≠ cmdsResponse ∧
    ipcrefOf command = some ipcref ∧ d.bytes.take 8 = header number ipcref ∧ d.bytes.head? = some 0

/- What was sent under the number of a request was sent for it, to its address. -/
structure Numbered (owner : Address → Option N) (w : World N) (node : N) : Prop where
  next : (w.requests node).nextCmdRef = BitVec.ofNat 32 ((w.nodes node).count + 1)
  few : (w.nodes node).count < 2 ^ 32
  number : ∃ number : RequestId → Nat, ∀ s, s < (w.requests node).fresh →
    number s ≤ (w.nodes node).count ∧ ((w.requests node).states s).id = BitVec.ofNat 32 (number s) ∧
    ∀ d ∈ w.net, ∀ r, d.origin = .command (number s) r → owner d.src = some node →
      r = some s ∧ d.dest = ((w.requests node).states s).host

structure Sound (owner : Address → Option N) (w : World N) : Prop where
  numbered : ∀ node, Numbered owner w node
  nodup : ∀ node, (w.requests node).resp.Nodup
  born : ∀ node, ∀ s ∈ (w.requests node).resp, s < (w.requests node).fresh
  traced : ∀ d ∈ w.net, Traced owner w d
  handled : ∀ node position command, .handled node position command ∈ w.log → Handled owner w node position command
  gone : ∀ node s position, .answered node s position ∈ w.log → s < (w.requests node).fresh ∧ s ∉ (w.requests node).resp
  agreed : Agreed owner w

structure Grows (w w' : World N) : Prop where
  net : w.net <+: w'.net
  log : w.log <:+ w'.log
  count : ∀ node, (w.nodes node).count ≤ (w'.nodes node).count

theorem Grows.found (grows : Grows w w') {position : Nat} {d : Datagram} (there : w.net[position]? = some d) :
    w'.net[position]? = some d := by
  obtain ⟨more,is⟩ := grows.net
  obtain ⟨inside,same⟩ := List.getElem?_eq_some_iff.mp there
  rw [← is, List.getElem?_append_left inside, there]

theorem Grows.noted (grows : Grows w w') {event : Event N} (there : event ∈ w.log) : event ∈ w'.log := grows.log.subset there

theorem Traced.grows {d : Datagram} (traced : Traced owner w d) (grows : Grows w w') : Traced owner w' d := by
  unfold Traced at traced ⊢
  split at traced
  · obtain ⟨node,command,mine,early,other,begins⟩ := traced
    exact ⟨node,command,mine,early.trans (grows.count node),other,begins⟩
  · obtain ⟨node,command,ipcref,d',mine,noted,ref,there,back,begins⟩ := traced
    exact ⟨node,command,ipcref,d',mine,grows.noted noted,ref,grows.found there,back,begins⟩
  · exact traced
  · exact traced

theorem Handled.grows {node : N} {position : Nat} {command : Val} (handled : Handled owner w node position command)
    (grows : Grows w w') : Handled owner w' node position command := by
  obtain ⟨d,number,ipcref,there,arrived,other,ref,begins,zero⟩ := handled
  exact ⟨d,number,ipcref,grows.found there,arrived,other,ref,begins,zero⟩

theorem Answers.grows {node : N} {s : RequestId} {k : Nat} {earlier : List (Event N)} (answers : Answers owner w node s k earlier)
    (grows : Grows w w') (host : ((w'.requests node).states s).host = ((w.requests node).states s).host) :
    Answers owner w' node s k earlier := by
  intro peer sentTo
  rw [host] at sentTo ⊢
  obtain ⟨d,j,d',number,command,answer,origin,mine,asked,carried,sender,dest,noted⟩ := answers peer sentTo
  exact ⟨d,j,d',number,command,grows.found answer,origin,mine,grows.found asked,carried,sender,dest,noted⟩

theorem Sound.agreedLater (sound : Sound owner w) (grows : Grows w w') (log : w'.log = w.log)
    (host : ∀ node s, s < (w.requests node).fresh → ((w'.requests node).states s).host = ((w.requests node).states s).host) :
    Agreed owner w' := by
  intro later node s k earlier is
  rw [log] at is
  obtain ⟨once,answers⟩ := sound.agreed later node s k earlier is
  have there : Event.answered node s k ∈ w.log := by
    rw [is]
    exact List.mem_append_right later List.mem_cons_self
  exact ⟨once,answers.grows grows (host node s (sound.gone node s k there).1)⟩

theorem Sound.kept (sound : Sound owner w) (net : w'.net = w.net) (log : w'.log = w.log)
    (count : ∀ node, (w'.nodes node).count = (w.nodes node).count)
    (keeps : ∀ node, Keeps (w.requests node) (w'.requests node)) : Sound owner w' := by
  have grows : Grows w w' := ⟨by rw [net],by rw [log],fun node => (count node).ge⟩
  refine ⟨fun node => ⟨?_,?_,?_⟩,?_,?_,?_,?_,?_,sound.agreedLater grows log fun node s _ => (keeps node).host s⟩
  · rw [(keeps node).next, count node]
    exact (sound.numbered node).next
  · rw [count node]
    exact (sound.numbered node).few
  · rw [(keeps node).fresh, count node, net]
    obtain ⟨number,each⟩ := (sound.numbered node).number
    refine ⟨number,fun s early => ?_⟩
    rw [(keeps node).id, (keeps node).host]
    exact each s early
  · exact fun node => (sound.nodup node).sublist (keeps node).resp
  · intro node s waits
    rw [(keeps node).fresh]
    exact sound.born node s ((keeps node).resp.subset waits)
  · rw [net]
    exact fun d there => (sound.traced d there).grows grows
  · rw [log]
    exact fun node position command there => (sound.handled node position command there).grows grows
  · rw [log]
    intro node s position there
    rw [(keeps node).fresh]
    obtain ⟨early,out⟩ := sound.gone node s position there
    exact ⟨early,fun waits => out ((keeps node).resp.subset waits)⟩

theorem Sound.post (sound : Sound owner w) {d : Datagram} (traced : Traced owner w d)
    (mine : ∀ number r node s, d.origin = .command number r → owner d.src = some node → s < (w.requests node).fresh →
      ((w.requests node).states s).id = BitVec.ofNat 32 number → r = some s ∧ d.dest = ((w.requests node).states s).host) :
    Sound owner (w.post d) := by
  have grows : Grows w (w.post d) := ⟨List.prefix_append _ _,List.suffix_refl _,fun _ => le_rfl⟩
  refine ⟨fun node => ⟨(sound.numbered node).next,(sound.numbered node).few,?_⟩,sound.nodup,sound.born,?_,
    fun node position command there => (sound.handled node position command there).grows grows,sound.gone,
    sound.agreedLater grows rfl fun _ _ _ => rfl⟩
  · obtain ⟨number,each⟩ := (sound.numbered node).number
    refine ⟨number,fun s early => ?_⟩
    obtain ⟨small,id,sent⟩ := each s early
    refine ⟨small,id,fun x there r origin owned => ?_⟩
    rcases List.mem_append.mp there with old | new
    · exact sent x old r origin owned
    · cases List.mem_singleton.mp new
      exact mine _ r node s origin owned early id
  · intro x there
    rcases List.mem_append.mp there with old | new
    · exact (sound.traced x old).grows grows
    · cases List.mem_singleton.mp new
      exact traced.grows grows

theorem Sound.noteHandled (sound : Sound owner w) {node : N} {position : Nat} {command : Val}
    (handled : Handled owner w node position command) : Sound owner (w.note (.handled node position command)) := by
  have grows : Grows w (w.note (.handled node position command)) := ⟨List.prefix_refl _,List.suffix_cons _ _,fun _ => le_rfl⟩
  refine ⟨fun x => ⟨(sound.numbered x).next,(sound.numbered x).few,(sound.numbered x).number⟩,sound.nodup,sound.born,
    fun d there => (sound.traced d there).grows grows,?_,?_,?_⟩
  · intro x k c there
    rcases List.mem_cons.mp there with new | old
    · cases new
      exact handled.grows grows
    · exact (sound.handled x k c old).grows grows
  · intro x s k there
    rcases List.mem_cons.mp there with new | old
    · cases new
    · exact sound.gone x s k old
  · intro later x s k earlier is
    cases later with
    | nil => cases is
    | cons event later =>
      obtain ⟨once,answers⟩ := sound.agreed later x s k earlier (List.cons.inj is).2
      exact ⟨once,answers.grows grows rfl⟩

theorem Sound.answers (sound : Sound owner w) {node : N} {k : Nat} {d : Datagram} {env : Env} {s : RequestId}
    (there : w.net[k]? = some d) (arrived : owner d.dest = some node)
    (found : Requests.answered (w.requests node) env d.bytes d.src = some s) : Answers owner w node s k w.log := by
  intro peer sentTo
  obtain ⟨waits,ref,host⟩ := Requests.answeredMem found
  have begins := responseRefHeader ref
  rw [host] at sentTo ⊢
  have traced := sound.traced d (List.mem_of_getElem? there)
  unfold Traced at traced
  split at traced
  · obtain ⟨x,command,-,-,other,begins'⟩ := traced
    exact absurd (headerInj (begins'.symm.trans begins)).1 other
  · rename_i j origin
    obtain ⟨x,command,ipcref,d',mine,noted,isRef,asked,back,begins'⟩ := traced
    cases sentTo.symm.trans mine
    obtain ⟨d'',number,ipcref',asked',received,other,isRef',begins'',zero⟩ := sound.handled peer j command noted
    cases asked.symm.trans asked'
    cases isRef.symm.trans isRef'
    have same := (headerInj (begins'.symm.trans begins)).2
    have askedBy : owner d'.src = some node := back ▸ arrived
    have traced' := sound.traced d' (List.mem_of_getElem? asked)
    unfold Traced at traced'
    split at traced'
    · rename_i n r origin'
      obtain ⟨y,c,mine',early,-,begins₃⟩ := traced'
      cases askedBy.symm.trans mine'
      obtain ⟨numbers,each⟩ := (sound.numbered node).number
      obtain ⟨small,id,sent⟩ := each s (sound.born node s waits)
      have few := (sound.numbered node).few
      have equal : n = numbers s := by
        have words := (headerInj (begins₃.symm.trans begins'')).2
        rw [same, id] at words
        have values := congrArg BitVec.toNat words
        rwa [BitVec.toNat_ofNat, BitVec.toNat_ofNat, Nat.mod_eq_of_lt (by omega), Nat.mod_eq_of_lt (by omega)] at values
      rw [equal] at origin'
      obtain ⟨rfl,dest⟩ := sent d' (List.mem_of_getElem? asked) r origin' askedBy
      rw [host] at dest
      exact ⟨d,j,d',_,command,there,origin,mine,asked,origin',askedBy,dest,noted⟩
    · obtain ⟨-,-,ipcref₃,-,-,-,-,-,-,begins₃⟩ := traced'
      exact absurd (headerInj (begins₃.symm.trans begins'')).1.symm other
    · obtain ⟨cmd,data,nonzero,is⟩ := traced'
      rw [is] at zero
      exact absurd (Option.some.inj zero) nonzero
    · rw [traced'] at askedBy
      cases askedBy
  · obtain ⟨cmd,data,nonzero,is⟩ := traced
    rw [is] at begins
    exact absurd (List.cons.inj begins).1 nonzero
  · rw [traced] at sentTo
    cases sentTo

variable [DecidableEq N]

theorem requestsSelf (w : World N) (node : N) (p : Requests.Process) : (w.setRequests node p).requests node = p := by
  simp [World.setRequests,World.requests,World.set]

theorem requestsOther {node x : N} (other : x ≠ node) (p : Requests.Process) : (w.setRequests node p).requests x = w.requests x := by
  simp [World.setRequests,World.requests,World.set,other]

@[simp] theorem requestsCount (w : World N) (node : N) (p : Requests.Process) (x : N) :
    ((w.setRequests node p).nodes x).count = (w.nodes x).count := by
  by_cases same : x = node
  · subst same
    simp [World.setRequests,World.set]
  · simp [World.setRequests,World.set,same]

theorem keepsAll {node : N} {p : Requests.Process} (keeps : Keeps (w.requests node) p) (x : N) :
    Keeps (w.requests x) ((w.setRequests node p).requests x) := by
  by_cases same : x = node
  · subst same
    rw [requestsSelf]
    exact keeps
  · rw [requestsOther same]
    exact Keeps.refl _

theorem Sound.setRequests (sound : Sound owner w) {node : N} {p : Requests.Process} (keeps : Keeps (w.requests node) p) :
    Sound owner (w.setRequests node p) :=
  sound.kept rfl rfl (requestsCount w node p) (keepsAll keeps)

theorem Sound.crash (sound : Sound owner w) (node : N) : Sound owner (crash w node) :=
  sound.setRequests (keepsFields rfl rfl rfl (List.Sublist.refl _))

theorem Sound.answer (sound : Sound owner w) {node : N} {k : Nat} {d : Datagram} {env : Env} {s : RequestId}
    (there : w.net[k]? = some d) (arrived : owner d.dest = some node)
    (found : Requests.answered (w.requests node) env d.bytes d.src = some s) :
    Sound owner ((w.setRequests node (Requests.cmdHandleXdrResponse (w.requests node) env d.bytes d.src)).note
      (.answered node s k)) := by
  have keeps := responseKeeps (w.requests node) env d.bytes d.src
  have waits := (Requests.answeredMem found).1
  have after := sound.setRequests keeps
  have erased := responseErases found
  generalize Requests.cmdHandleXdrResponse (w.requests node) env d.bytes d.src = p at keeps after erased ⊢
  have host : ∀ x t, (((w.setRequests node p).requests x).states t).host = ((w.requests x).states t).host :=
    fun x => (keepsAll keeps x).host
  have grows : Grows (w.setRequests node p) ((w.setRequests node p).note (.answered node s k)) :=
    ⟨List.prefix_refl _,List.suffix_cons _ _,fun _ => le_rfl⟩
  have grows' : Grows w (w.setRequests node p) := ⟨List.prefix_refl _,List.suffix_refl _,fun x => (requestsCount w node p x).ge⟩
  refine ⟨fun x => ⟨(after.numbered x).next,(after.numbered x).few,(after.numbered x).number⟩,after.nodup,after.born,
    fun d there => (after.traced d there).grows grows,?_,?_,?_⟩
  · intro x position command noted
    rcases List.mem_cons.mp noted with new | old
    · cases new
    · exact (after.handled x position command old).grows grows
  · intro x t position noted
    rcases List.mem_cons.mp noted with new | old
    · cases new
      change s < ((w.setRequests node p).requests node).fresh ∧ s ∉ ((w.setRequests node p).requests node).resp
      rw [requestsSelf, keeps.fresh]
      exact ⟨sound.born node s waits,fun still => ((sound.nodup node).mem_erase_iff.mp (erased.subset still)).1 rfl⟩
    · exact after.gone x t position old
  · intro later x t position earlier is
    cases later with
    | nil =>
      obtain ⟨same,rfl⟩ := List.cons.inj is
      cases same
      refine ⟨fun k' noted => (sound.gone node s k' noted).2 waits,?_⟩
      exact (sound.answers there arrived found).grows ⟨grows.net,grows.log,fun x => (requestsCount w node p x).ge⟩ (host node s)
    | cons event later =>
      obtain ⟨once,answers⟩ := after.agreed later x t position earlier (List.cons.inj is).2
      exact ⟨once,answers.grows grows rfl⟩

@[simp] theorem setSelf (w : World N) (node : N) (n : Node) : (w.set node n).nodes node = n := Function.update_self ..

@[simp] theorem setOther {node x : N} (other : x ≠ node) (n : Node) : (w.set node n).nodes x = w.nodes x := Function.update_of_ne other ..

@[simp] theorem setSelfRequests (w : World N) (node : N) (n : Node) : (w.set node n).requests node = n.requests := by
  rw [World.requests, setSelf]

theorem Sound.counted (sound : Sound owner w) {node : N} {q : Requests.Process} {dest : Address}
    {request : Option RequestId} (few : (w.nodes node).count + 1 < 2 ^ 32) (next : q.nextCmdRef = (w.requests node).nextCmdRef + 1)
    (adds : Adds (w.requests node) q dest request) : Sound owner (w.set node ⟨q,(w.nodes node).count + 1⟩) := by
  have count : ∀ x, (w.nodes x).count ≤ ((w.set node ⟨q,(w.nodes node).count + 1⟩).nodes x).count := by
    intro x
    by_cases same : x = node
    · subst same
      rw [setSelf]
      exact Nat.le_succ _
    · rw [setOther same]
  have grows : Grows w (w.set node ⟨q,(w.nodes node).count + 1⟩) := ⟨List.prefix_refl _,List.suffix_refl _,count⟩
  have self : (w.set node ⟨q,(w.nodes node).count + 1⟩).requests node = q := setSelfRequests ..
  have others : ∀ x, x ≠ node → (w.set node ⟨q,(w.nodes node).count + 1⟩).requests x = w.requests x :=
    fun x other => by rw [World.requests, setOther other, World.requests]
  have born := sound.born node
  have old : ∀ s, s < (w.requests node).fresh → q.states s = (w.requests node).states s := by
    intro s early
    cases adds with
    | kept fresh states resp => rw [states]
    | asked _ fresh resp others id host => exact others s early.ne
  refine ⟨fun x => ?_,fun x => ?_,fun x => ?_,fun d there => (sound.traced d there).grows grows,
    fun x k c there => (sound.handled x k c there).grows grows,fun x s k there => ?_,sound.agreedLater grows rfl fun x s early => ?_⟩
  all_goals
    by_cases same : x = node
  · subst same
    obtain ⟨number,each⟩ := (sound.numbered x).number
    refine ⟨?_,?_,?_⟩
    · rw [self, setSelf, next, (sound.numbered x).next, BitVec.ofNat_add ((w.nodes x).count + 1) 1]
      rfl
    · rw [setSelf]
      exact few
    · rw [self, setSelf]
      refine ⟨Function.update number (w.requests x).fresh ((w.nodes x).count + 1),fun s early => ?_⟩
      cases adds with
      | kept fresh states resp =>
        rw [fresh] at early
        obtain ⟨small,id,sent⟩ := each s early
        rw [Function.update_of_ne early.ne, states]
        exact ⟨small.trans (Nat.le_succ _),id,sent⟩
      | asked _ fresh resp others id host =>
        rw [fresh] at early
        by_cases new : s = (w.requests x).fresh
        · subst new
          rw [Function.update_self, id, host, (sound.numbered x).next]
          refine ⟨le_rfl,rfl,fun d there r origin mine => ?_⟩
          have traced := sound.traced d there
          simp only [Traced,origin] at traced
          obtain ⟨y,c,mine',early',-⟩ := traced
          cases mine.symm.trans mine'
          omega
        · rw [Function.update_of_ne new, others s new]
          obtain ⟨small,id,sent⟩ := each s (lt_of_le_of_ne (Nat.le_of_lt_succ early) new)
          exact ⟨small.trans (Nat.le_succ _),id,sent⟩
  · have numbered := sound.numbered x
    refine ⟨?_,?_,?_⟩
    · rw [others x same, setOther same]
      exact numbered.next
    · rw [setOther same]
      exact numbered.few
    · rw [others x same, setOther same]
      exact numbered.number
  · subst same
    rw [self]
    cases adds with
    | kept fresh states resp =>
      rw [resp]
      exact sound.nodup x
    | asked _ fresh resp others id host =>
      rw [resp]
      exact List.nodup_cons.mpr ⟨fun waits => lt_irrefl _ (born _ waits),sound.nodup x⟩
  · rw [others x same]
    exact sound.nodup x
  · subst same
    rw [self]
    intro s waits
    cases adds with
    | kept fresh states resp =>
      rw [resp] at waits
      rw [fresh]
      exact born s waits
    | asked _ fresh resp others id host =>
      rw [resp] at waits
      rw [fresh]
      rcases List.mem_cons.mp waits with rfl | before
      · exact Nat.lt_succ_self _
      · exact (born s before).trans (Nat.lt_succ_self _)
  · rw [others x same]
    exact sound.born x
  · subst same
    rw [self]
    obtain ⟨early,out⟩ := sound.gone x s k there
    cases adds with
    | kept fresh states resp =>
      rw [fresh, resp]
      exact ⟨early,out⟩
    | asked _ fresh resp others id host =>
      rw [fresh, resp]
      exact ⟨early.trans (Nat.lt_succ_self _),fun waits => out ((List.mem_cons.mp waits).resolve_left early.ne)⟩
  · rw [others x same]
    exact sound.gone x s k there
  · subst same
    rw [self, old s early]
  · rw [others x same]

omit [DecidableEq N] in
theorem Sound.sent (sound : Sound owner w) {src : Address} {origin : Origin} {handed : Handed}
    (each : ∀ buff, handed.packet.buff = some buff → Sound owner (w.post ⟨src,handed.dest,buff.take handed.packet.len,origin⟩)) :
    Sound owner (rawSockaddr w src origin handed) := by
  unfold rawSockaddr
  split
  · exact sound
  · rename_i buff there
    exact each buff there

omit [DecidableEq N] in
theorem Sound.ownNumber (sound : Sound owner w) {node : N} {q : Requests.Process} {dest : Address} {request : Option RequestId}
    (few : (w.nodes node).count + 1 < 2 ^ 32) (adds : Adds (w.requests node) q dest request) {s : RequestId} (early : s < q.fresh)
    (id : (q.states s).id = BitVec.ofNat 32 ((w.nodes node).count + 1)) : request = some s ∧ dest = (q.states s).host := by
  obtain ⟨number,each⟩ := (sound.numbered node).number
  have older : s < (w.requests node).fresh → ((w.requests node).states s).id ≠ BitVec.ofNat 32 ((w.nodes node).count + 1) := by
    intro before same
    obtain ⟨small,id',-⟩ := each s before
    rw [id'] at same
    have values := congrArg BitVec.toNat same
    rw [BitVec.toNat_ofNat, BitVec.toNat_ofNat, Nat.mod_eq_of_lt (by omega), Nat.mod_eq_of_lt few] at values
    omega
  cases adds with
  | kept fresh states resp =>
    rw [states] at id
    exact absurd id (older (fresh ▸ early))
  | asked mine fresh resp others _ host =>
    by_cases new : s = (w.requests node).fresh
    · subst new
      exact ⟨mine,host.symm⟩
    · rw [others s new] at id
      rw [fresh] at early
      exact absurd id (older (lt_of_le_of_ne (Nat.le_of_lt_succ early) new))

theorem Sound.command (sound : Sound owner w) {node : N} {src : Address} {cb : Bool} {c : Requests.Call}
    (mine : owner src = some node) (other : c.command ≠ cmdsResponse) (few : (w.nodes node).count + 1 < 2 ^ 32) :
    Sound owner (command w node src cb c) := by
  simp only [Exchange.command]
  split
  · exact sound.crash node
  rename_i handed next sent
  obtain ⟨number,adds⟩ := issuedAdds (w.requests node) cb c sent
  have follows := (sound.numbered node).next
  cases handed with
  | none =>
    have next_ := commandNext sent
    exact sound.counted few (number.trans next_) adds
  | some handed =>
    obtain ⟨begins,dest,next_⟩ := commandBegins sent
    have counted := sound.counted few (number.trans next_) adds
    refine counted.sent fun buff there => counted.post ⟨node,c.command,mine,?_,other,?_⟩ ?_
    · rw [setSelf]
    · exact (begins buff there).trans (by rw [follows])
    · intro n r x s origin owned early id
      cases origin
      cases mine.symm.trans owned
      rw [setSelfRequests] at early id ⊢
      change _ ∧ handed.dest = _
      rw [dest]
      exact sound.ownNumber few adds early id

theorem Sound.reply (sound : Sound owner w) {node : N} {src : Address} {position : Nat} {command : Val} (r : Reply)
    (mine : owner src = some node) (noted : .handled node position command ∈ w.log) :
    Sound owner (reply w node src position command r) := by
  unfold Exchange.reply
  split
  · rename_i d ipcref there ref
    split
    · exact sound.crash node
    · exact sound
    · rename_i handed sent
      obtain ⟨begins,dest⟩ : handed.packet.Begins cmdsResponse ipcref ∧ handed.dest = d.src := by
        cases r with
        | response env fuel heap paramType params => exact responseBegins sent
        | error env fuel heap errCode => exact errorBegins sent
      refine sound.sent fun buff inside => sound.post ⟨node,command,ipcref,d,mine,noted,ref,there,dest,begins buff inside⟩ ?_
      intro n r x s origin
      cases origin
  · exact sound

theorem actSound (sound : Sound owner w) {node : N} {position : Nat} {p : Receives.Process} {d : Datagram}
    (there : w.net[position]? = some d) (arrived : owner d.dest = some node) {call : Receives.Call} (concerns : Concerns d call) :
    Sound owner (act node position p w call) ∧ (act node position p w call).net = w.net := by
  cases call with
  | xdrResponse data len src =>
    obtain ⟨front,rfl⟩ := concerns
    simp only [act]
    rw [front]
    split
    · exact ⟨sound.setRequests (responseKeeps _ p.env d.bytes d.src),rfl⟩
    · rename_i s found
      exact ⟨sound.answer there arrived found,rfl⟩
  | xdrHandler handler command src =>
    obtain ⟨number,ipcref,other,ref,begins,zero⟩ := concerns
    exact ⟨sound.noteHandled ⟨d,number,ipcref,there,arrived,other,ref,begins,zero⟩,rfl⟩
  | unsupported command src =>
    obtain ⟨number,ipcref,other,ref,begins,zero⟩ := concerns
    exact ⟨sound.noteHandled ⟨d,number,ipcref,there,arrived,other,ref,begins,zero⟩,rfl⟩
  | _ => exact ⟨sound,rfl⟩

theorem actsSound {node : N} {position : Nat} {p : Receives.Process} {d : Datagram} (arrived : owner d.dest = some node)
    {calls : List Receives.Call} (concerns : ∀ call ∈ calls, Concerns d call) {w : World N} (sound : Sound owner w)
    (there : w.net[position]? = some d) : Sound owner (calls.foldl (act node position p) w) := by
  induction calls generalizing w with
  | nil => exact sound
  | cons call calls ih =>
    obtain ⟨first,net⟩ := actSound (p := p) sound there arrived (concerns call List.mem_cons_self)
    exact ih (fun c member => concerns c (List.mem_cons_of_mem _ member)) first (net ▸ there)

theorem Sound.deliver (sound : Sound owner w) {node : N} {position : Nat} (p : Receives.Process) (stack : Stack)
    (arrives : ∃ d, w.net[position]? = some d ∧ owner d.dest = some node) : Sound owner (deliver w node position p stack) := by
  obtain ⟨d,there,arrived⟩ := arrives
  simp only [Exchange.deliver,there]
  split
  · rename_i fits
    have acted := actsSound (p := p) arrived (receivedConcerns p stack fits) sound there
    split
    · exact acted
    · exact acted.crash node
  · exact sound

theorem Sound.step (sound : Sound owner w) {a : Action N} (legal : Legal owner w a) : Sound owner (step w a) := by
  cases a with
  | command node src cb c => exact sound.command legal.2.1 legal.2.2.1 legal.2.2.2
  | reply node src position command r => exact sound.reply r legal.2.1 legal.2.2
  | legacy node src dest cmd data =>
    refine sound.post ⟨cmd,data,legal.2.2,rfl⟩ ?_
    intro n r x s origin
    cases origin
  | foreign src dest bytes =>
    refine sound.post legal ?_
    intro n r x s origin
    cases origin
  | deliver node position p stack => exact sound.deliver p stack legal.2.2
  | fire node now => exact sound.setRequests (fireKeeps _ now)
  | ret node env => exact sound.setRequests (resumeKeeps _ env)

omit [DecidableEq N] in
theorem startSound (owner : Address → Option N) {process : N → Requests.Process} (started : ∀ node, Started (process node)) :
    Sound owner (start process) where
  numbered node := by
    obtain ⟨resp,fresh,next⟩ := started node
    refine ⟨next,by simp [start],⟨fun _ => 0,fun s early => ?_⟩⟩
    rw [World.requests, start, fresh] at early
    exact absurd early (Nat.not_lt_zero s)
  nodup node := by
    rw [World.requests, start, (started node).1]
    exact List.nodup_nil
  born node s waits := by
    rw [World.requests, start, (started node).1] at waits
    cases waits
  traced d there := by cases there
  handled node position command there := by cases there
  gone node s position there := by cases there
  agreed later node s k earlier is := by
    rw [start] at is
    cases later <;> cases is

/- Whatever is lost, repeated, late or out of order, and whatever others send: the answer to a request
is a reply to that request by the process it was sent to, and there is one at most. -/
theorem responsesAnswerRequests (owner : Address → Option N) {process : N → Requests.Process} (started : ∀ node, Started (process node))
    {acts : List (Action N)} (run : Along step (Legal owner) (start process) acts) : Agreed owner (exec step (start process) acts) :=
  (Along.invariant (fun _ _ sound legal => sound.step legal) (startSound owner started) run).agreed

end Invariant

section Sample
open Delivery

theorem deliverCommand {N : Type} [DecidableEq N] {w : World N} {node : N} {position handler : Nat} {p : Receives.Process} {stack : Stack}
    {d : Datagram} {bytes data : List Byte} {len : BitVec 64} {command : Val} {src : Address} (there : w.net[position]? = some d)
    (is : d.bytes = bytes) (fits : bytes.length ≤ maxIpPacketSize)
    (trace : Receives.cmdHandlerCb p .read stack (.packet bytes d.src fits) =
      ⟨[.decode data len,.decode data len,.countCommand,.xdrHandler handler command src],true⟩) :
    deliver w node position p stack = w.note (.handled node position command) := by
  subst is
  simp only [deliver,there]
  rw [dif_pos fits, trace]
  rfl

theorem deliverResponse {N : Type} [DecidableEq N] {w : World N} {node : N} {position : Nat} (p : Receives.Process) (stack : Stack)
    {d : Datagram} {rest : List Byte} (there : w.net[position]? = some d) (fits : d.bytes.length ≤ maxIpPacketSize)
    (begins : d.bytes = beBytes cmdsResponse ++ rest) {s : RequestId}
    (found : Requests.answered (w.requests node) p.env d.bytes d.src = some s) :
    deliver w node position p stack = (w.setRequests node (Requests.cmdHandleXdrResponse (w.requests node) p.env d.bytes d.src)).note
      (.answered node s position) := by
  have front : (stack.received (.packet d.bytes d.src fits)).take (Receives.dataLen (.packet d.bytes d.src fits)).toNat = d.bytes := by
    rw [Receives.dataLenPacket]
    exact Receives.receivedTake
  simp only [deliver,there]
  rw [dif_pos fits, responseCalls p stack d.src fits begins]
  simp only [List.foldl_cons,List.foldl_nil,act]
  rw [front, found]
  rfl

def sampleOwner (a : Address) : Option Bool := if a = ⟨1,1⟩ then some false else if a = ⟨2,2⟩ then some true else none

def sampleStack : Stack := ⟨List.replicate 65535 0,List.length_replicate,⟨0,0⟩,0⟩

def sampleCommand : Val := .struct [.word 5,.word 1,.union 7 numberParams]

def sampleCall : Requests.Call := ⟨sampleEnv,1,plenty,5,7,numberParams,⟨2,2⟩,.raw,1000,⟨0,0⟩,true,true,true⟩

def sampleAsked : List (Action Bool) :=
  [.command false ⟨1,1⟩ true sampleCall,.foreign ⟨9,9⟩ ⟨1,1⟩ (responseBytes 1 7 (beBytes 8))]

def asked : World Bool := exec step (start fun _ => Requests.blank) sampleAsked

def handled : World Bool := asked.note (.handled true 0 sampleCommand)

def sampleReply : Reply := .response sampleEnv 1 plenty 7 numberParams

def replied : World Bool := step handled (.reply true ⟨2,2⟩ 0 sampleCommand sampleReply)

def sampleRun : List (Action Bool) :=
  sampleAsked ++ [.deliver true 0 numberProcess sampleStack,.reply true ⟨2,2⟩ 0 sampleCommand sampleReply,
    .deliver false 2 numberProcess sampleStack]

theorem askedDatagram : ∃ d, asked.net[0]? = some d ∧ d.bytes = commandBytes 5 1 7 (beBytes 9 ++ []) ∧ sampleOwner d.dest = some true := by
  have bytes : (asked.net[0]?).map Datagram.bytes = some (commandBytes 5 1 7 (beBytes 9 ++ [])) := by decide +kernel
  have dest : (asked.net[0]?).map (fun d => sampleOwner d.dest) = some (some true) := by decide +kernel
  cases found : asked.net[0]? with
  | none =>
    rw [found] at bytes
    cases bytes
  | some d =>
    rw [found] at bytes dest
    exact ⟨d,rfl,Option.some.inj bytes,Option.some.inj dest⟩

theorem numberOnly {v : Val} (same : Equal numberParams v) : v = numberParams := by
  cases same with
  | refl => rfl
  | struct same => cases same with
    | cons first same =>
      cases same
      rw [first.word]
      rfl

theorem askedDelivered : step asked (.deliver true 0 numberProcess sampleStack) = handled := by
  obtain ⟨d,there,bytes,-⟩ := askedDatagram
  obtain ⟨params',same,trace⟩ := commandTrace (p := numberProcess) (numberUnderstood (fun _ => rfl) le_rfl rfl) 1
    (show (5 : BitVec 32).toNat < 2 ^ 24 by decide) (by decide)
  cases numberOnly same
  rw [step]
  exact deliverCommand there bytes (by decide) (trace sampleStack d.src _)

theorem repliedDatagram : ∃ d, replied.net[2]? = some d ∧ d.bytes = responseBytes 1 7 (beBytes 9 ++ []) ∧
    d.src = ⟨2,2⟩ ∧ sampleOwner d.dest = some false := by
  have bytes : (replied.net[2]?).map Datagram.bytes = some (responseBytes 1 7 (beBytes 9 ++ [])) := by decide +kernel
  have src : (replied.net[2]?).map Datagram.src = some ⟨2,2⟩ := by decide +kernel
  have dest : (replied.net[2]?).map (fun d => sampleOwner d.dest) = some (some false) := by decide +kernel
  cases found : replied.net[2]? with
  | none =>
    rw [found] at bytes
    cases bytes
  | some d =>
    rw [found] at bytes src dest
    exact ⟨d,rfl,Option.some.inj bytes,Option.some.inj src,Option.some.inj dest⟩

theorem repliedDelivered : .answered false 0 2 ∈ (deliver replied false 2 numberProcess sampleStack).log := by
  obtain ⟨d,there,bytes,src,-⟩ := repliedDatagram
  have fits : d.bytes.length ≤ maxIpPacketSize := by
    rw [bytes]
    decide
  have found : Requests.answered (replied.requests false) numberProcess.env d.bytes d.src = some 0 := by
    rw [bytes, src]
    decide +kernel
  rw [deliverResponse numberProcess sampleStack there fits bytes found]
  exact List.mem_cons_self

theorem alongThree {N : Type} [DecidableEq N] {owner : Address → Option N} {w w' w'' : World N} {a b c : Action N}
    (first : step w a = w') (second : step w' b = w'') (legal : Legal owner w a) (legal' : Legal owner w' b)
    (legal'' : Legal owner w'' c) : Along step (Legal owner) w [a,b,c] ∧ exec step w [a,b,c] = step w'' c := by
  subst first second
  exact ⟨⟨legal,legal',legal'',trivial⟩,rfl⟩

theorem sampleLater : Along step (Legal sampleOwner) asked [.deliver true 0 numberProcess sampleStack,
      .reply true ⟨2,2⟩ 0 sampleCommand sampleReply,.deliver false 2 numberProcess sampleStack] ∧
    exec step asked [.deliver true 0 numberProcess sampleStack,.reply true ⟨2,2⟩ 0 sampleCommand sampleReply,
      .deliver false 2 numberProcess sampleStack] = step replied (.deliver false 2 numberProcess sampleStack) := by
  have given : Legal sampleOwner asked (.deliver true 0 numberProcess sampleStack) := by
    obtain ⟨d,there,-,dest⟩ := askedDatagram
    exact ⟨by decide +kernel,by decide +kernel,d,there,dest⟩
  have answers : Legal sampleOwner handled (.reply true ⟨2,2⟩ 0 sampleCommand sampleReply) :=
    ⟨by decide +kernel,rfl,List.mem_cons_self⟩
  have returns : Legal sampleOwner replied (.deliver false 2 numberProcess sampleStack) := by
    obtain ⟨d,there,-,-,dest⟩ := repliedDatagram
    exact ⟨by decide +kernel,by decide +kernel,d,there,dest⟩
  exact alongThree askedDelivered rfl given answers returns

theorem sampleLegal : Along step (Legal sampleOwner) (start fun _ => Requests.blank) sampleRun := by
  have asks : Legal sampleOwner (start fun _ => Requests.blank) (.command false ⟨1,1⟩ true sampleCall) :=
    ⟨rfl,rfl,by decide,by decide⟩
  have forges : sampleOwner ⟨9,9⟩ = none := by decide
  have later := sampleLater.1
  unfold asked at later
  exact alongAppend.mpr ⟨⟨asks,forges,trivial⟩,later⟩

theorem sampleAgrees : .answered false 0 2 ∈ (exec step (start fun _ => Requests.blank) sampleRun).log ∧
    Agreed sampleOwner (exec step (start fun _ => Requests.blank) sampleRun) := by
  refine ⟨?_,responsesAnswerRequests sampleOwner (fun _ => ⟨rfl,rfl,rfl⟩) sampleLegal⟩
  have all : exec step (start fun _ => Requests.blank) sampleRun = step replied (.deliver false 2 numberProcess sampleStack) := by
    have later := sampleLater.2
    unfold asked at later
    exact (execAppend _ _ _).trans later
  rw [all, step]
  exact repliedDelivered

end Sample
end LibProc.Exchange
