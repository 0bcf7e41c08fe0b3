import LibProc.Receives
import LibProc.Runs

/-! The handlers of multicast groups in cmd.c. The first handler of a group opens a socket and joins
the group with it, the last that goes leaves the group and closes the socket. What the lists, the
sockets and the memberships are there for is one list of subscriptions. -/
namespace LibProc.Multicast
open XdrBytes Runs
open Ipc (Address)
open FdRegistry (FdEvent)
open Receives (MulticastCommand Stack Recv Trace maxIpPacketSize)

def htons (port : BitVec 16) : BitVec 16 := port.rotateLeft 8

structure McastCommandState where
  ptr : Nat
  srcAddr : BitVec 32
  port : BitVec 16
  fd : Int
  cmds : List MulticastCommand
  deriving DecidableEq

/- `sockets` are those that were opened for groups and are still open, `joined` their memberships,
`watched` what EVT_fd_add was given for them. -/
structure World where
  mcast : List McastCommandState
  sockets : List Int
  joined : List (Int × BitVec 32)
  watched : List (Int × Nat)
  fresh : Nat

/- The address and the port are those of the service, `opened` is what socket_init returns, and `joins`
whether the group can be joined. -/
inductive Action where
  | set (addr : BitVec 32) (port : BitVec 16) (cmd : MulticastCommand) (opened : Int) (joins : Bool)
  | remove (addr : BitVec 32) (port : BitVec 16) (cmdNum : Int)
  | cleanup

def findMcastState (mcast : List McastCommandState) (addr : BitVec 32) (port : BitVec 16) : Option McastCommandState :=
  mcast.find? fun curr => curr.port = htons port ∧ curr.srcAddr = addr

def write (mcast : List McastCommandState) (ptr : Nat) (f : McastCommandState → McastCommandState) : List McastCommandState :=
  mcast.map fun s => if s.ptr = ptr then f s else s

def McastCommandState.add (cmd : MulticastCommand) (s : McastCommandState) : McastCommandState := {s with cmds := cmd :: s.cmds}

def McastCommandState.removeAll (cmdNum : Int) (s : McastCommandState) : McastCommandState :=
  {s with cmds := s.cmds.filter fun cmd => cmd.cmdNum ≠ cmdNum}

def McastCommandState.clear (s : McastCommandState) : McastCommandState := {s with fd := 0}

def cmdSetMulticastHandler (w : World) (addr : BitVec 32) (port : BitVec 16) (cmd : MulticastCommand) (opened : Int) (joins : Bool) :
    World :=
  if addr = 0 ∨ port = 0 then w
  else match findMcastState w.mcast addr port with
    | some state => {w with mcast := write w.mcast state.ptr (.add cmd)}
    | none =>
      if opened ≤ 0 then
        -- a socket of number 0 is taken for an error
        if opened = 0 then {w with sockets := opened :: w.sockets} else w
      else if joins then
        ⟨⟨w.fresh,addr,htons port,opened,[cmd]⟩ :: w.mcast,opened :: w.sockets,(opened,addr) :: w.joined,
          (opened,w.fresh) :: w.watched,w.fresh + 1⟩
      else {w with sockets := opened :: w.sockets, fresh := w.fresh + 1}

def World.shut (w : World) (s : McastCommandState) : World :=
  if 0 < s.fd then
    {w with
      watched := w.watched.filter fun entry => entry.1 ≠ s.fd
      joined := w.joined.filter fun entry => entry.1 ≠ s.fd
      sockets := w.sockets.erase s.fd}
  else w

def cmdRemoveMulticastHandler (w : World) (addr : BitVec 32) (port : BitVec 16) (cmdNum : Int) : World :=
  match findMcastState w.mcast addr port with
  | none => w
  | some state =>
    let mcast := write w.mcast state.ptr (.removeAll cmdNum)
    if (state.removeAll cmdNum).cmds = [] then
      {w.shut state with mcast := (write mcast state.ptr .clear).filter fun s => s.fd ≠ 0}
    else {w with mcast := mcast}

def cmdCleanupCbState (w : World) : World := {w.mcast.foldl World.shut w with mcast := []}

def step (w : World) : Action → World
  | .set addr port cmd opened joins => cmdSetMulticastHandler w addr port cmd opened joins
  | .remove addr port cmdNum => cmdRemoveMulticastHandler w addr port cmdNum
  | .cleanup => cmdCleanupCbState w

def start : World := ⟨[],[],[],[],0⟩

/- What the event loop does about a packet on a socket; `none` where a state that was freed is read. -/
def receive (w : World) (fd : Int) (stack : Stack) (recv : Recv) : List (Option Trace) :=
  (w.watched.filter fun entry => entry.1 = fd).map fun entry =>
    (w.mcast.find? fun s => s.ptr = entry.2).map fun s => Receives.multicastCmdHandlerCb (some s.cmds) .read stack recv

structure Subscription where
  addr : BitVec 32
  port : BitVec 16
  cmd : MulticastCommand

structure Service where
  subs : List Subscription
  lost : List Int

def Subscription.To (addr : BitVec 32) (port : BitVec 16) (sub : Subscription) : Prop := sub.addr = addr ∧ sub.port = port

instance (addr : BitVec 32) (port : BitVec 16) : DecidablePred (Subscription.To addr port) :=
  fun sub => inferInstanceAs (Decidable (sub.addr = addr ∧ sub.port = port))

def group (subs : List Subscription) (addr : BitVec 32) (port : BitVec 16) : List MulticastCommand :=
  (subs.filter fun sub => sub.To addr port).map Subscription.cmd

/- The first subscription to a group needs a socket and a membership; without the membership the
socket is lost. -/
def serve (s : Service) : Action → Service
  | .set addr port cmd opened joins =>
    if addr = 0 ∨ port = 0 then s
    else if group s.subs addr port ≠ [] ∨ 0 < opened ∧ joins = true then {s with subs := ⟨addr,port,cmd⟩ :: s.subs}
    else if opened < 0 then s
    else {s with lost := opened :: s.lost}
  | .remove addr port cmdNum => {s with subs := s.subs.filter fun sub => ¬(sub.To addr port ∧ sub.cmd.cmdNum = cmdNum)}
  | .cleanup => {s with subs := []}

def Legal (w : World) : Action → Prop
  | .set _ _ _ opened _ => opened ∉ w.sockets
  | _ => True

def Wants (b : Byte) (cmd : MulticastCommand) : Prop := cmd.cmdNum < 0 ∨ cmd.cmdNum = (b.toNat : Int)

instance (b : Byte) : DecidablePred (Wants b) := fun cmd => inferInstanceAs (Decidable (cmd.cmdNum < 0 ∨ cmd.cmdNum = (b.toNat : Int)))

def Delivers (w : World) (subs : List Subscription) (fd : Int) (addr : BitVec 32) (port : BitVec 16) : Prop :=
  ∀ (stack : Stack) (b : Byte) (rest : List Byte) (src : Address) (fits : (b :: rest).length ≤ maxIpPacketSize),
    ∃ data len, len.toNat = rest.length ∧ data.take rest.length = rest ∧
      receive w fd stack (.packet (b :: rest) src fits) = [some ⟨.report b :: ((group subs addr port).filter fun cmd => Wants b cmd).map fun cmd =>
        .multicast cmd.callback cmd.callbackParam b data len src,true⟩]

/- The groups that have a subscription are those that are joined, each with one socket of its own, and
every other socket is closed, or lost. -/
structure Served (w : World) (s : Service) : Prop where
  none : ∀ addr port, group s.subs addr port = [] → findMcastState w.mcast addr port = none
  some : ∀ addr port, group s.subs addr port ≠ [] → ∃ state, findMcastState w.mcast addr port = some state ∧
    (state.fd,addr) ∈ w.joined ∧ Delivers w s.subs state.fd addr port
  apart : ∀ a ∈ w.mcast, ∀ b ∈ w.mcast, a.fd = b.fd → a = b
  joined : ∀ fd addr, (fd,addr) ∈ w.joined ↔ ∃ state ∈ w.mcast, state.fd = fd ∧ state.srcAddr = addr
  sockets : w.sockets.Perm (w.mcast.map McastCommandState.fd ++ s.lost)

section Groups
variable {subs : List Subscription} {addr addr' : BitVec 32} {port port' : BitVec 16} {cmd : MulticastCommand}

theorem groupTo : group (⟨addr,port,cmd⟩ :: subs) addr port = cmd :: group subs addr port := by
  rw [group, List.filter_cons_of_pos (by simp [Subscription.To]), List.map_cons]
  rfl

theorem groupApart (apart : ¬(addr = addr' ∧ port = port')) : group (⟨addr,port,cmd⟩ :: subs) addr' port' = group subs addr' port' := by
  have drops : ¬decide (Subscription.To addr' port' ⟨addr,port,cmd⟩) = true := fun yes => apart (of_decide_eq_true yes)
  rw [group, List.filter_cons, if_neg drops]
  rfl

theorem groupRemoved {cmdNum : Int} : group (subs.filter fun sub => ¬(sub.To addr port ∧ sub.cmd.cmdNum = cmdNum)) addr port =
    (group subs addr port).filter fun cmd => cmd.cmdNum ≠ cmdNum := by
  rw [group, group, List.filter_map, List.filter_filter, List.filter_filter]
  congr 1
  apply List.filter_congr
  intro sub _
  by_cases here : sub.To addr port <;> simp [here]

theorem groupKept {cmdNum : Int} (apart : ¬(addr = addr' ∧ port = port')) :
    group (subs.filter fun sub => ¬(sub.To addr port ∧ sub.cmd.cmdNum = cmdNum)) addr' port' = group subs addr' port' := by
  rw [group, group, List.filter_filter]
  congr 1
  apply List.filter_congr
  intro sub _
  by_cases here : sub.To addr' port'
  · have not : ¬sub.To addr port := fun both => apart ⟨both.1.symm.trans here.1,both.2.symm.trans here.2⟩
    simp [here,not]
  · simp [here]

end Groups

section Pointers
variable {mcast : List McastCommandState} {ptr : Nat} {f : McastCommandState → McastCommandState}

theorem htonsTwice (port : BitVec 16) : htons (htons port) = port := by
  unfold htons
  apply BitVec.eq_of_getLsbD_eq
  intro i below
  simp only [BitVec.getLsbD_rotateLeft]
  grind

theorem writeMap {B : Type} {g : McastCommandState → B} (same : ∀ a, g (f a) = g a) : (write mcast ptr f).map g = mcast.map g := by
  rw [write, List.map_map]
  apply List.map_congr_left
  intro a _
  dsimp only [Function.comp]
  split
  · exact same a
  · rfl

theorem memWrite {b : McastCommandState} (member : b ∈ write mcast ptr f) :
    ∃ a ∈ mcast, (a.ptr = ptr ∧ b = f a) ∨ (a.ptr ≠ ptr ∧ b = a) := by
  obtain ⟨a,inside,is⟩ := List.mem_map.mp member
  refine ⟨a,inside,?_⟩
  split at is
  · next here => exact .inl ⟨here,is.symm⟩
  · next apart => exact .inr ⟨apart,is.symm⟩

theorem clearedGone (fds : ∀ a ∈ mcast, 0 < a.fd) (keeps : ∀ a, (f a).ptr = a.ptr ∧ (f a).fd = a.fd) :
    (write (write mcast ptr f) ptr .clear).filter (fun s => s.fd ≠ 0) = mcast.filter fun s => s.ptr ≠ ptr := by
  induction mcast with
  | nil => rfl
  | cons a rest ih =>
    have later := ih fun b member => fds b (List.mem_cons_of_mem _ member)
    have positive := fds a List.mem_cons_self
    rw [write, write] at later ⊢
    rw [List.map_cons, List.map_cons]
    by_cases here : a.ptr = ptr
    · rw [if_pos here, if_pos ((keeps a).1.trans here), List.filter_cons_of_neg (by simp [McastCommandState.clear]),
        List.filter_cons_of_neg (by simpa using here), later]
    · rw [if_neg here, if_neg here, List.filter_cons_of_pos (by simp; omega), List.filter_cons_of_pos (by simpa using here), later]

theorem onlyOne {B : Type} [DecidableEq B] {g : McastCommandState → B} {a : McastCommandState} (nodup : (mcast.map g).Nodup)
    (member : a ∈ mcast) : (mcast.filter fun b => g b = g a) = [a] := by
  induction mcast with
  | nil => cases member
  | cons b rest ih =>
    obtain ⟨new,nodup⟩ := List.nodup_cons.mp nodup
    rcases List.mem_cons.mp member with rfl | inside
    · rw [List.filter_cons_of_pos (by simp)]
      refine congrArg (a :: ·) (List.filter_eq_nil_iff.mpr ?_)
      exact fun c there same => new (List.mem_map.mpr ⟨c,there,of_decide_eq_true same⟩)
    · have apart : g b ≠ g a := fun same => new (List.mem_map.mpr ⟨a,inside,same.symm⟩)
      rw [List.filter_cons_of_neg (by simpa using apart), ih nodup inside]

end Pointers

structure Inv (w : World) (s : Service) : Prop where
  ptrs : (w.mcast.map McastCommandState.ptr).Nodup
  old : ∀ a ∈ w.mcast, a.ptr < w.fresh
  keys : (w.mcast.map fun a => (a.srcAddr,a.port)).Nodup
  cmds : ∀ a ∈ w.mcast, a.cmds ≠ [] ∧ a.cmds = group s.subs a.srcAddr (htons a.port)
  all : ∀ addr port, group s.subs addr port ≠ [] → (addr,htons port) ∈ w.mcast.map fun a => (a.srcAddr,a.port)
  fds : ∀ a ∈ w.mcast, 0 < a.fd
  joined : w.joined = w.mcast.map fun a => (a.fd,a.srcAddr)
  watched : w.watched = w.mcast.map fun a => (a.fd,a.ptr)
  sockets : w.sockets.Perm (w.mcast.map McastCommandState.fd ++ s.lost)
  nodup : w.sockets.Nodup

section Invariant
variable {w : World} {s : Service} {addr : BitVec 32} {port : BitVec 16}

theorem Inv.start : Inv start ⟨[],[]⟩ where
  ptrs := List.nodup_nil
  old := fun _ member => nomatch member
  keys := List.nodup_nil
  cmds := fun _ member => nomatch member
  all := fun _ _ some_ => absurd rfl some_
  fds := fun _ member => nomatch member
  joined := rfl
  watched := rfl
  sockets := List.Perm.refl _
  nodup := List.nodup_nil

theorem foundIs {state : McastCommandState} (found : findMcastState w.mcast addr port = some state) :
    state ∈ w.mcast ∧ state.port = htons port ∧ state.srcAddr = addr :=
  ⟨List.mem_of_find?_eq_some found,by simpa using List.find?_some found⟩

theorem foundNone : findMcastState w.mcast addr port = none ↔ (addr,htons port) ∉ w.mcast.map fun a => (a.srcAddr,a.port) := by
  rw [findMcastState, List.find?_eq_none]
  simp only [decide_eq_true_eq, List.mem_map, Prod.mk.injEq, not_exists, not_and]
  exact ⟨fun none a member same there => none a member there same,fun none a member there same => none a member same there⟩

theorem Inv.groupNone (inv : Inv w s) : findMcastState w.mcast addr port = none ↔ group s.subs addr port = [] := by
  rw [foundNone]
  constructor
  · exact fun none => Classical.byContradiction fun some_ => none (inv.all addr port some_)
  · intro empty listed
    obtain ⟨a,member,is⟩ := List.mem_map.mp listed
    obtain ⟨rfl,there⟩ := Prod.mk.inj is
    obtain ⟨some_,cmds⟩ := inv.cmds a member
    rw [there, htonsTwice] at cmds
    exact some_ (cmds.trans empty)

theorem Inv.groupSome (inv : Inv w s) {state : McastCommandState} (found : findMcastState w.mcast addr port = some state) :
    state.cmds = group s.subs addr port := by
  obtain ⟨member,there,rfl⟩ := foundIs found
  rw [(inv.cmds state member).2, there, htonsTwice]

theorem Inv.fdsNodup (inv : Inv w s) : (w.mcast.map McastCommandState.fd).Nodup :=
  (List.nodup_append.mp (inv.sockets.nodup_iff.mp inv.nodup)).1

end Invariant

section Steps
variable {w : World} {s : Service} {addr : BitVec 32} {port : BitVec 16} {cmd : MulticastCommand} {cmdNum : Int}
variable {state : McastCommandState}

theorem Inv.otherGroup (inv : Inv w s) (found : findMcastState w.mcast addr port = some state) {a : McastCommandState}
    (member : a ∈ w.mcast) (other : a.ptr ≠ state.ptr) : ¬(addr = a.srcAddr ∧ port = htons a.port) := by
  rintro ⟨same,rfl⟩
  obtain ⟨inside,there,here⟩ := foundIs found
  have keys : (a.srcAddr,a.port) = (state.srcAddr,state.port) := by rw [here, there, same, htonsTwice]
  exact other (congrArg McastCommandState.ptr (List.inj_on_of_nodup_map inv.keys member inside keys))

theorem Inv.here (inv : Inv w s) (found : findMcastState w.mcast addr port = some state) {a : McastCommandState}
    (member : a ∈ w.mcast) (same : a.ptr = state.ptr) : a = state :=
  List.inj_on_of_nodup_map inv.ptrs member (foundIs found).1 same

theorem Inv.written (inv : Inv w s) (found : findMcastState w.mcast addr port = some state)
    {f : McastCommandState → McastCommandState} (only : ∀ a, f a = {a with cmds := (f a).cmds}) {subs : List Subscription}
    (mine : (f state).cmds = group subs addr port) (some_ : (f state).cmds ≠ [])
    (others : ∀ addr' port', ¬(addr = addr' ∧ port = port') → group subs addr' port' = group s.subs addr' port') :
    Inv {w with mcast := write w.mcast state.ptr f} {s with subs := subs} := by
  have ptrs : (write w.mcast state.ptr f).map McastCommandState.ptr = w.mcast.map McastCommandState.ptr :=
    writeMap fun a => by rw [only]
  have keys : ((write w.mcast state.ptr f).map fun a => (a.srcAddr,a.port)) = w.mcast.map fun a => (a.srcAddr,a.port) :=
    writeMap fun a => by rw [only]
  have fds : (write w.mcast state.ptr f).map McastCommandState.fd = w.mcast.map McastCommandState.fd :=
    writeMap fun a => by rw [only]
  have joined : ((write w.mcast state.ptr f).map fun a => (a.fd,a.srcAddr)) = w.mcast.map fun a => (a.fd,a.srcAddr) :=
    writeMap fun a => by rw [only]
  have watched : ((write w.mcast state.ptr f).map fun a => (a.fd,a.ptr)) = w.mcast.map fun a => (a.fd,a.ptr) :=
    writeMap fun a => by rw [only]
  have field : ∀ {B : Type} (g : McastCommandState → B), (∀ a, g (f a) = g a) → ∀ b ∈ write w.mcast state.ptr f,
      ∃ a ∈ w.mcast, g b = g a := by
    intro B g same b member
    have there := List.mem_map_of_mem (f := g) member
    rw [writeMap same] at there
    obtain ⟨a,inside,is⟩ := List.mem_map.mp there
    exact ⟨a,inside,is.symm⟩
  exact {
    ptrs := ptrs.symm ▸ inv.ptrs
    old := by
      intro b member
      obtain ⟨a,inside,is⟩ := field McastCommandState.ptr (fun a => by rw [only]) b member
      exact is.symm ▸ inv.old a inside
    keys := keys.symm ▸ inv.keys
    cmds := by
      intro b member
      obtain ⟨a,inside,⟨same,rfl⟩ | ⟨other,rfl⟩⟩ := memWrite member
      · cases inv.here found inside same
        obtain ⟨-,there,rfl⟩ := foundIs found
        have srcAddr : (f state).srcAddr = state.srcAddr := by rw [only]
        have port_ : (f state).port = state.port := by rw [only]
        exact ⟨some_,by rw [srcAddr, port_, there, htonsTwice, mine]⟩
      · rw [others _ _ (inv.otherGroup found inside other)]
        exact inv.cmds b inside
    all := by
      intro addr' port' used
      dsimp only
      rw [keys]
      by_cases same : addr = addr' ∧ port = port'
      · obtain ⟨rfl,rfl⟩ := same
        obtain ⟨inside,there,rfl⟩ := foundIs found
        exact List.mem_map.mpr ⟨state,inside,by rw [there]⟩
      · exact inv.all addr' port' (others addr' port' same ▸ used)
    fds := by
      intro b member
      obtain ⟨a,inside,is⟩ := field McastCommandState.fd (fun a => by rw [only]) b member
      exact is.symm ▸ inv.fds a inside
    joined := inv.joined.trans joined.symm
    watched := inv.watched.trans watched.symm
    sockets := fds.symm ▸ inv.sockets
    nodup := inv.nodup}

theorem Inv.add (inv : Inv w s) (found : findMcastState w.mcast addr port = some state) :
    Inv {w with mcast := write w.mcast state.ptr (.add cmd)} {s with subs := ⟨addr,port,cmd⟩ :: s.subs} := by
  refine inv.written found (fun _ => rfl) ?_ (List.cons_ne_nil _ _) fun _ _ => groupApart
  rw [groupTo, ← inv.groupSome found]
  rfl

theorem Inv.thin (inv : Inv w s) (found : findMcastState w.mcast addr port = some state)
    (stay : (state.removeAll cmdNum).cmds ≠ []) : Inv {w with mcast := write w.mcast state.ptr (.removeAll cmdNum)}
      {s with subs := s.subs.filter fun sub => ¬(sub.To addr port ∧ sub.cmd.cmdNum = cmdNum)} := by
  refine inv.written found (fun _ => rfl) ?_ stay fun _ _ => groupKept
  rw [groupRemoved, ← inv.groupSome found]
  rfl

theorem Inv.first (inv : Inv w s) (absent : findMcastState w.mcast addr port = none) {opened : Int} (positive : 0 < opened)
    (new : opened ∉ w.sockets) : Inv ⟨⟨w.fresh,addr,htons port,opened,[cmd]⟩ :: w.mcast,opened :: w.sockets,(opened,addr) :: w.joined,
      (opened,w.fresh) :: w.watched,w.fresh + 1⟩ {s with subs := ⟨addr,port,cmd⟩ :: s.subs} where
  ptrs := by
    refine List.nodup_cons.mpr ⟨?_,inv.ptrs⟩
    intro there
    obtain ⟨a,member,is⟩ := List.mem_map.mp there
    exact Nat.ne_of_lt (inv.old a member) is
  old := by
    intro a member
    rcases List.mem_cons.mp member with rfl | inside
    · exact Nat.lt_succ_self _
    · exact Nat.lt_succ_of_lt (inv.old a inside)
  keys := List.nodup_cons.mpr ⟨foundNone.mp absent,inv.keys⟩
  cmds := by
    intro a member
    rcases List.mem_cons.mp member with rfl | inside
    · refine ⟨List.cons_ne_nil _ _,?_⟩
      dsimp only
      rw [htonsTwice, groupTo, inv.groupNone.mp absent]
    · have other : ¬(addr = a.srcAddr ∧ port = htons a.port) := by
        rintro ⟨rfl,rfl⟩
        apply foundNone.mp absent
        rw [htonsTwice]
        exact List.mem_map.mpr ⟨a,inside,rfl⟩
      rw [groupApart other]
      exact inv.cmds a inside
  all := by
    intro addr' port' some_
    by_cases same : addr = addr' ∧ port = port'
    · obtain ⟨rfl,rfl⟩ := same
      exact List.mem_cons_self
    · rw [groupApart same] at some_
      exact List.mem_cons_of_mem _ (inv.all addr' port' some_)
  fds := by
    intro a member
    rcases List.mem_cons.mp member with rfl | inside
    · exact positive
    · exact inv.fds a inside
  joined := by rw [inv.joined, List.map_cons]
  watched := by rw [inv.watched, List.map_cons]
  sockets := inv.sockets.cons opened
  nodup := List.nodup_cons.mpr ⟨new,inv.nodup⟩

theorem Inv.lose (inv : Inv w s) {opened : Int} (new : opened ∉ w.sockets) {fresh : Nat} (more : w.fresh ≤ fresh) :
    Inv {w with sockets := opened :: w.sockets, fresh := fresh} {s with lost := opened :: s.lost} :=
  {inv with
    old := fun a member => Nat.lt_of_lt_of_le (inv.old a member) more
    sockets := (inv.sockets.cons opened).trans List.perm_middle.symm
    nodup := List.nodup_cons.mpr ⟨new,inv.nodup⟩}

theorem setKeeps (inv : Inv w s) {opened : Int} {joins : Bool} (legal : Legal w (.set addr port cmd opened joins)) :
    Inv (step w (.set addr port cmd opened joins)) (serve s (.set addr port cmd opened joins)) := by
  unfold step cmdSetMulticastHandler serve
  dsimp only
  by_cases bad : addr = 0 ∨ port = 0
  · rw [if_pos bad, if_pos bad]
    exact inv
  rw [if_neg bad, if_neg bad]
  cases found : findMcastState w.mcast addr port with
  | some state =>
    have listed : group s.subs addr port ≠ [] := by
      intro empty
      rw [inv.groupNone.mpr empty] at found
      cases found
    have served : group s.subs addr port ≠ [] ∨ 0 < opened ∧ joins = true := .inl listed
    rw [if_pos served]
    exact inv.add found
  | none =>
    have empty := inv.groupNone.mp found
    have unlisted : ¬group s.subs addr port ≠ [] := not_not.mpr empty
    dsimp only
    by_cases refused : opened ≤ 0
    · have unserved : ¬(group s.subs addr port ≠ [] ∨ 0 < opened ∧ joins = true) :=
        fun served => served.elim unlisted fun both => absurd refused (Int.not_le.mpr both.1)
      rw [if_pos refused, if_neg unserved]
      by_cases zero : opened = 0
      · rw [if_pos zero, if_neg (by omega)]
        exact inv.lose legal (Nat.le_refl _)
      · rw [if_neg zero, if_pos (by omega)]
        exact inv
    · rw [if_neg refused]
      by_cases yes : joins = true
      · have served : group s.subs addr port ≠ [] ∨ 0 < opened ∧ joins = true := .inr ⟨by omega,yes⟩
        rw [if_pos yes, if_pos served]
        exact inv.first found (by omega) legal
      · have unserved : ¬(group s.subs addr port ≠ [] ∨ 0 < opened ∧ joins = true) :=
          fun served => served.elim unlisted fun both => yes both.2
        rw [if_neg yes, if_neg unserved, if_neg (by omega)]
        exact inv.lose legal (Nat.le_succ _)

theorem shutIs (inv : Inv w s) (member : state ∈ w.mcast) : w.shut state = {w with
    watched := w.watched.filter fun entry => entry.1 ≠ state.fd
    joined := w.joined.filter fun entry => entry.1 ≠ state.fd
    sockets := w.sockets.erase state.fd} := by rw [World.shut, if_pos (inv.fds state member)]

theorem Inv.gone (inv : Inv w s) (found : findMcastState w.mcast addr port = some state)
    (empty : (state.removeAll cmdNum).cmds = []) :
    Inv {w.shut state with mcast := w.mcast.filter fun a => a.ptr ≠ state.ptr}
      {s with subs := s.subs.filter fun sub => ¬(sub.To addr port ∧ sub.cmd.cmdNum = cmdNum)} := by
  have member := (foundIs found).1
  have same : ∀ a ∈ w.mcast, decide (a.fd ≠ state.fd) = decide (a.ptr ≠ state.ptr) := by
    intro a inside
    rw [decide_eq_decide]
    constructor
    · exact fun apart here => apart (congrArg McastCommandState.fd (inv.here found inside here))
    · exact fun apart here => apart (congrArg McastCommandState.ptr (List.inj_on_of_nodup_map inv.fdsNodup inside member here))
  have kept : ∀ {a : McastCommandState}, (a ∈ w.mcast.filter fun a => a.ptr ≠ state.ptr) → a ∈ w.mcast ∧ a.ptr ≠ state.ptr := by
    intro a inside
    exact ⟨List.mem_of_mem_filter inside,of_decide_eq_true (List.mem_filter.mp inside).2⟩
  have fds : (w.mcast.map McastCommandState.fd).erase state.fd =
      (w.mcast.filter fun a => a.ptr ≠ state.ptr).map McastCommandState.fd := by
    rw [inv.fdsNodup.erase_eq_filter, List.filter_map]
    congr 1
    apply List.filter_congr
    intro a inside
    rw [← same a inside, decide_not]
    rfl
  rw [shutIs inv member]
  exact {
    ptrs := inv.ptrs.sublist (List.Sublist.map _ List.filter_sublist)
    old := fun a inside => inv.old a (kept inside).1
    keys := inv.keys.sublist (List.Sublist.map _ List.filter_sublist)
    cmds := by
      intro a inside
      obtain ⟨there,other⟩ := kept inside
      rw [groupKept (inv.otherGroup found there other)]
      exact inv.cmds a there
    all := by
      intro addr' port' used
      by_cases here : addr = addr' ∧ port = port'
      · obtain ⟨rfl,rfl⟩ := here
        rw [groupRemoved, ← inv.groupSome found] at used
        exact absurd empty used
      · rw [groupKept here] at used
        obtain ⟨a,inside,is⟩ := List.mem_map.mp (inv.all addr' port' used)
        refine List.mem_map.mpr ⟨a,List.mem_filter.mpr ⟨inside,decide_eq_true ?_⟩,is⟩
        intro there
        cases inv.here found inside there
        obtain ⟨-,port_,srcAddr⟩ := foundIs found
        obtain ⟨is,is'⟩ := Prod.mk.inj is
        refine here ⟨srcAddr.symm.trans is,?_⟩
        rw [← htonsTwice port, ← htonsTwice port', ← port_, is']
    fds := fun a inside => inv.fds a (kept inside).1
    joined := by
      dsimp only
      rw [inv.joined, List.filter_map]
      exact congrArg (List.map _) (List.filter_congr same)
    watched := by
      dsimp only
      rw [inv.watched, List.filter_map]
      exact congrArg (List.map _) (List.filter_congr same)
    sockets := by
      have erased := inv.sockets.erase state.fd
      rw [List.erase_append_left _ (List.mem_map.mpr ⟨state,member,rfl⟩), fds] at erased
      exact erased
    nodup := inv.nodup.erase _}

theorem removeKeeps (inv : Inv w s) : Inv (step w (.remove addr port cmdNum)) (serve s (.remove addr port cmdNum)) := by
  unfold step cmdRemoveMulticastHandler serve
  dsimp only
  cases found : findMcastState w.mcast addr port with
  | none =>
    have empty := inv.groupNone.mp found
    have same : (s.subs.filter fun sub => ¬(sub.To addr port ∧ sub.cmd.cmdNum = cmdNum)) = s.subs := by
      apply List.filter_eq_self.mpr
      intro sub member
      apply decide_eq_true
      rintro ⟨here,-⟩
      have inside : sub.cmd ∈ group s.subs addr port :=
        List.mem_map_of_mem (List.mem_filter.mpr ⟨member,decide_eq_true here⟩)
      rw [empty] at inside
      cases inside
    rw [same]
    exact inv
  | some state =>
    dsimp only
    by_cases empty : (state.removeAll cmdNum).cmds = []
    · rw [if_pos empty, clearedGone (f := .removeAll cmdNum) inv.fds fun _ => ⟨rfl,rfl⟩]
      exact inv.gone found empty
    · rw [if_neg empty]
      exact inv.thin found empty

theorem shutAll {lost : List Int} (states : List McastCommandState) :
    ∀ {w : World}, (states.map McastCommandState.fd).Nodup → (∀ a ∈ states, 0 < a.fd) →
      (w.joined = states.map fun a => (a.fd,a.srcAddr)) → (w.watched = states.map fun a => (a.fd,a.ptr)) →
      w.sockets.Perm (states.map McastCommandState.fd ++ lost) →
      (states.foldl World.shut w).joined = [] ∧ (states.foldl World.shut w).watched = [] ∧
        (states.foldl World.shut w).sockets.Perm lost := by
  induction states with
  | nil => exact fun _ _ joined watched sockets => ⟨joined,watched,sockets⟩
  | cons a rest ih =>
    intro w nodup fds joined watched sockets
    obtain ⟨new,nodup⟩ := List.nodup_cons.mp nodup
    have others : ∀ b ∈ rest, b.fd ≠ a.fd := fun b member same => new (List.mem_map.mpr ⟨b,member,same⟩)
    have dropped : ∀ {B : Type} (g : McastCommandState → B),
        (((a :: rest).map fun b => (b.fd,g b)).filter fun entry => entry.1 ≠ a.fd) = rest.map fun b => (b.fd,g b) := by
      intro B g
      rw [List.map_cons, List.filter_cons_of_neg (by simp)]
      apply List.filter_eq_self.mpr
      intro entry member
      obtain ⟨b,inside,rfl⟩ := List.mem_map.mp member
      exact decide_eq_true (others b inside)
    rw [List.foldl_cons, World.shut, if_pos (fds a List.mem_cons_self)]
    refine ih nodup (fun b member => fds b (List.mem_cons_of_mem _ member)) ?_ ?_ ?_
    · dsimp only
      rw [joined, dropped]
    · dsimp only
      rw [watched, dropped]
    · have erased := sockets.erase a.fd
      rw [List.map_cons, List.cons_append, List.erase_cons_head] at erased
      exact erased

theorem foldKeeps (states : List McastCommandState) : ∀ {w : World}, (states.foldl World.shut w).fresh = w.fresh := by
  induction states with
  | nil => exact rfl
  | cons a rest ih =>
    intro w
    rw [List.foldl_cons, ih, World.shut]
    split <;> rfl

theorem cleanupKeeps (inv : Inv w s) : Inv (step w .cleanup) (serve s .cleanup) := by
  obtain ⟨joined,watched,sockets⟩ := shutAll w.mcast inv.fdsNodup inv.fds inv.joined inv.watched inv.sockets
  have lost := (List.nodup_append.mp (inv.sockets.nodup_iff.mp inv.nodup)).2.1
  exact {
    ptrs := List.nodup_nil
    old := fun _ member => nomatch member
    keys := List.nodup_nil
    cmds := fun _ member => nomatch member
    all := fun _ _ some_ => absurd rfl some_
    fds := fun _ member => nomatch member
    joined := joined
    watched := watched
    sockets := sockets
    nodup := sockets.nodup_iff.mpr lost}

theorem stepKeeps (inv : Inv w s) (a : Action) (legal : Legal w a) : Inv (step w a) (serve s a) := by
  cases a with
  | set addr port cmd opened joins => exact setKeeps inv legal
  | remove addr port cmdNum => exact removeKeeps inv
  | cleanup => exact cleanupKeeps inv

theorem runKeeps (acts : List Action) : ∀ {w : World} {s : Service}, Inv w s → Along step Legal w acts →
    Inv (exec step w acts) (exec serve s acts) := by
  induction acts with
  | nil => exact fun inv _ => inv
  | cons a rest ih => exact fun inv legal => ih (stepKeeps inv a legal.1) legal.2

theorem Inv.receives (inv : Inv w s) (member : state ∈ w.mcast) (stack : Stack) (recv : Recv) :
    receive w state.fd stack recv = [some (Receives.multicastCmdHandlerCb (some state.cmds) .read stack recv)] := by
  have watch : (w.watched.filter fun entry => entry.1 = state.fd) = [(state.fd,state.ptr)] := by
    rw [inv.watched, List.filter_map]
    exact congrArg (List.map _) (onlyOne inv.fdsNodup member)
  have here : (w.mcast.find? fun s => s.ptr = state.ptr) = some state := by
    rw [← List.head?_filter, onlyOne inv.ptrs member]
    rfl
  rw [receive, watch, List.map_singleton, here]
  rfl

theorem Inv.delivers (inv : Inv w s) (found : findMcastState w.mcast addr port = some state) :
    Delivers w s.subs state.fd addr port := by
  intro stack b rest src fits
  obtain ⟨len,is,less,split⟩ := Receives.behindFirst stack src fits (List.cons_ne_nil b rest)
  obtain ⟨first,others⟩ := List.cons.inj split
  have few : len.toNat = rest.length := Nat.succ.inj less
  refine ⟨_,len,few,few ▸ others.symm,?_⟩
  rw [inv.receives (foundIs found).1, inv.groupSome found, Receives.multicastCmdHandlerCb, if_pos rfl]
  dsimp only
  rw [if_pos (Receives.positiveLen src fits (List.cons_ne_nil b rest)), is, ← first]
  rfl

theorem Inv.served (inv : Inv w s) : Served w s where
  none := fun _ _ empty => inv.groupNone.mpr empty
  some := by
    intro addr port used
    cases found : findMcastState w.mcast addr port with
    | none => exact absurd (inv.groupNone.mp found) used
    | some state =>
      obtain ⟨member,-,rfl⟩ := foundIs found
      refine ⟨state,rfl,?_,inv.delivers found⟩
      rw [inv.joined]
      exact List.mem_map.mpr ⟨state,member,rfl⟩
  apart := fun a left b right same => List.inj_on_of_nodup_map inv.fdsNodup left right same
  joined := by
    intro fd addr
    rw [inv.joined, List.mem_map]
    simp only [Prod.mk.injEq]
  sockets := inv.sockets

end Steps

/- Over any run of the calls, groups are listened to just as long as somebody is subscribed to them, and
what arrives is given to the subscriptions it is for. -/
theorem subscriptionsServed (acts : List Action) (legal : Along step Legal start acts) :
    Served (exec step start acts) (exec serve ⟨[],[]⟩ acts) := (runKeeps acts Inv.start legal).served

def sampleCalls : List Action :=
  [.set 0xE0000001 7000 ⟨5,1,0⟩ 3 true,.set 0xE0000001 7000 ⟨-1,2,0⟩ 4 true,.set 0xE0000002 7000 ⟨5,3,0⟩ 5 false,
    .remove 0xE0000001 7000 5]

theorem sampleServed : Along step Legal start sampleCalls ∧ Served (exec step start sampleCalls) (exec serve ⟨[],[]⟩ sampleCalls) := by
  have legal : Along step Legal start sampleCalls := by
    refine ⟨?_,?_,?_,?_,trivial⟩ <;> simp [Legal,start,step,cmdSetMulticastHandler,findMcastState,htons,write]
  exact ⟨legal,subscriptionsServed sampleCalls legal⟩

end LibProc.Multicast
