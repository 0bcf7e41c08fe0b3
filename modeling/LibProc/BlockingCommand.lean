import LibProc.Delivery

/-! IPC_command_blocking: a command without a process. It opens a socket of its own, sends the command,
waits until a time that is fixed before the first wait, and takes the first packet there is. -/
namespace LibProc.BlockingCommand
open XdrBytes Xdr Ipc
open Receives (Recv)
open Requests (CbType)

inductive Select where
  | ready
  | timeout
  | failed (interrupted : Bool)

structure Round where
  select : Select
  now : Timeval

def waitLoop (endTime : Timeval) (now : Timeval) (rounds : List Round) : Option Int × List Timeval :=
  if Timeval.timercmp (· < ·) now endTime then
    let tmpTv := Timeval.timersub endTime now
    match rounds with
    | [] => (none,[tmpTv])
    | round :: rest => match round.select with
      | .ready => (some 1,[tmpTv])
      | .failed false => (some (-1),[tmpTv])
      | _ =>
        let later := waitLoop endTime round.now rest
        (later.1,tmpTv :: later.2)
  else (some 0,[])

def endTime (now : Timeval) (msDur : Int) : Timeval :=
  let sec := msDur.tdiv 1000
  Timeval.timeradd ⟨sec,(msDur - sec * 1000) * 1000⟩ now

def waitForPacket (now : Timeval) (msDur : Int) (rounds : List Round) : Option Int × List Timeval :=
  waitLoop (endTime now msDur) now rounds

inductive Answer where
  | timeout
  | raw (packet : List Byte)
  | cooked (d : StructDefinition) (response : Val)

inductive Event where
  | opened
  | wrote (bytes : List Byte) (dest : Address)
  | waited (time : Timeval)
  | closed
  | called (answer : Answer)

structure Kernel where
  socket : Int
  now : Timeval
  rounds : List Round
  recv : Recv

structure Outcome where
  result : Except Stop (Option Int)
  events : List Event

def socketWrite (dest : Address) (txCmd : Packet) : List Event :=
  match txCmd.buff with
  | none => []
  | some buff => [.wrote (buff.take txCmd.len) dest]

def socketSendPacketAndReadXdrSa (k : Kernel) (dest : Address) (txCmd : Packet) (timeout : BitVec 32) : Option Int × List Event :=
  if k.socket < 0 then (some (-1),[])
  else
    let sent := .opened :: socketWrite dest txCmd
    let waits := waitForPacket k.now timeout.toInt k.rounds
    match waits.1 with
    | none => (none,sent ++ waits.2.map .waited)
    | some result =>
      (some (if result = 0 then -2 else if result ≠ 1 then -3 else (Receives.socketRead k.recv).toInt),
        sent ++ waits.2.map .waited ++ [.closed])

def received : Recv → List Byte
  | .error => []
  | .packet bytes _ _ => bytes

/- The deallocator of a response runs after its callback. -/
def cmdResolveCallback (env : Env) (cb : Bool) (cbType : CbType) (rxbuff : List Byte) : Except Stop (Option Int) × List Answer :=
  if cb then match cbType with
    | .raw => (.ok (some 0),[.raw rxbuff])
    | .cooked => match Requests.cookResponse env rxbuff with
      | .error stop => (.error stop,[])
      | .ok none => (.ok (some 0),[])
      | .ok (some (d,response)) =>
        (match structFreeDeallocator env d.fields response with
          | .error stop => .error stop
          | .ok _ => .ok (some 0),[.cooked d response])
  else (.ok (some 0),[])

def ipcBlockingCommand (env : Env) (k : Kernel) (cb : Bool) (cbType : CbType) (dest : Address) (txbuff : Packet)
    (timeout : BitVec 32) : Outcome :=
  let sent := socketSendPacketAndReadXdrSa k dest txbuff timeout
  match sent.1 with
  | none => ⟨.ok none,sent.2⟩
  | some rxlen =>
    if rxlen < 0 then ⟨.ok (some rxlen),sent.2 ++ if cb then [.called .timeout] else []⟩
    else
      let resolved := cmdResolveCallback env cb cbType (received k.recv)
      ⟨resolved.1,sent.2 ++ resolved.2.map .called⟩

def ipcCommandBlocking (env : Env) (fuel : Nat) (heap : Heap) (nextCmdRef : BitVec 32) (command paramType : BitVec 32) (params : Val)
    (dest : Address) (cb : Bool) (cbType : CbType) (timeout : BitVec 32) (k : Kernel) : Outcome × BitVec 32 :=
  match ipcCommandInternal env fuel heap nextCmdRef false command paramType params dest with
  | .error stop => (⟨.error stop,[]⟩,nextCmdRef)
  | .ok (some (.blocking txbuff dest),next) => (ipcBlockingCommand env k cb cbType dest txbuff timeout,next)
  | .ok (_,next) => (⟨.ok (some (-1)),[]⟩,next)

/- The first round that decides: a packet, an error, or a clock that has come to the deadline, all in
microseconds. -/
def decides (deadline : Int) (round : Round) : Option Int :=
  match round.select with
  | .ready => some 1
  | .failed false => some (-1)
  | _ => if round.now.usecs < deadline then none else some 0

def verdict (deadline : Int) (k : Kernel) : Option Int :=
  if k.now.usecs < deadline then k.rounds.findSome? (decides deadline) else some 0

def answers (env : Env) (cbType : CbType) (packet : List Byte) : List Answer :=
  match cbType with
  | .raw => [.raw packet]
  | .cooked => match Requests.cookResponse env packet with
    | .ok (some (d,response)) => [.cooked d response]
    | _ => []

def told (env : Env) (cbType : CbType) (deadline : Int) (k : Kernel) : List Answer :=
  if k.socket < 0 then [.timeout]
  else match verdict deadline k with
    | none => []
    | some 1 => match k.recv with
      | .error => [.timeout]
      | .packet bytes _ _ => answers env cbType bytes
    | _ => [.timeout]

/- Each wait is from a reading of the clock, the first one or the ones behind the rounds so far, to the
deadline, and there is none behind it. -/
def WaitsUntil (deadline : Int) (k : Kernel) (waits : List Timeval) : Prop :=
  ∃ readings, readings <+: k.now :: k.rounds.map Round.now ∧ List.Forall₂ (fun wait reading : Timeval =>
    wait.Normal ∧ 0 < wait.usecs ∧ reading.usecs + wait.usecs = deadline) waits readings

section Waiting

theorem ltUsecs {a b : Timeval} (ha : a.Normal) (hb : b.Normal) : Timeval.timercmp (· < ·) a b = true ↔ a.usecs < b.usecs := by
  rw [Timeval.timercmpLt, ← not_le, Timeval.leUsecs hb ha, not_le]

theorem waitedTime {deadline reading : Timeval} (hd : deadline.Normal) (hr : reading.Normal) (before : reading.usecs < deadline.usecs) :
    (Timeval.timersub deadline reading).Normal ∧ 0 < (Timeval.timersub deadline reading).usecs ∧
      reading.usecs + (Timeval.timersub deadline reading).usecs = deadline.usecs := by
  have usecs := Timeval.timersubUsecs deadline reading
  refine ⟨?_,by omega,by omega⟩
  obtain ⟨low,high⟩ := hd
  obtain ⟨low',high'⟩ := hr
  unfold Timeval.timersub Timeval.Normal
  dsimp only
  split <;> dsimp only <;> omega

theorem waitLoopIs {deadline : Timeval} (hd : deadline.Normal) (rounds : List Round) : ∀ {now : Timeval}, now.Normal →
    (∀ round ∈ rounds, round.now.Normal) →
    (waitLoop deadline now rounds).1 =
      (if now.usecs < deadline.usecs then rounds.findSome? (decides deadline.usecs) else some 0) ∧
    ∃ readings, readings <+: now :: rounds.map Round.now ∧ List.Forall₂ (fun wait reading : Timeval =>
      wait.Normal ∧ 0 < wait.usecs ∧ reading.usecs + wait.usecs = deadline.usecs) (waitLoop deadline now rounds).2 readings := by
  have late : ∀ {now : Timeval} (rounds : List Round), now.Normal → ¬now.usecs < deadline.usecs →
      waitLoop deadline now rounds = (some 0,[]) := by
    intro now rounds normal up
    rw [waitLoop.eq_def, if_neg fun less => up ((ltUsecs normal hd).mp less)]
  induction rounds with
  | nil =>
    intro now normal _
    by_cases early : now.usecs < deadline.usecs
    · rw [waitLoop, if_pos ((ltUsecs normal hd).mpr early), if_pos early]
      exact ⟨rfl,[now],List.prefix_refl _,.cons (waitedTime hd normal early) .nil⟩
    · rw [late [] normal early, if_neg early]
      exact ⟨rfl,[],List.nil_prefix,.nil⟩
  | cons round rest ih =>
    intro now normal clocks
    by_cases early : now.usecs < deadline.usecs
    · have wait := waitedTime hd normal early
      have first : [now] <+: now :: (round :: rest).map Round.now := ⟨_,rfl⟩
      obtain ⟨decided,readings,front,waits⟩ := ih (clocks round List.mem_cons_self) fun r member => clocks r (List.mem_cons_of_mem _ member)
      have further : now :: readings <+: now :: (round :: rest).map Round.now := List.cons_prefix_cons.mpr ⟨rfl,front⟩
      have goes : (if round.now.usecs < deadline.usecs then rest.findSome? (decides deadline.usecs) else some 0) =
          ((if round.now.usecs < deadline.usecs then none else some (0 : Int)) <|> rest.findSome? (decides deadline.usecs)) := by
        split <;> rfl
      rw [waitLoop, if_pos ((ltUsecs normal hd).mpr early), if_pos early, List.findSome?_cons]
      dsimp only
      cases select : round.select with
      | ready =>
        rw [decides, select]
        exact ⟨rfl,[now],first,.cons wait .nil⟩
      | timeout =>
        rw [decides, select]
        dsimp only
        refine ⟨?_,now :: readings,further,.cons wait waits⟩
        rw [decided]
        split <;> rfl
      | failed interrupted =>
        cases interrupted with
        | false =>
          rw [decides, select]
          exact ⟨rfl,[now],first,.cons wait .nil⟩
        | true =>
          rw [decides, select]
          dsimp only
          refine ⟨?_,now :: readings,further,.cons wait waits⟩
          rw [decided]
          split <;> rfl
    · rw [late _ normal early, if_neg early]
      exact ⟨rfl,[],List.nil_prefix,.nil⟩

/- A time below zero, which is what the int makes of 2^31 milliseconds and more, is over at once. -/
theorem waitsUntil {k : Kernel} (normal : k.now.Normal) (clocks : ∀ round ∈ k.rounds, round.now.Normal) (msDur : Int) :
    (waitForPacket k.now msDur k.rounds).1 = verdict (k.now.usecs + 1000 * msDur) k ∧
      WaitsUntil (k.now.usecs + 1000 * msDur) k (waitForPacket k.now msDur k.rounds).2 := by
  have usecs : (endTime k.now msDur).usecs = k.now.usecs + 1000 * msDur := by
    unfold endTime
    dsimp only
    rw [Timeval.timeraddUsecs, Timeval.usecs]
    dsimp only
    omega
  by_cases sign : 0 ≤ msDur
  · have hd : (endTime k.now msDur).Normal := by
      unfold endTime
      dsimp only
      have time : Timeval.Normal ⟨msDur.tdiv 1000,(msDur - msDur.tdiv 1000 * 1000) * 1000⟩ := by
        rw [Int.tdiv_eq_ediv_of_nonneg sign]
        constructor <;> dsimp only <;> omega
      exact Timeval.timeraddNormal time.reading normal
    rw [← usecs]
    exact waitLoopIs hd k.rounds normal clocks
  · have before : ¬k.now.usecs < k.now.usecs + 1000 * msDur := by omega
    have atOnce : waitForPacket k.now msDur k.rounds = (some 0,[]) := by
      have quotient : msDur.tdiv 1000 = -(-msDur / 1000) := by
        rw [← Int.tdiv_eq_ediv_of_nonneg (by omega), Int.neg_tdiv, neg_neg]
      rw [waitForPacket, waitLoop.eq_def, if_neg]
      rw [Timeval.timercmpLt, Timeval.ltIff]
      unfold endTime Timeval.timeradd
      obtain ⟨low,high⟩ := normal
      dsimp only
      rw [quotient]
      split <;> dsimp only <;> omega
    rw [atOnce, verdict, if_neg before]
    exact ⟨rfl,[],List.nil_prefix,.nil⟩

end Waiting

theorem socketReadPacket {bytes : List Byte} {src : Address} {fits : bytes.length ≤ Receives.maxIpPacketSize} :
    (Receives.socketRead (.packet bytes src fits)).toInt = bytes.length := by
  have small : bytes.length < 2 ^ 16 := lt_of_le_of_lt fits (by decide)
  rw [Receives.socketRead, Receives.recvfrom, BitVec.toInt_eq_toNat_of_lt, BitVec.toNat_setWidth, BitVec.toNat_ofNat]
  · omega
  · rw [BitVec.toNat_setWidth, BitVec.toNat_ofNat]
    omega

theorem resolvedIs (env : Env) (cb : Bool) (cbType : CbType) (packet : List Byte) :
    (cmdResolveCallback env cb cbType packet).2 = if cb then answers env cbType packet else [] := by
  unfold cmdResolveCallback answers
  cases cb with
  | false => rfl
  | true =>
    cases cbType with
    | raw => rfl
    | cooked =>
      dsimp only
      rcases Requests.cookResponse env packet with stop | (_ | ⟨d,response⟩) <;> rfl

theorem blockingCalls {env : Env} {k : Kernel} {cb : Bool} {cbType : CbType} {dest : Address} {txbuff : Packet} {timeout : BitVec 32}
    {bytes : List Byte} (exact_ : txbuff.Exactly bytes) (normal : k.now.Normal) (clocks : ∀ round ∈ k.rounds, round.now.Normal) :
    ∃ waits, WaitsUntil (k.now.usecs + 1000 * timeout.toInt) k waits ∧
      (ipcBlockingCommand env k cb cbType dest txbuff timeout).events =
        (if k.socket < 0 then []
          else .opened :: .wrote bytes dest :: waits.map .waited ++
            if verdict (k.now.usecs + 1000 * timeout.toInt) k = none then [] else [.closed]) ++
        if cb then (told env cbType (k.now.usecs + 1000 * timeout.toInt) k).map .called else [] := by
  obtain ⟨decided,until_⟩ := waitsUntil normal clocks timeout.toInt
  obtain ⟨-,buff,there,front⟩ := exact_
  have written : socketWrite dest txbuff = [.wrote bytes dest] := by rw [socketWrite, there, ← front]
  generalize k.now.usecs + 1000 * timeout.toInt = deadline at *
  refine ⟨(waitForPacket k.now timeout.toInt k.rounds).2,until_,?_⟩
  unfold ipcBlockingCommand socketSendPacketAndReadXdrSa told
  by_cases unopened : k.socket < 0
  · rw [if_pos unopened, if_pos unopened, if_pos unopened]
    cases cb <;> rfl
  rw [if_neg unopened, if_neg unopened, if_neg unopened, written]
  dsimp only
  rw [decided]
  cases verdict deadline k with
  | none =>
    dsimp only
    rw [if_pos rfl]
    cases cb <;> simp
  | some result =>
    have closes : ¬some result = none := Option.some_ne_none result
    dsimp only
    rw [if_neg closes]
    by_cases one : result = 1
    · subst one
      have reads : (if (1 : Int) = 0 then -2 else if (1 : Int) ≠ 1 then -3 else (Receives.socketRead k.recv).toInt) =
          (Receives.socketRead k.recv).toInt := rfl
      rw [reads]
      cases recv : k.recv with
      | error =>
        rw [if_pos (by decide)]
        cases cb <;> simp
      | packet packet src fits =>
        rw [socketReadPacket, if_neg (by omega)]
        dsimp only
        rw [resolvedIs]
        cases cb <;> simp [received]
    · have timeout_ : (match (some result : Option Int) with
          | none => []
          | some 1 => match k.recv with
            | .error => [Answer.timeout]
            | .packet bytes _ _ => answers env cbType bytes
          | _ => [.timeout]) = [.timeout] := by
        split
        · next none_ => cases none_
        · next same => exact absurd (Option.some.inj same) one
        · rfl
      have negative : (if result = 0 then -2 else if result ≠ 1 then -3 else (Receives.socketRead k.recv).toInt) < 0 := by
        by_cases zero : result = 0
        · rw [if_pos zero]
          decide
        · rw [if_neg zero, if_pos one]
          decide
      rw [if_pos negative, timeout_]
      cases cb <;> simp

section Whole
variable {env : Env} {depth fuel : Nat} {type : BitVec 32} {params : Val} {body : List Byte} {d : StructDefinition}

theorem responseTold (understood : Delivery.Understood env depth (16 + body.length) type params body d) {r : StructDefinition}
    (known : env.definitionForType Requests.typesResponse = some r)
    (laidOut : r.inMemorySize ≠ 0 ∧ r.coder = .struct ∧ r.fields = responseFields) (ipcref : BitVec 32) {k : Kernel} {deadline : Int}
    (opens : 0 ≤ k.socket) (arrives : verdict deadline k = some 1) {src : Address}
    (fits : (responseBytes ipcref type body).length ≤ Receives.maxIpPacketSize)
    (packet : k.recv = .packet (responseBytes ipcref type body) src fits) :
    ∃ params', Equal params params' ∧ told env .cooked deadline k =
      [.cooked r (.struct [.word cmdsResponse,.word ipcref,.word resultcodeSuccess,.union type params'])] := by
  obtain ⟨params',same,cook⟩ := understood.cooked known laidOut ipcref
  refine ⟨params',same,?_⟩
  rw [told, if_neg (not_lt.mpr opens), arrives, packet]
  simp only [answers,cook]

/- A command without a process sends its message once, from a socket that is closed again before the
callback runs. No wait goes beyond the time the command was given, interrupted or not; the callback is
told the first packet there was by then, and a timeout if there was none. -/
theorem blockingCommandCalls (message : Parameters env depth type params body d) (deep : depth ≤ fuel) {heap : Heap}
    (enough : Enough heap (objectEndsOpaque env depth d params) (12 + body.length)) (command ipcref timeout : BitVec 32)
    (dest : Address) (cb : Bool) (cbType : CbType) (k : Kernel) (normal : k.now.Normal) (clocks : ∀ round ∈ k.rounds, round.now.Normal) :
    let deadline := k.now.usecs + 1000 * timeout.toInt
    let done := ipcCommandBlocking env fuel heap ipcref command type params dest cb cbType timeout k
    done.2 = ipcref + 1 ∧ ∃ waits, WaitsUntil deadline k waits ∧
      done.1.events =
        (if k.socket < 0 then []
          else .opened :: .wrote (commandBytes command ipcref type body) dest :: waits.map .waited ++
            if verdict deadline k = none then [] else [.closed]) ++
        if cb then (told env cbType deadline k).map .called else [] := by
  obtain ⟨packet,sent,exact_⟩ := (retryTransmits heap (message.command deep command ipcref)).mpr (by rwa [Delivery.commandLength])
  have handed : ipcCommandInternal env fuel heap ipcref false command type params dest = .ok (some (.blocking packet dest),ipcref + 1) := by
    simp only [ipcCommandInternal,sent,bind,Except.bind]
    rfl
  unfold ipcCommandBlocking
  rw [handed]
  exact ⟨rfl,blockingCalls exact_ normal clocks⟩

def sampleKernel : Kernel :=
  ⟨3,⟨10,0⟩,[⟨.failed true,⟨10,500000⟩⟩,⟨.ready,⟨10,600000⟩⟩],.packet [1,2,3] ⟨99,7⟩ (by decide)⟩

theorem numberCalls : let done := ipcCommandBlocking sampleEnv 1 plenty 1 5 7 Delivery.numberParams ⟨99,1⟩ true .raw 1000 sampleKernel
    done.2 = 2 ∧ ∃ waits, WaitsUntil 11000000 sampleKernel waits ∧ done.1.events =
      .opened :: .wrote (commandBytes 5 1 7 (beBytes 9 ++ [])) ⟨99,1⟩ :: waits.map .waited ++ [.closed] ++ [.called (.raw [1,2,3])] :=
  blockingCommandCalls Delivery.numberMessage le_rfl ⟨by simp [plenty],.inl (by decide)⟩ 5 1 1000 ⟨99,1⟩ true .raw sampleKernel
    (by decide) (by decide)

end Whole

end LibProc.BlockingCommand
