import LibProc.Children

/-! The death of a child process. A child is done when it has been reaped and its three descriptors are -1;
whoever makes that true last runs `deathCb` and frees the record. -/
namespace LibProc.ChildDeath
open Children
open FdRegistry (eventKeep eventRemove)
open Runs (exec Along)

/- `deathCb` has been called for once, or is still to be called for. -/
structure Reported (w : World) : Prop where
  once : w.reports.length = if w.ended then 1 else 0
  live : w.stop ≠ some .freedChild

/- No open stream with a dump or echo handler fails (or has nothing to read yet), and no stream callback closes the
last descriptors of its child after it has been reaped. -/
def Safe (w : World) : Act → Prop
  | .ready fd read answers _ _ => w.hasOpen fd = true →
    (read = .error ∨ read = .again → w.handlers fd ≠ some .dump ∧ w.handlers fd ≠ some .echo) ∧
    (w.handlers fd = some .reader → w.reaped = true →
      ∃ stream, w.finished stream = false ∧ w.fds stream ∉ answers.flatMap CbAnswer.closes)
  | _ => True

def Lands {α : Type} (result : Except Stop α) (p : α → Prop) : Prop :=
  match result with
  | .error stop => stop ≠ .freedChild
  | .ok a => p a

theorem Lands.bind {α β : Type} {result : Except Stop α} {p : α → Prop} {q : β → Prop} {f : α → Except Stop β}
    (first : Lands result p) (second : ∀ a, p a → Lands (f a) q) : Lands (result >>= f) q := by
  cases result with
  | error stop => exact first
  | ok a => exact second a first

structure Alive (w : World) (child : Child) : Prop where
  reaped : child.state = .flushPipes ↔ w.reaped = true
  fd : ∀ stream, child.fd stream = if w.finished stream then -1 else w.fds stream

structure Inv (w : World) : Prop where
  alive : ∀ child, w.child = some child → Alive w child ∧ w.reports = [] ∧ w.ended = false
  gone : w.child = none → w.reports.length = 1 ∧ w.ended = true
  absent : ∀ stream, w.fds stream = -1 → w.finished stream = true
  live : w.stop ≠ some .freedChild

section
variable {w : World} {child : Child} {fd : Int}

theorem Inv.reported (inv : Inv w) : Reported w := by
  refine ⟨?_,inv.live⟩
  cases is : w.child with
  | none =>
    obtain ⟨once,ended⟩ := inv.gone is
    rw [once, ended, if_pos rfl]
  | some child =>
    obtain ⟨-,none_,ended⟩ := inv.alive child is
    rw [none_, ended]
    rfl

theorem fdClosed (absent : ∀ stream, w.fds stream = -1 → w.finished stream = true)
    (fds : ∀ stream, child.fd stream = if w.finished stream then -1 else w.fds stream) (stream : Stream) :
    child.fd stream = -1 ↔ w.finished stream = true := by
  rw [fds]
  cases finished : w.finished stream with
  | true => simp
  | false =>
    refine iff_of_false (fun closed => ?_) Bool.false_ne_true
    have closed : w.fds stream = -1 := closed
    rw [absent stream closed] at finished
    cases finished

theorem validates (is : w.child = some child) (alive : Alive w child)
    (absent : ∀ stream, w.fds stream = -1 → w.finished stream = true) (reports : w.reports = [])
    (live : w.stop ≠ some .freedChild) :
    ∃ after, validatePipeFlush w = .ok after ∧ Inv after ∧
      after = if w.ended then
        { w with
          child := none
          reports := [child.deathCb]
          ledger := fun stream => w.ledger stream ++ lost .freed (child.streamState stream).buffered }
      else w := by
  have kept : w.ended = false → Inv w := fun running =>
    ⟨fun other same => by cases is.symm.trans same; exact ⟨alive,reports,running⟩,
      fun none_ => (by cases is.symm.trans none_),absent,live⟩
  have closed := fdClosed absent alive.fd
  unfold validatePipeFlush World.record
  rw [is]
  dsimp only [bind,Except.bind]
  by_cases flushing : child.state = .flushPipes
  · have reaped := alive.reaped.mp flushing
    rw [if_neg (not_not.mpr flushing)]
    by_cases waiting : child.fd .stdin ≠ -1 ∨ child.fd .stdout ≠ -1 ∨ child.fd .stderr ≠ -1
    · have running : w.ended = false := by
        rw [Ne, Ne, Ne, closed, closed, closed] at waiting
        rw [World.ended, reaped, Bool.true_and, Bool.and_eq_false_iff, Bool.and_eq_false_iff]
        simp only [Bool.not_eq_true] at waiting
        tauto
      rw [if_pos waiting, running]
      exact ⟨w,rfl,kept running,rfl⟩
    · have ended : w.ended = true := by
        rw [Ne, Ne, Ne, closed, closed, closed] at waiting
        simp only [not_or,not_not] at waiting
        rw [World.ended, reaped, waiting.1, waiting.2.1, waiting.2.2]
        rfl
      rw [if_neg waiting, ended, reports]
      refine ⟨_,rfl,⟨fun other same => (by cases same),fun _ => ⟨rfl,ended⟩,absent,live⟩,rfl⟩
  · have running : w.ended = false := by
      have not_ : w.reaped = false := Bool.eq_false_iff.mpr fun reaped => flushing (alive.reaped.mpr reaped)
      rw [World.ended, not_, Bool.false_and]
    rw [if_pos flushing, running]
    exact ⟨w,rfl,kept running,rfl⟩

theorem finishSame (same : 0 ≤ fd → ∀ stream, w.fds stream = fd → w.finished stream = true) : w.finish fd = w := by
  have streams : (fun stream => w.finished stream || (decide (0 ≤ fd) && decide (w.fds stream = fd))) = w.finished := by
    funext stream
    cases finished : w.finished stream with
    | true => rfl
    | false =>
      rw [Bool.false_or, Bool.and_eq_false_iff, decide_eq_false_iff_not, decide_eq_false_iff_not]
      by_contra both
      simp only [not_or,not_not] at both
      rw [same both.1 stream both.2] at finished
      cases finished
  rw [World.finish, streams]

structure After (w after : World) (fd : Int) : Prop where
  fds : after.fds = w.fds
  reaped : after.reaped = w.reaped
  finished : after.finished = (w.finish fd).finished

theorem closesInv (inv : Inv w) (is : w.child = some child) (fd : Int) :
    ∃ after, closes w fd = .ok after ∧ Inv after ∧ After w after fd := by
  obtain ⟨alive,reports,-⟩ := inv.alive child is
  unfold closes chldCloseFd World.record
  have is' : (w.finish fd).child = some child := is
  rw [is']
  dsimp only [bind,Except.bind]
  by_cases negative : fd < 0
  · have same : w.finish fd = w := finishSame fun positive => absurd negative (Int.not_lt.mpr positive)
    rw [if_pos negative, same]
    exact ⟨w,rfl,inv,rfl,rfl,by rw [same]⟩
  have positive := Int.not_lt.mp negative
  rw [if_neg negative]
  by_cases foreign : fd ≠ child.fd .stdin ∧ fd ≠ child.fd .stdout ∧ fd ≠ child.fd .stderr
  · have same : w.finish fd = w := by
      refine finishSame fun _ stream named => ?_
      by_contra running
      have open_ : child.fd stream = fd := by rw [alive.fd, if_neg running, named]
      cases stream with
      | stdin => exact foreign.1 open_.symm
      | stdout => exact foreign.2.1 open_.symm
      | stderr => exact foreign.2.2 open_.symm
    rw [if_pos foreign, same]
    exact ⟨w,rfl,inv,rfl,rfl,by rw [same]⟩
  · rw [if_neg foreign]
    have closed : Alive { w.finish fd with child := some (child.without fd) } (child.without fd) := by
      refine ⟨alive.reaped,fun stream => ?_⟩
      change (if fd = child.fd stream then -1 else child.fd stream) =
        if (w.finished stream || (decide (0 ≤ fd) && decide (w.fds stream = fd))) then -1 else w.fds stream
      rw [alive.fd, decide_eq_true positive, Bool.true_and]
      cases w.finished stream with
      | true =>
        have other : fd ≠ -1 := by omega
        simp
      | false => simp [eq_comm]
    have absent : ∀ stream, w.fds stream = -1 → (w.finish fd).finished stream = true := by
      intro stream none_
      change (w.finished stream || _) = true
      rw [inv.absent stream none_, Bool.true_or]
    obtain ⟨after,done,inv',shape⟩ := validates rfl closed absent reports inv.live
    refine ⟨after,done,inv',?_⟩
    rw [shape]
    split
    · exact ⟨rfl,rfl,rfl⟩
    · exact ⟨rfl,rfl,rfl⟩

structure Open (w : World) (fds : List Int) : Prop where
  inv : Inv w
  child : ∃ child, w.child = some child
  spared : w.reaped = true → ∃ stream, w.finished stream = false ∧ w.fds stream ∉ fds

theorem runningChild (inv : Inv w) (running : w.ended = false) : ∃ child, w.child = some child := by
  cases is : w.child with
  | none =>
    rw [(inv.gone is).2] at running
    cases running
  | some child => exact ⟨child,rfl⟩

theorem endedFinished (ended : w.ended = true) : w.reaped = true ∧ ∀ stream, w.finished stream = true := by
  simp only [World.ended,Bool.and_eq_true] at ended
  refine ⟨ended.1,fun stream => ?_⟩
  cases stream with
  | stdin => exact ended.2.1.1
  | stdout => exact ended.2.1.2
  | stderr => exact ended.2.2

theorem closesOpen {fds : List Int} (opened : Open w (fd :: fds)) : Lands (closes w fd) fun after => Open after fds := by
  obtain ⟨child,is⟩ := opened.child
  obtain ⟨after,done,inv,same⟩ := closesInv opened.inv is fd
  rw [done]
  have spared : after.reaped = true → ∃ stream, after.finished stream = false ∧ after.fds stream ∉ fds := by
    intro reaped
    rw [same.reaped] at reaped
    obtain ⟨stream,running,away⟩ := opened.spared reaped
    obtain ⟨other,later⟩ := not_or.mp (fun either => away (List.mem_cons.mpr either))
    refine ⟨stream,?_,by rw [same.fds]; exact later⟩
    rw [same.finished]
    change (w.finished stream || (decide (0 ≤ fd) && decide (w.fds stream = fd))) = false
    rw [running, decide_eq_false other, Bool.and_false, Bool.or_false]
  refine ⟨inv,runningChild inv ?_,spared⟩
  by_contra ended
  obtain ⟨reaped,all⟩ := endedFinished (Bool.not_eq_false _ ▸ ended)
  obtain ⟨stream,running,-⟩ := spared reaped
  rw [all stream] at running
  cases running

theorem closesAll {these rest : List Int} (opened : Open w (these ++ rest)) :
    Lands (these.foldlM closes w) fun after => Open after rest := by
  induction these generalizing w with
  | nil => exact opened
  | cons fd more ih =>
    rw [List.foldlM_cons]
    exact (closesOpen opened).bind fun after opened' => ih opened'

theorem streamOpen {fds : List Int} (opened : Open w fds) (stream : Stream) : Lands (w.stream stream) fun _ => True := by
  obtain ⟨child,is⟩ := opened.child
  rw [World.stream, World.record, is]
  trivial

theorem putInv (inv : Inv w) (stream : Stream) (state : BufferedStreamState) (read : List XdrBytes.Byte) (entries : List Entry) :
    Inv (w.put stream state read entries) := by
  refine ⟨fun other same => ?_,fun none_ => inv.gone (Option.map_eq_none_iff.mp none_),inv.absent,inv.live⟩
  obtain ⟨child,is,rfl⟩ := Option.map_eq_some_iff.mp same
  obtain ⟨alive,rest⟩ := inv.alive child is
  exact ⟨⟨alive.reaped,alive.fd⟩,rest⟩

theorem putOpen {fds : List Int} (opened : Open w fds) (stream : Stream) (state : BufferedStreamState) (read : List XdrBytes.Byte)
    (entries : List Entry) : Open (w.put stream state read entries) fds := by
  obtain ⟨child,is⟩ := opened.child
  have set : (w.put stream state read entries).child =
      some { child with streamState := Function.update child.streamState stream state } := by
    rw [World.put, is]
    rfl
  exact ⟨putInv opened.inv stream state read entries,⟨_,set⟩,opened.spared⟩

theorem drainLands (state : BufferedStreamState) (urgent drainLen : Int) : Lands (state.drain urgent drainLen) fun _ => True := by
  unfold BufferedStreamState.drain
  cases state.buff with
  | none => exact nofun
  | some buff =>
    dsimp only
    split
    · trivial
    split
    · trivial
    split
    · exact nofun
    cases compress drainLen.toNat (state.buffLen - drainLen.toNat) 0 buff with
    | none => exact nofun
    | some moved => trivial

theorem drains (stream : Stream) (urgent : Int) {answers : List CbAnswer} (opened : Open w (answers.flatMap CbAnswer.closes)) :
    Lands (drainBuffer stream urgent answers w) fun result => Open result.2 (result.1.flatMap CbAnswer.closes) := by
  induction answers generalizing w with
  | nil => exact opened
  | cons answer rest ih =>
    unfold drainBuffer
    refine (streamOpen opened stream).bind fun state _ => ?_
    split
    · exact opened
    · rw [List.flatMap_cons] at opened
      refine (closesAll opened).bind fun closed opened' => ?_
      split
      · exact opened'
      refine (streamOpen opened' stream).bind fun state _ => ?_
      refine (drainLands state urgent answer.drainLen).bind fun drained _ => ?_
      dsimp only
      split
      · exact ih (putOpen opened' _ _ _ _)
      · exact putOpen opened' _ _ _ _

theorem growLands (state : BufferedStreamState) (memory : Bool) (garbage : Nat → XdrBytes.Byte) :
    Lands (state.grow memory garbage) fun _ => True := by
  unfold BufferedStreamState.grow
  cases state.buff with
  | none =>
    dsimp only
    split
    · trivial
    · exact nofun
  | some buff =>
    dsimp only
    split
    · split
      · trivial
      · exact nofun
    · trivial

theorem makesRoom (stream : Stream) (memory : Bool) (garbage : Nat → XdrBytes.Byte) {answers : List CbAnswer}
    (opened : Open w (answers.flatMap CbAnswer.closes)) :
    Lands (makeRoom stream memory garbage answers w) fun result => Open result.2 (result.1.flatMap CbAnswer.closes) := by
  unfold makeRoom
  refine (streamOpen opened stream).bind fun state _ => ?_
  split
  · exact opened
  have drained : Lands (drainFull stream state.buffCap answers w) fun result => Open result.2 (result.1.flatMap CbAnswer.closes) := by
    unfold drainFull
    split
    · refine (drains stream _ opened).bind fun result opened' => ?_
      refine (streamOpen opened' stream).bind fun left _ => ?_
      change Open (if _ then _ else _) _
      split
      · exact putOpen opened' _ _ _ _
      · exact opened'
    · exact opened
  refine drained.bind fun result opened' => ?_
  refine (streamOpen opened' stream).bind fun left _ => ?_
  refine (growLands left memory garbage).bind fun grown _ => ?_
  exact putOpen opened' _ _ _ _

theorem closesLast (opened : ∃ fds, Open w fds) (fd : Int) : Lands (closes w fd) Inv := by
  obtain ⟨fds,opened⟩ := opened
  obtain ⟨child,is⟩ := opened.child
  obtain ⟨after,done,inv,-⟩ := closesInv opened.inv is fd
  rw [done]
  exact inv

theorem readIntoLands (state : BufferedStreamState) (bytes : List XdrBytes.Byte) : Lands (state.readInto bytes) fun _ => True := by
  unfold BufferedStreamState.readInto
  cases state.buff with
  | none => exact nofun
  | some buff =>
    dsimp only
    split
    · exact nofun
    · trivial

theorem atEofOpen {fds : List Int} (opened : Open w fds) (stream : Stream) : Open (w.atEof stream) fds :=
  ⟨⟨fun child is => ⟨⟨(opened.inv.alive child is).1.reaped,(opened.inv.alive child is).1.fd⟩,(opened.inv.alive child is).2⟩,
    opened.inv.gone,opened.inv.absent,opened.inv.live⟩,opened.child,opened.spared⟩

theorem readsData (fd : Int) (read : Read) {answers : List CbAnswer} (memory : Bool) (garbage : Nat → XdrBytes.Byte)
    (opened : Open w (answers.flatMap CbAnswer.closes)) :
    Lands (childReadData w fd read answers memory garbage) fun result => Inv result.2 := by
  obtain ⟨child,is⟩ := opened.child
  unfold childReadData World.record
  rw [is]
  dsimp only [bind,Except.bind]
  split
  · exact opened.inv
  refine (makesRoom _ memory garbage opened).bind fun result opened' => ?_
  refine (streamOpen opened' _).bind fun state _ => ?_
  split
  · exact nofun
  cases read with
  | data first more =>
    refine (readIntoLands state _).bind fun filled _ => ?_
    exact (drains _ _ (putOpen opened' _ _ _ _)).bind fun _ drained => drained.inv
  | eof =>
    refine (drains _ _ opened').bind fun left drained => ?_
    refine (streamOpen drained _).bind fun state _ => ?_
    refine (closesLast ⟨left.1.flatMap CbAnswer.closes,atEofOpen (putOpen drained _ _ _ _) _⟩ fd).bind fun after inv => inv
  | error =>
    refine (closesLast ⟨_,opened'⟩ fd).bind fun after inv => ?_
    exact inv
  | again => exact opened'.inv

theorem discards (inv : Inv w) (is : w.child = some child) (fd : Int) {read : Read} (fine : ¬(read = .error ∨ read = .again)) :
    Lands (discardChildData w fd read) fun result => Inv result.2 := by
  cases read with
  | data first more => exact inv
  | eof =>
    obtain ⟨after,done,inv',-⟩ := closesInv inv is fd
    unfold discardChildData
    rw [done]
    exact inv'
  | error => exact absurd (.inl rfl) fine
  | again => exact absurd (.inr rfl) fine

theorem handlersInv (inv : Inv w) (handlers : Int → Option Handler) : Inv { w with handlers := handlers } :=
  ⟨fun child is => ⟨⟨(inv.alive child is).1.reaped,(inv.alive child is).1.fd⟩,(inv.alive child is).2⟩,inv.gone,inv.absent,inv.live⟩

theorem readyInv (inv : Inv w) {fd : Int} {read : Read} {answers : List CbAnswer} {memory : Bool} {garbage : Nat → XdrBytes.Byte}
    (safe : Safe w (.ready fd read answers memory garbage)) : Lands (ready w fd read answers memory garbage) Inv := by
  unfold ready
  cases handled : w.handlers fd with
  | none => exact inv
  | some handler =>
    dsimp only
    split
    · rename_i opened
      obtain ⟨fails,spares⟩ := safe opened
      have found := opened
      rw [World.hasOpen, Option.any_eq_true] at found
      obtain ⟨child,is,-⟩ := found
      have landed : Lands (handle w handler fd read answers memory garbage) fun result => Inv result.2 := by
        cases handler with
        | dump => exact discards inv is fd fun error => (fails error).1 handled
        | echo => exact discards inv is fd fun error => (fails error).2 handled
        | reader => exact readsData fd read memory garbage ⟨inv,⟨child,is⟩,spares handled⟩
      refine landed.bind fun result inv' => ?_
      change Inv (if result.1 = eventRemove then _ else _)
      split
      · exact handlersInv inv' _
      · exact inv'
    · exact inv

theorem reapInv (inv : Inv w) (first : w.reaped = false) : Lands (sigchldHandler { w with reaped := true }) Inv := by
  unfold sigchldHandler
  cases is : w.child with
  | none =>
    have ended := (inv.gone is).2
    rw [World.ended, first, Bool.false_and] at ended
    cases ended
  | some child =>
    obtain ⟨alive,reports,-⟩ := inv.alive child is
    obtain ⟨after,done,inv',-⟩ := @validates
      { w with reaped := true, child := some { child with state := .flushPipes } } { child with state := .flushPipes } rfl
      ⟨iff_of_true rfl rfl,alive.fd⟩ inv.absent reports inv.live
    dsimp only
    rw [done]
    exact inv'

theorem childInv (inv : Inv w) {child' : Child} (is : w.child = some child) (state : child'.state = child.state)
    (fds : child'.fd = child.fd) : Inv { w with child := some child' } := by
  obtain ⟨alive,reports,running⟩ := inv.alive child is
  refine ⟨fun other same => ?_,fun none_ => (by cases none_),inv.absent,inv.live⟩
  cases same
  exact ⟨⟨by rw [state]; exact alive.reaped,by rw [fds]; exact alive.fd⟩,reports,running⟩

theorem handleInv (inv : Inv w) (stream : Stream) (handler : Handler) (cb : Option Nat) (memory : Bool) :
    Inv (chldHandle w stream handler cb memory) := by
  unfold chldHandle
  cases is : w.child with
  | none => exact inv
  | some child =>
    dsimp only
    split
    · exact inv
    have set : Inv (w.put stream { child.streamState stream with cb := cb } [] []) := putInv inv _ _ _ _
    split
    · split
      · exact handlersInv set _
      · exact handlersInv inv _
    · split
      · exact set
      · exact inv

theorem noticeInv (inv : Inv w) (deathCb : Option Nat) : Inv (chldDeathNotice w deathCb) := by
  unfold chldDeathNotice
  cases is : w.child with
  | none =>
    rw [Option.map_none, ← is]
    exact inv
  | some child => exact childInv inv is rfl rfl

theorem actInv (inv : Inv w) {a : Act} (safe : Safe w a) : Lands (act w a) Inv := by
  cases a with
  | handle stream handler cb memory =>
    change Inv (if stream = .stdin then w else _)
    split
    · exact inv
    · exact handleInv inv _ _ _ _
  | deathNotice deathCb => exact noticeInv inv deathCb
  | reap =>
    simp only [act]
    split
    · exact inv
    · exact reapInv inv (Bool.eq_false_iff.mpr (by assumption))
  | ready fd read answers memory garbage => exact readyInv inv safe
  | closeFd fd =>
    simp only [act]
    split
    · rename_i some_
      obtain ⟨child,is⟩ := Option.isSome_iff_exists.mp some_
      obtain ⟨after,done,inv',-⟩ := closesInv inv is fd
      rw [done]
      exact inv'
    · exact inv
  | closeStdin =>
    simp only [act]
    split
    · rename_i some_
      obtain ⟨child,is⟩ := Option.isSome_iff_exists.mp some_
      obtain ⟨after,done,inv',-⟩ := closesInv inv is (child.fd .stdin)
      unfold chldCloseStdin World.record
      rw [is]
      dsimp only [bind,Except.bind]
      rw [done]
      exact inv'
    · exact inv

theorem stepInv (w : World) (a : Act) (inv : Inv w) (safe : Safe w a) : Inv (step w a) := by
  unfold step
  split
  · exact inv
  have landed := actInv inv safe
  cases result : act w a with
  | error stop =>
    rw [result] at landed
    refine ⟨fun child is => ⟨⟨(inv.alive child is).1.reaped,(inv.alive child is).1.fd⟩,(inv.alive child is).2⟩,inv.gone,inv.absent,?_⟩
    exact fun same => landed (Option.some.inj same)
  | ok after =>
    rw [result] at landed
    exact landed

end

theorem forkInv (fds : Stream → Int) : Inv (fork fds) := by
  refine ⟨fun child is => ?_,fun none_ => (by cases none_),fun stream none_ => decide_eq_true none_,nofun⟩
  cases is
  refine ⟨⟨iff_of_false nofun nofun,fun stream => ?_⟩,rfl,rfl⟩
  change fds stream = if decide (fds stream = -1) then -1 else fds stream
  by_cases none_ : fds stream = -1
  · rw [none_, ite_self]
  · rw [decide_eq_false none_, if_neg Bool.false_ne_true]

/- `deathCb` is called for once, at the step that ends the child. -/
theorem deathReported (fds : Stream → Int) (acts : List Act) (safe : Along step Safe (fork fds) acts) :
    Reported (exec step (fork fds) acts) :=
  (safe.invariant stepInv (forkInv fds)).reported

def pipes : Stream → Int
  | .stdin => 4
  | .stdout => 5
  | .stderr => 7

def exits (last : Read) : List Act :=
  [.deathNotice (some 9),.handle .stdout .reader (some 3) true,.handle .stderr .echo none true,
    .ready 5 (.data 65 [66,67]) [⟨[],3⟩] true fun _ => 0,.closeStdin,.reap,.ready 5 .eof [] true fun _ => 0,
    .ready 7 last [] true fun _ => 0]

theorem exitsReported : (exec step (fork pipes) (exits .eof)).reports = [some 9] ∧ Reported (exec step (fork pipes) (exits .eof)) := by
  refine ⟨by decide +kernel,deathReported pipes (exits .eof) ?_⟩
  refine ⟨trivial,trivial,trivial,fun _ => ⟨by simp,nofun⟩,trivial,trivial,fun _ => ⟨by simp,fun _ _ => ⟨.stderr,?_,?_⟩⟩,
    fun _ => ⟨by simp,fun _ _ => ⟨.stderr,?_,?_⟩⟩,trivial⟩
  · decide +kernel
  · decide +kernel
  · decide +kernel
  · decide +kernel

/- The echoed stream fails: it is never closed, and the death never reported. -/
theorem deathUnreported : (exec step (fork pipes) (exits .error)).ended = true ∧ (exec step (fork pipes) (exits .error)).reports = [] ∧
    ¬Reported (exec step (fork pipes) (exits .error)) := by
  have ended : (exec step (fork pipes) (exits .error)).ended = true := by decide +kernel
  have none_ : (exec step (fork pipes) (exits .error)).reports = [] := by decide +kernel
  refine ⟨ended,none_,fun reported => ?_⟩
  have once := reported.once
  rw [ended, none_] at once
  cases once

end LibProc.ChildDeath
