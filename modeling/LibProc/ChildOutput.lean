import LibProc.ChildDeath

/-! The output of a child: every byte that was read into the buffer of a stream has its place, in order. -/
namespace LibProc.ChildOutput
open XdrBytes (Byte splice spliceLength)
open Children
open ChildDeath (pipes)
open FdRegistry (eventKeep eventRemove)
open Runs (exec Along)

/- The results a callback may have, and no call that closes the stream it is for. -/
def Answers (fd : Int) (answers : List CbAnswer) : Prop :=
  ∀ answer ∈ answers, fd ∉ answer.closes ∧ (0 ≤ answer.drainLen ∨ answer.drainLen = childBuffErr ∨ answer.drainLen = childBuffStealBuff)

def Proper : Act → Prop
  | .ready fd _ answers _ _ => Answers fd answers
  | _ => True

structure Fits (state : BufferedStreamState) : Prop where
  used : state.buffLen ≤ state.buffCap
  most : state.buffCap ≤ readBuffMax
  absent : state.buff = none → state.buffCap = 0
  present : ∀ buff, state.buff = some buff → buff.length = state.buffCap ∧ 0 < state.buffCap

def streamState (w : World) (stream : Stream) : BufferedStreamState :=
  (w.child.map fun child => child.streamState stream).getD noStream

/- Only a full buffer of the largest size is dropped, the end of the stream leaves bytes over, and a stream that did not
come to its end leaves them to be freed with the record. -/
def Fate (w : World) (stream : Stream) : Entry → Prop
  | .consumed _ _ => True
  | .stolen _ _ => True
  | .dropped bytes => bytes.length = readBuffMax
  | .leftover _ => w.eof stream = true
  | .freed _ => w.child = none ∧ w.eof stream = false

/- All bytes that were read, in order: what has become of them, and the bytes in the buffer. -/
structure Kept (w : World) (stream : Stream) : Prop where
  fits : Fits (streamState w stream)
  account : (w.ledger stream).flatMap Entry.bytes ++ (streamState w stream).buffered = w.received stream
  fates : ∀ entry ∈ w.ledger stream, Fate w stream entry
  ended : w.eof stream = true → (streamState w stream).buffLen = 0

def Closed (w : World) : Prop := ∀ stream, w.eof stream = true → ∀ child, w.child = some child → child.fd stream = -1

/- Between two steps; exit is the end of the program. -/
structure Sound (w : World) : Prop where
  kept : ∀ stream, Kept w stream
  closed : Closed w
  still : w.stop = none ∨ w.stop = some .exited

structure Reading (w : World) (stream : Stream) (fd : Int) : Prop where
  kept : ∀ stream, Kept w stream
  closed : Closed w
  child : ∃ child, w.child = some child ∧ child.fd stream = fd
  opened : 0 ≤ fd

section
variable {w w' : World} {child : Child} {stream : Stream} {fd : Int} {state : BufferedStreamState} {urgent drainLen : Int}
  {answers : List CbAnswer}

theorem compressMoves (drainLen places i : Nat) (buff : List Byte) (inside : i + drainLen + places ≤ buff.length) :
    ∃ moved, compress drainLen places i buff = some moved ∧ moved.length = buff.length ∧
      moved.take (i + places) = buff.take i ++ (buff.drop (i + drainLen)).take places := by
  induction places generalizing i buff with
  | zero => exact ⟨buff,rfl,rfl,by simp⟩
  | succ places ih =>
    have here : i + drainLen < buff.length := by omega
    obtain ⟨moved,moves,size,is⟩ := ih (i + 1) (buff.set i buff[i + drainLen])
      (by rw [List.length_set]; omega)
    refine ⟨moved,?_,size.trans List.length_set,?_⟩
    · rw [compress, List.getElem?_eq_getElem here]
      exact moves
    · have first : (buff.set i buff[i + drainLen]).take (i + 1) = buff.take i ++ [buff[i + drainLen]] := by
        rw [List.take_add_one, List.take_set_of_le (le_refl i), List.getElem?_set_self (by omega)]
        rfl
      have later : (buff.set i buff[i + drainLen]).drop (i + 1 + drainLen) = buff.drop (i + 1 + drainLen) := by
        rw [List.drop_set_of_lt (by omega)]
      rw [first, later] at is
      rw [show i + (places + 1) = i + 1 + places by omega, is, List.append_assoc]
      congr 1
      rw [List.drop_eq_getElem_cons here, List.take_succ_cons, show i + 1 + drainLen = i + drainLen + 1 by omega]
      rfl

theorem Fits.shrink (fits : Fits state) {len : Nat} (less : len ≤ state.buffLen) : Fits { state with buffLen := len } :=
  ⟨le_trans less fits.used,fits.most,fits.absent,fits.present⟩

theorem fitsSome {buff : List Byte} {len cap : Nat} (cb : Option Nat) (size : buff.length = cap) (used : len ≤ cap) (some_ : 0 < cap)
    (most : cap ≤ readBuffMax) : Fits ⟨cb,some buff,len,cap⟩ := by
  refine ⟨used,most,nofun,fun other there => ?_⟩
  cases there
  exact ⟨size,some_⟩

theorem fitsNone (cb : Option Nat) : Fits ⟨cb,none,0,0⟩ := ⟨le_refl 0,Nat.zero_le _,fun _ => rfl,nofun⟩

theorem bufferedEmpty (empty : state.buffLen = 0) : state.buffered = [] := by
  rw [BufferedStreamState.buffered, empty]
  exact List.take_zero

theorem bufferedNone (none_ : state.buff = none) : state.buffered = [] := by
  rw [BufferedStreamState.buffered, none_]
  exact List.take_nil

@[simp] theorem lostBytes {entry : List Byte → Entry} (is : ∀ bytes, (entry bytes).bytes = bytes) (bytes : List Byte) :
    (lost entry bytes).flatMap Entry.bytes = bytes := by
  unfold lost
  split
  · rename_i none_
    rw [none_]
    rfl
  · rw [List.flatMap_singleton, is]

theorem lostEntry {entry : List Byte → Entry} {bytes : List Byte} {e : Entry} (member : e ∈ lost entry bytes) :
    e = entry bytes ∧ bytes ≠ [] := by
  unfold lost at member
  split at member
  · cases member
  · exact ⟨List.mem_singleton.mp member,by assumption⟩

structure Taken (state after : BufferedStreamState) (entry : Entry) : Prop where
  fits : Fits after
  split : entry.bytes ++ after.buffered = state.buffered
  given : (∃ urgent bytes, entry = .consumed urgent bytes) ∨ ∃ urgent bytes, entry = .stolen urgent bytes
  size : after.buffCap = state.buffCap ∨ after.buff = none

theorem drainTakes (fits : Fits state) (some_ : state.buffLen ≠ 0) (urgent : Int) (proper : 0 ≤ drainLen ∨ drainLen = childBuffStealBuff) :
    ∃ after entry again, state.drain urgent drainLen = .ok (after,entry,again) ∧ Taken state after entry := by
  unfold BufferedStreamState.drain
  have used := fits.used
  cases is : state.buff with
  | none =>
    have empty := fits.absent is
    omega
  | some buff =>
    have size := (fits.present buff is).1
    have buffered : state.buffered = buff.take state.buffLen := by rw [BufferedStreamState.buffered, is, Option.getD_some]
    dsimp only
    by_cases steals : drainLen = childBuffStealBuff
    · rw [if_pos steals]
      exact ⟨_,_,_,rfl,fitsNone _,List.append_nil _,.inr ⟨_,_,rfl⟩,.inr rfl⟩
    rw [if_neg steals]
    have natural := proper.resolve_right steals
    by_cases whole : (state.buffLen : Int) ≤ drainLen
    · rw [if_pos whole]
      refine ⟨_,_,_,rfl,is ▸ fits.shrink (Nat.zero_le _),?_,.inl ⟨_,_,rfl⟩,.inl rfl⟩
      have none_ : BufferedStreamState.buffered ⟨state.cb,some buff,0,state.buffCap⟩ = [] := bufferedEmpty rfl
      rw [none_, List.append_nil]
      rfl
    rw [if_neg whole, if_neg (Int.not_lt.mpr natural)]
    obtain ⟨moved,moves,same,front⟩ := compressMoves drainLen.toNat (state.buffLen - drainLen.toNat) 0 buff (by omega)
    rw [moves]
    refine ⟨_,_,_,rfl,fitsSome _ (same.trans size) (le_trans (Nat.sub_le _ _) used) (fits.present buff is).2 fits.most,?_,
      .inl ⟨_,_,rfl⟩,.inl rfl⟩
    have fewer : drainLen.toNat ≤ state.buffLen := by omega
    have parts : buff.take state.buffLen = buff.take drainLen.toNat ++ (buff.drop drainLen.toNat).take (state.buffLen - drainLen.toNat) := by
      rw [← List.take_add, Nat.add_sub_cancel' fewer]
    rw [Nat.zero_add, Nat.zero_add, List.take_zero, List.nil_append] at front
    change state.buffered.take drainLen.toNat ++ moved.take (state.buffLen - drainLen.toNat) = state.buffered
    rw [front, buffered, List.take_take, Nat.min_eq_left fewer, ← parts]

@[simp] theorem freshLength (garbage : Nat → Byte) (size : Nat) : (fresh garbage size).length = size := by simp [fresh]

theorem growFits (fits : Fits state) (memory : Bool) (garbage : Nat → Byte)
    (can : state.buff = none ∨ state.buffLen < state.buffCap ∨ state.buffCap < readBuffMax) :
    state.grow memory garbage = .error .exited ∨
      ∃ after, state.grow memory garbage = .ok after ∧ Fits after ∧ after.buffered = state.buffered ∧ after.buffLen < after.buffCap := by
  unfold BufferedStreamState.grow
  have used := fits.used
  have most := fits.most
  cases is : state.buff with
  | none =>
    dsimp only
    split
    · have least : 0 < readBuffMin := by decide
      refine .inr ⟨_,rfl,fitsSome _ (freshLength garbage _) (Nat.zero_le _) least (by decide),?_,least⟩
      rw [bufferedNone is]
      exact List.take_zero
    · exact .inl rfl
  | some buff =>
    obtain ⟨size,some_⟩ := fits.present buff is
    dsimp only
    split
    · rename_i full
      split
      · have more : state.buffCap < min (state.buffCap * 2) readBuffMax := by omega
        refine .inr ⟨_,rfl,fitsSome _ ?_ (le_trans used (le_of_lt more)) (lt_trans some_ more) (Nat.min_le_right _ _),?_,
          lt_of_le_of_lt used more⟩
        · rw [List.length_append, freshLength]
          omega
        · have inside : state.buffLen ≤ buff.length := by omega
          rw [BufferedStreamState.buffered, BufferedStreamState.buffered, is]
          exact List.take_append_of_le_length inside
      · exact .inl rfl
    · rename_i roomy
      refine .inr ⟨state,rfl,fits,rfl,?_⟩
      rw [is] at can
      have room := can.resolve_left nofun
      omega

theorem readIntoFits (fits : Fits state) (bytes : List Byte) (room : state.buffLen + bytes.length ≤ state.buffCap)
    (some_ : state.buffCap ≠ 0) :
    ∃ after, state.readInto bytes = .ok after ∧ Fits after ∧ after.buffered = state.buffered ++ bytes := by
  unfold BufferedStreamState.readInto
  cases is : state.buff with
  | none => exact absurd (fits.absent is) some_
  | some buff =>
    obtain ⟨size,positive⟩ := fits.present buff is
    dsimp only
    rw [if_neg (by omega)]
    refine ⟨_,rfl,fitsSome _ ((spliceLength (by omega)).trans size) room positive fits.most,?_⟩
    have front : (splice buff state.buffLen bytes).take (state.buffLen + bytes.length) = buff.take state.buffLen ++ bytes := by
      rw [splice]
      exact List.take_left' (by rw [List.length_append, List.length_take]; omega)
    rw [BufferedStreamState.buffered, BufferedStreamState.buffered, is, Option.getD_some, Option.getD_some, front]

theorem freeFits (fits : Fits state) : Fits state.free ∧ state.free.buffLen = 0 := by
  unfold BufferedStreamState.free
  cases is : state.buff with
  | none =>
    have empty := fits.absent is
    have used := fits.used
    exact ⟨fits,by simp only [Option.isSome_none,Bool.false_eq_true,if_false]; omega⟩
  | some buff => exact ⟨fitsNone _,rfl⟩

theorem alive (is : w.child = some child) (stream : Stream) : streamState w stream = child.streamState stream := by
  rw [streamState, is]
  rfl

theorem gone (none_ : w.child = none) (stream : Stream) : streamState w stream = noStream := by
  rw [streamState, none_]
  rfl

theorem Kept.same (kept : Kept w stream) (state : streamState w' stream = streamState w stream) (ledger : w'.ledger stream = w.ledger stream)
    (received : w'.received stream = w.received stream) (eof : w'.eof stream = w.eof stream) (after : w.child = none → w'.child = none) :
    Kept w' stream := by
  refine ⟨state ▸ kept.fits,by rw [ledger, state, received]; exact kept.account,fun entry member => ?_,fun end_ => ?_⟩
  · have fate := kept.fates entry (ledger ▸ member)
    cases entry with
    | consumed urgent bytes => trivial
    | stolen urgent bytes => trivial
    | dropped bytes => exact fate
    | leftover bytes => exact eof.trans fate
    | freed bytes => exact ⟨after fate.1,eof.trans fate.2⟩
  · rw [state]
    exact kept.ended (eof.symm.trans end_)

theorem childKept (kept : Kept w stream) (is : w.child = some child) {child' : Child} (is' : w'.child = some child')
    (states : child'.streamState = child.streamState) (ledger : w'.ledger = w.ledger) (received : w'.received = w.received)
    (eof : w'.eof = w.eof) : Kept w' stream := by
  refine kept.same ?_ (congrFun ledger _) (congrFun received _) (congrFun eof _) (fun none_ => (by cases is.symm.trans none_))
  rw [alive is, alive is', states]

theorem validateKeeps (kept : ∀ stream, Kept w stream) (closed : Closed w) (is : w.child = some child) :
    ∃ after, validatePipeFlush w = .ok after ∧ (∀ stream, Kept after stream) ∧ Closed after ∧ after.stop = w.stop ∧
      ((∃ stream, child.fd stream ≠ -1) → after = w) := by
  unfold validatePipeFlush World.record
  rw [is]
  dsimp only [bind,Except.bind]
  split
  · exact ⟨w,rfl,kept,closed,rfl,fun _ => rfl⟩
  split
  · exact ⟨w,rfl,kept,closed,rfl,fun _ => rfl⟩
  rename_i none_
  refine ⟨_,rfl,fun stream => ⟨fitsNone _,?_,fun entry member => ?_,fun _ => rfl⟩,fun stream _ other same => (by cases same),rfl,?_⟩
  · change (w.ledger stream ++ lost .freed (child.streamState stream).buffered).flatMap Entry.bytes ++ [] = w.received stream
    rw [List.flatMap_append, lostBytes (fun _ => rfl), List.append_nil, ← alive is]
    exact (kept stream).account
  · rcases List.mem_append.mp member with old | new
    · have fate := (kept stream).fates entry old
      cases entry with
      | consumed urgent bytes => trivial
      | stolen urgent bytes => trivial
      | dropped bytes => exact fate
      | leftover bytes => exact fate
      | freed bytes => exact ⟨rfl,fate.2⟩
    · obtain ⟨rfl,some_⟩ := lostEntry new
      refine ⟨rfl,Bool.eq_false_iff.mpr fun end_ => some_ ?_⟩
      rw [← alive is]
      exact bufferedEmpty ((kept stream).ended end_)
  · rintro ⟨stream,open_⟩
    simp only [not_or,not_not] at none_
    cases stream with
    | stdin => exact absurd none_.1 open_
    | stdout => exact absurd none_.2.1 open_
    | stderr => exact absurd none_.2.2 open_

theorem closesKeeps (kept : ∀ stream, Kept w stream) (is : w.child = some child) (fd : Int)
    (closed : ∀ stream, w.eof stream = true → child.fd stream = -1 ∨ child.fd stream = fd ∧ 0 ≤ fd) :
    ∃ after, closes w fd = .ok after ∧ (∀ stream, Kept after stream) ∧ Closed after ∧ after.stop = w.stop ∧
      ∀ stream, child.fd stream ≠ -1 → child.fd stream ≠ fd →
        ∃ child', after.child = some child' ∧ child'.fd stream = child.fd stream ∧ child'.streamState = child.streamState := by
  have kept' : ∀ stream, Kept (w.finish fd) stream := fun stream => childKept (kept stream) is is rfl rfl rfl rfl
  have settled : (fd < 0 ∨ fd ≠ child.fd .stdin ∧ fd ≠ child.fd .stdout ∧ fd ≠ child.fd .stderr) → Closed (w.finish fd) := by
    intro away stream end_ other same
    cases is.symm.trans same
    refine (closed stream end_).resolve_right fun here => ?_
    rcases away with negative | away
    · exact absurd here.2 (Int.not_le.mpr negative)
    · cases stream with
      | stdin => exact away.1 here.1.symm
      | stdout => exact away.2.1 here.1.symm
      | stderr => exact away.2.2 here.1.symm
  have is' : (w.finish fd).child = some child := is
  unfold closes chldCloseFd World.record
  rw [is']
  dsimp only [bind,Except.bind]
  split
  · rename_i negative
    exact ⟨_,rfl,kept',settled (.inl negative),rfl,fun stream _ _ => ⟨child,is,rfl,rfl⟩⟩
  split
  · rename_i foreign
    exact ⟨_,rfl,kept',settled (.inr foreign),rfl,fun stream _ _ => ⟨child,is,rfl,rfl⟩⟩
  have closed' : Closed { w.finish fd with child := some (child.without fd) } := by
    intro stream end_ other same
    cases same
    change (if fd = child.fd stream then -1 else child.fd stream) = -1
    rcases closed stream end_ with before | now
    · rw [before, ite_self]
    · rw [if_pos now.1.symm]
  have kept'' : ∀ stream, Kept { w.finish fd with child := some (child.without fd) } stream := fun stream =>
    childKept (kept stream) is rfl rfl rfl rfl rfl
  obtain ⟨after,done,keeps,closes_,stop,stays⟩ := validateKeeps kept'' closed' rfl
  refine ⟨after,done,keeps,closes_,stop,fun stream open_ other => ?_⟩
  have still : (child.without fd).fd stream = child.fd stream := if_neg (Ne.symm other)
  rw [stays ⟨stream,still ▸ open_⟩]
  exact ⟨_,rfl,still,rfl⟩

theorem Reading.stays (reading : Reading w stream fd) : w.eof stream = false := by
  obtain ⟨child,is,here⟩ := reading.child
  refine Bool.eq_false_iff.mpr fun end_ => ?_
  have closed := reading.closed stream end_ child is
  have opened := reading.opened
  omega

theorem closesOther (reading : Reading w stream fd) {other : Int} (away : fd ≠ other) :
    ∃ after, closes w other = .ok after ∧ Reading after stream fd ∧ streamState after stream = streamState w stream ∧
      after.stop = w.stop := by
  obtain ⟨child,is,here⟩ := reading.child
  have opened := reading.opened
  obtain ⟨after,done,kept,closed,stop,stays⟩ :=
    closesKeeps reading.kept is other fun stream end_ => .inl (reading.closed stream end_ child is)
  obtain ⟨child',is',fd',same⟩ := stays stream (by omega) (by omega)
  refine ⟨after,done,⟨kept,closed,⟨child',is',fd'.trans here⟩,opened⟩,?_,stop⟩
  rw [alive is, alive is', same]

theorem closesOthers (reading : Reading w stream fd) {fds : List Int} (away : fd ∉ fds) :
    ∃ after, fds.foldlM closes w = .ok after ∧ Reading after stream fd ∧ streamState after stream = streamState w stream ∧
      after.stop = w.stop := by
  induction fds generalizing w with
  | nil => exact ⟨w,rfl,reading,rfl,rfl⟩
  | cons other rest ih =>
    obtain ⟨first,later⟩ := not_or.mp fun either => away (List.mem_cons.mpr either)
    obtain ⟨next,done,reading',state,stop⟩ := closesOther reading first
    obtain ⟨after,done',reading'',state',stop'⟩ := ih reading' later
    refine ⟨after,?_,reading'',state'.trans state,stop'.trans stop⟩
    rw [List.foldlM_cons, done]
    exact done'

def Fair : Entry → Prop
  | .consumed _ _ => True
  | .stolen _ _ => True
  | .dropped bytes => bytes.length = readBuffMax
  | .leftover _ => False
  | .freed _ => False

theorem putState (is : w.child = some child) (stream : Stream) (state : BufferedStreamState) (read : List Byte) (entries : List Entry) :
    streamState (w.put stream state read entries) stream = state := by
  rw [streamState, World.put, is]
  exact Function.update_self stream state child.streamState

theorem putAccount (kept : Kept w stream) {read : List Byte} {entries : List Entry}
    (account : entries.flatMap Entry.bytes ++ state.buffered = (streamState w stream).buffered ++ read) :
    ((w.put stream state read entries).ledger stream).flatMap Entry.bytes ++ state.buffered =
      (w.put stream state read entries).received stream := by
  change (Function.update w.ledger stream (w.ledger stream ++ entries) stream).flatMap Entry.bytes ++ state.buffered =
    Function.update w.received stream (w.received stream ++ read) stream
  rw [Function.update_self, Function.update_self, List.flatMap_append, List.append_assoc, account, ← List.append_assoc, kept.account]

theorem putOther (kept : Kept w stream) {other : Stream} (away : stream ≠ other) (read : List Byte) (entries : List Entry) :
    Kept (w.put other state read entries) stream := by
  refine kept.same ?_ (Function.update_of_ne away _ _) (Function.update_of_ne away _ _) rfl fun none_ => ?_
  · rw [streamState, streamState, World.put]
    cases w.child with
    | none => rfl
    | some child => exact Function.update_of_ne away state child.streamState
  · rw [World.put, none_]
    rfl

theorem Reading.put (reading : Reading w stream fd) {read : List Byte} {entries : List Entry} (fits : Fits state)
    (account : entries.flatMap Entry.bytes ++ state.buffered = (streamState w stream).buffered ++ read)
    (fair : ∀ entry ∈ entries, Fair entry) : Reading (w.put stream state read entries) stream fd := by
  obtain ⟨child,is,here⟩ := reading.child
  have set : (w.put stream state read entries).child =
      some { child with streamState := Function.update child.streamState stream state } := by
    rw [World.put, is]
    rfl
  have stays := reading.stays
  refine ⟨fun other => ?_,fun other end_ after same => ?_,⟨_,set,here⟩,reading.opened⟩
  · by_cases away : other = stream
    · subst away
      refine ⟨(putState is other state read entries).symm ▸ fits,?_,fun entry member => ?_,fun end_ => ?_⟩
      · rw [putState is]
        exact putAccount (reading.kept other) account
      · change entry ∈ Function.update w.ledger other (w.ledger other ++ entries) other at member
        rw [Function.update_self] at member
        rcases List.mem_append.mp member with old | new
        · have fate := (reading.kept other).fates entry old
          cases entry with
          | consumed urgent bytes => trivial
          | stolen urgent bytes => trivial
          | dropped bytes => exact fate
          | leftover bytes => exact fate
          | freed bytes => cases is.symm.trans fate.1
        · have fate := fair entry new
          cases entry with
          | consumed urgent bytes => trivial
          | stolen urgent bytes => trivial
          | dropped bytes => exact fate
          | leftover bytes => exact fate.elim
          | freed bytes => exact fate.elim
      · exact absurd (stays.symm.trans end_) Bool.false_ne_true
    · exact putOther (reading.kept other) away read entries
  · cases set.symm.trans same
    exact reading.closed other end_ child is

theorem takenFair {after : BufferedStreamState} {entry : Entry} (taken : Taken state after entry) : ∀ e ∈ [entry], Fair e := by
  intro e member
  rw [List.mem_singleton.mp member]
  rcases taken.given with ⟨urgent,bytes,rfl⟩ | ⟨urgent,bytes,rfl⟩ <;> trivial

theorem streamIs (reading : Reading w stream fd) : w.stream stream = .ok (streamState w stream) := by
  obtain ⟨child,is,-⟩ := reading.child
  rw [alive is, World.stream, World.record, is]
  rfl

structure Drained (w w' : World) (stream : Stream) (fd : Int) : Prop where
  reading : Reading w' stream fd
  stop : w'.stop = w.stop
  size : (streamState w' stream).buffCap = (streamState w stream).buffCap ∨ (streamState w' stream).buff = none

theorem drains (reading : Reading w stream fd) (urgent : Int) (proper : Answers fd answers) :
    ∃ answers' w', drainBuffer stream urgent answers w = .ok (answers',w') ∧ Answers fd answers' ∧ Drained w w' stream fd := by
  induction answers generalizing w with
  | nil => exact ⟨[],w,rfl,proper,reading,rfl,.inl rfl⟩
  | cons answer rest ih =>
    have rest_ : Answers fd rest := fun other member => proper other (List.mem_cons_of_mem answer member)
    obtain ⟨away,result⟩ := proper answer List.mem_cons_self
    unfold drainBuffer
    rw [streamIs reading]
    dsimp only [bind,Except.bind]
    by_cases idle : (streamState w stream).cb = none ∨ (streamState w stream).buffLen = 0
    · rw [if_pos idle]
      exact ⟨_,w,rfl,proper,reading,rfl,.inl rfl⟩
    rw [if_neg idle]
    obtain ⟨next,done,reading',same,stop⟩ := closesOthers reading away
    rw [done]
    dsimp only
    by_cases fails : answer.drainLen = childBuffErr
    · rw [if_pos fails]
      exact ⟨rest,next,rfl,rest_,reading',stop,.inl (by rw [same])⟩
    rw [if_neg fails, streamIs reading', same]
    obtain ⟨after,entry,again,takes,taken⟩ := drainTakes (same ▸ (reading'.kept stream).fits) (not_or.mp idle).2 urgent
      (result.imp_right fun either => either.resolve_left fails)
    dsimp only
    rw [takes]
    dsimp only
    have account : [entry].flatMap Entry.bytes ++ after.buffered = (streamState next stream).buffered ++ [] := by
      rw [List.flatMap_singleton, List.append_nil, same]
      exact taken.split
    have put := reading'.put taken.fits account (takenFair taken)
    obtain ⟨child,is,-⟩ := reading'.child
    have set := putState is stream after [] [entry]
    split
    · obtain ⟨answers',w',drains,proper',more⟩ := ih put rest_
      refine ⟨answers',w',drains,proper',more.reading,more.stop.trans stop,?_⟩
      rcases more.size with size | stolen
      · rcases taken.size with size' | stolen
        · refine .inl ?_
          rw [size, set]
          exact size'
        · refine .inr ?_
          have fits := (more.reading.kept stream).fits
          have zero : (streamState w' stream).buffCap = 0 := by
            rw [size, set]
            exact taken.fits.absent stolen
          cases is : (streamState w' stream).buff with
          | none => rfl
          | some buff =>
            have positive := (fits.present buff is).2
            omega
      · exact .inr stolen
    · refine ⟨rest,_,rfl,rest_,put,stop,?_⟩
      rw [set]
      exact taken.size

theorem drainsFull (reading : Reading w stream fd) (proper : Answers fd answers) :
    ∃ answers' w', drainFull stream (streamState w stream).buffCap answers w = .ok (answers',w') ∧ Answers fd answers' ∧
      Reading w' stream fd ∧ w'.stop = w.stop ∧ ((streamState w' stream).buff = none ∨
        (streamState w' stream).buffLen < (streamState w' stream).buffCap ∨ (streamState w' stream).buffCap < readBuffMax) := by
  unfold drainFull
  split
  · rename_i large
    obtain ⟨answers',w',drains,proper',more⟩ := drains reading childBuffNoroom proper
    rw [drains]
    dsimp only [bind,Except.bind]
    rw [streamIs more.reading]
    refine ⟨answers',_,rfl,proper',?_⟩
    split
    · rename_i full
      have fits := (more.reading.kept stream).fits
      have fair : ∀ entry ∈ lost .dropped (streamState w' stream).buffered, Fair entry := by
        intro entry member
        obtain ⟨rfl,some_⟩ := lostEntry member
        change (streamState w' stream).buffered.length = readBuffMax
        cases is : (streamState w' stream).buff with
        | none => exact absurd (bufferedNone is) some_
        | some buff =>
          have size := (fits.present buff is).1
          have most := fits.most
          have same : (streamState w' stream).buffCap = (streamState w stream).buffCap := more.size.resolve_right (by rw [is]; exact nofun)
          rw [BufferedStreamState.buffered, is, Option.getD_some, List.length_take]
          omega
      have account : (lost .dropped (streamState w' stream).buffered).flatMap Entry.bytes ++
          BufferedStreamState.buffered { streamState w' stream with buffLen := 0 } = (streamState w' stream).buffered ++ [] := by
        have none_ : BufferedStreamState.buffered { streamState w' stream with buffLen := 0 } = [] := bufferedEmpty rfl
        rw [lostBytes (fun _ => rfl), none_]
      have put := more.reading.put (fits.shrink (Nat.zero_le _)) account fair
      obtain ⟨child,is,-⟩ := more.reading.child
      refine ⟨put,more.stop,?_⟩
      rw [putState is]
      rcases more.size with same | stolen
      · have least : 0 < readBuffMax := by decide
        exact .inr (.inl (by change 0 < (streamState w' stream).buffCap; omega))
      · exact .inl stolen
    · rename_i room
      exact ⟨more.reading,more.stop,.inr (.inl (not_le.mp room))⟩
  · rename_i small
    exact ⟨answers,w,rfl,proper,reading,rfl,.inr (.inr (not_le.mp small))⟩

theorem makesRoom (reading : Reading w stream fd) (memory : Bool) (garbage : Nat → Byte) (proper : Answers fd answers) :
    makeRoom stream memory garbage answers w = .error .exited ∨
      ∃ answers' w', makeRoom stream memory garbage answers w = .ok (answers',w') ∧ Answers fd answers' ∧ Reading w' stream fd ∧
        w'.stop = w.stop ∧ (streamState w' stream).buffLen < (streamState w' stream).buffCap := by
  unfold makeRoom
  rw [streamIs reading]
  dsimp only [bind,Except.bind]
  split
  · rename_i room
    exact .inr ⟨answers,w,rfl,proper,reading,rfl,room⟩
  obtain ⟨answers',w',drains,proper',reading',stop,can⟩ := drainsFull reading proper
  rw [drains]
  dsimp only
  rw [streamIs reading']
  dsimp only
  rcases growFits (reading'.kept stream).fits memory garbage can with exits | ⟨after,grows,fits,same,room⟩
  · rw [exits]
    exact .inl rfl
  · rw [grows]
    obtain ⟨child,is,-⟩ := reading'.child
    have account : ([] : List Entry).flatMap Entry.bytes ++ after.buffered = (streamState w' stream).buffered ++ [] := by
      rw [same, List.append_nil]
      rfl
    have put := reading'.put fits account nofun
    refine .inr ⟨answers',_,rfl,proper',put,stop,?_⟩
    rw [putState is]
    exact room

theorem endsKept (reading : Reading w stream fd) :
    (∀ other, Kept ((w.put stream (streamState w stream).free [] (lost .leftover (streamState w stream).buffered)).atEof stream) other) ∧
      ∀ other, ((w.put stream (streamState w stream).free [] (lost .leftover (streamState w stream).buffered)).atEof stream).eof other = true →
        other = stream ∨ w.eof other = true := by
  obtain ⟨child,is,here⟩ := reading.child
  obtain ⟨fits,empty⟩ := freeFits (reading.kept stream).fits
  have set := putState is stream (streamState w stream).free [] (lost .leftover (streamState w stream).buffered)
  constructor
  · intro other
    by_cases away : other = stream
    · subst away
      refine ⟨set.symm ▸ fits,?_,fun entry member => ?_,fun _ => ?_⟩
      · have account : (lost .leftover (streamState w other).buffered).flatMap Entry.bytes ++ (streamState w other).free.buffered =
            (streamState w other).buffered ++ [] := by
          rw [lostBytes (fun _ => rfl), bufferedEmpty empty]
        have kept := putAccount (reading.kept other) account
        rw [← set] at kept
        exact kept
      · change entry ∈ Function.update w.ledger other _ other at member
        rw [Function.update_self] at member
        rcases List.mem_append.mp member with old | new
        · have fate := (reading.kept other).fates entry old
          cases entry with
          | consumed urgent bytes => trivial
          | stolen urgent bytes => trivial
          | dropped bytes => exact fate
          | leftover bytes => exact Function.update_self other true w.eof
          | freed bytes => cases is.symm.trans fate.1
        · obtain ⟨rfl,-⟩ := lostEntry new
          exact Function.update_self other true w.eof
      · have same := congrArg BufferedStreamState.buffLen set
        exact same.trans empty
    · have eof : Function.update w.eof stream true other = w.eof other := Function.update_of_ne away true w.eof
      exact (putOther (reading.kept other) away [] _).same rfl rfl rfl eof fun none_ => none_
  · intro other end_
    by_cases away : other = stream
    · exact .inl away
    · refine .inr ?_
      have eof : Function.update w.eof stream true other = w.eof other := Function.update_of_ne away true w.eof
      exact eof.symm.trans end_

structure Steady (w w' : World) : Prop where
  kept : ∀ stream, Kept w' stream
  closed : Closed w'
  stop : w'.stop = w.stop

theorem closesSteady (kept : ∀ stream, Kept w stream) (closed : Closed w) (is : w.child = some child) (fd : Int) :
    ∃ after, closes w fd = .ok after ∧ Steady w after := by
  obtain ⟨after,done,kept',closed',stop,-⟩ := closesKeeps kept is fd fun stream end_ => .inl (closed stream end_ child is)
  exact ⟨after,done,kept',closed',stop⟩

theorem childReadsData (kept : ∀ stream, Kept w stream) (closed : Closed w) (is : w.child = some child) (opened : 0 ≤ fd) (read : Read)
    (proper : Answers fd answers) (memory : Bool) (garbage : Nat → Byte) :
    childReadData w fd read answers memory garbage = .error .exited ∨
      ∃ keep after, childReadData w fd read answers memory garbage = .ok (keep,after) ∧ Steady w after := by
  unfold childReadData World.record
  rw [is]
  dsimp only [bind,Except.bind]
  split
  · exact .inr ⟨_,w,rfl,kept,closed,rfl⟩
  rename_i streams
  have reading : Reading w (if fd = child.fd .stdout then .stdout else .stderr) fd := by
    refine ⟨kept,closed,⟨child,is,?_⟩,opened⟩
    split
    · exact Eq.symm (by assumption)
    · exact (not_not.mp ((not_and.mp streams) (by assumption))).symm
  generalize (if fd = child.fd .stdout then Stream.stdout else .stderr) = stream at reading ⊢
  rcases makesRoom reading memory garbage proper with exits | ⟨answers',w',makes,proper',reading',stop,room⟩
  · rw [exits]
    exact .inl rfl
  right
  rw [makes]
  dsimp only
  rw [streamIs reading']
  dsimp only
  rw [if_neg (not_le.mpr room)]
  obtain ⟨child',is',here'⟩ := reading'.child
  cases read with
  | data first more =>
    dsimp only
    generalize reads : (first :: more).take ((streamState w' stream).buffCap - (streamState w' stream).buffLen) = bytes
    have size : (streamState w' stream).buffLen + bytes.length ≤ (streamState w' stream).buffCap := by
      rw [← reads, List.length_take]
      omega
    obtain ⟨filled,fills,fits,buffered⟩ := readIntoFits (reading'.kept stream).fits bytes size (by omega)
    rw [fills]
    have account : ([] : List Entry).flatMap Entry.bytes ++ filled.buffered = (streamState w' stream).buffered ++ bytes := buffered
    obtain ⟨rest,last,drains,-,done⟩ := drains (reading'.put fits account nofun) childBuffNorm proper'
    dsimp only
    rw [drains]
    exact ⟨eventKeep,last,rfl,done.reading.kept,done.reading.closed,done.stop.trans stop⟩
  | eof =>
    obtain ⟨rest,last,drains,-,done⟩ := drains reading' childBuffClosing proper'
    dsimp only
    rw [drains]
    dsimp only
    rw [streamIs done.reading]
    obtain ⟨child'',is'',here''⟩ := done.reading.child
    obtain ⟨kept',ends⟩ := endsKept done.reading
    have set : ((last.put stream (streamState last stream).free []
        (lost .leftover (streamState last stream).buffered)).atEof stream).child =
        some { child'' with streamState := Function.update child''.streamState stream (streamState last stream).free } := by
      change (last.child.map _) = _
      rw [is'']
      rfl
    obtain ⟨after,closes_,kept'',closed',stop',-⟩ := closesKeeps kept' set fd fun other end_ => by
      rcases ends other end_ with rfl | before
      · exact .inr ⟨here'',opened⟩
      · exact .inl (done.reading.closed other before child'' is'')
    dsimp only
    rw [closes_]
    exact ⟨eventRemove,after,rfl,kept'',closed',stop'.trans (done.stop.trans stop)⟩
  | error =>
    obtain ⟨after,done,kept',closed',stop'⟩ := closesSteady reading'.kept reading'.closed is' fd
    dsimp only
    rw [done]
    exact ⟨eventRemove,after,rfl,kept',closed',stop'.trans stop⟩
  | again => exact ⟨eventKeep,w',rfl,reading'.kept,reading'.closed,stop⟩

theorem finishSteady (kept : ∀ stream, Kept w stream) (closed : Closed w) (is : w.child = some child) (fd : Int) : Steady w (w.finish fd) :=
  ⟨fun stream => childKept (kept stream) is is rfl rfl rfl rfl,closed,rfl⟩

theorem discardsData (kept : ∀ stream, Kept w stream) (closed : Closed w) (is : w.child = some child) (fd : Int) (read : Read) :
    ∃ keep after, discardChildData w fd read = .ok (keep,after) ∧ Steady w after := by
  cases read with
  | data first more => exact ⟨_,w,rfl,kept,closed,rfl⟩
  | eof =>
    obtain ⟨after,done,steady⟩ := closesSteady kept closed is fd
    refine ⟨eventRemove,after,?_,steady⟩
    rw [discardChildData, done]
    rfl
  | error => exact ⟨_,_,rfl,finishSteady kept closed is fd⟩
  | again => exact ⟨_,w,rfl,kept,closed,rfl⟩

def Exits (w : World) (result : Except Stop World) : Prop := result = .error .exited ∨ ∃ after, result = .ok after ∧ Steady w after

theorem Exits.same (sound : Sound w) : Exits w (.ok w) := .inr ⟨w,rfl,sound.kept,sound.closed,rfl⟩

theorem readyKeeps (sound : Sound w) (read : Read) (proper : Answers fd answers) (memory : Bool) (garbage : Nat → Byte) :
    Exits w (ready w fd read answers memory garbage) := by
  unfold ready
  cases w.handlers fd with
  | none => exact .same sound
  | some handler =>
    dsimp only
    split
    · rename_i found
      rw [World.hasOpen, Option.any_eq_true] at found
      obtain ⟨child,is,opened⟩ := found
      have handled : handle w handler fd read answers memory garbage = .error .exited ∨
          ∃ keep after, handle w handler fd read answers memory garbage = .ok (keep,after) ∧ Steady w after := by
        cases handler with
        | dump => exact .inr (discardsData sound.kept sound.closed is fd read)
        | echo => exact .inr (discardsData sound.kept sound.closed is fd read)
        | reader => exact childReadsData sound.kept sound.closed is (of_decide_eq_true opened).1 read proper memory garbage
      rcases handled with exits | ⟨keep,after,done,steady⟩
      · rw [exits]
        exact .inl rfl
      · rw [done]
        refine .inr ⟨_,rfl,?_⟩
        split
        · exact ⟨fun stream => (steady.kept stream).same rfl rfl rfl rfl id,steady.closed,steady.stop⟩
        · exact steady
    · exact .same sound

theorem Steady.sound (sound : Sound w) (steady : Steady w w') : Sound w' := ⟨steady.kept,steady.closed,steady.stop ▸ sound.still⟩

theorem reapKeeps (sound : Sound w) : Exits w (sigchldHandler { w with reaped := true }) := by
  unfold sigchldHandler
  dsimp only
  cases is : w.child with
  | none =>
    refine .inr ⟨_,rfl,fun stream => (sound.kept stream).same ?_ rfl rfl rfl fun _ => rfl,fun stream _ other same => (by cases same),rfl⟩
    rw [gone is, gone rfl]
  | some child =>
    have kept : ∀ stream, Kept { w with reaped := true, child := some { child with state := .flushPipes } } stream := fun stream =>
      childKept (sound.kept stream) is rfl rfl rfl rfl rfl
    have closed : Closed { w with reaped := true, child := some { child with state := .flushPipes } } := by
      intro stream end_ other same
      cases same
      exact sound.closed stream end_ child is
    obtain ⟨after,done,kept',closed',stop,-⟩ := validateKeeps kept closed rfl
    exact .inr ⟨after,done,kept',closed',stop⟩

theorem handleKeeps (sound : Sound w) (stream : Stream) (handler : Handler) (cb : Option Nat) (memory : Bool) :
    Steady w (chldHandle w stream handler cb memory) := by
  unfold chldHandle
  cases is : w.child with
  | none => exact ⟨sound.kept,sound.closed,rfl⟩
  | some child =>
    dsimp only
    split
    · exact ⟨sound.kept,sound.closed,rfl⟩
    rename_i opened
    have reading : Reading w stream (child.fd stream) := ⟨sound.kept,sound.closed,⟨child,is,rfl⟩,Int.not_lt.mp opened⟩
    have fits := (alive is stream) ▸ (sound.kept stream).fits
    have put : Reading (w.put stream { child.streamState stream with cb := cb } [] []) stream (child.fd stream) := by
      refine reading.put ⟨fits.used,fits.most,fits.absent,fits.present⟩ ?_ nofun
      rw [alive is, List.append_nil]
      rfl
    have set : Steady w (if handler = .reader then w.put stream { child.streamState stream with cb := cb } [] [] else w) := by
      split
      · exact ⟨put.kept,put.closed,rfl⟩
      · exact ⟨sound.kept,sound.closed,rfl⟩
    split
    · exact ⟨fun other => (set.kept other).same rfl rfl rfl rfl id,set.closed,set.stop⟩
    · exact set

theorem noticeKeeps (sound : Sound w) (deathCb : Option Nat) : Steady w (chldDeathNotice w deathCb) := by
  unfold chldDeathNotice
  cases is : w.child with
  | none =>
    rw [Option.map_none, ← is]
    exact ⟨sound.kept,sound.closed,rfl⟩
  | some child =>
    refine ⟨fun stream => childKept (sound.kept stream) is rfl rfl rfl rfl rfl,fun stream end_ other same => ?_,rfl⟩
    cases same
    exact sound.closed stream end_ child is

theorem actKeeps (sound : Sound w) {a : Act} (proper : Proper a) : Exits w (act w a) := by
  cases a with
  | handle stream handler cb memory =>
    refine .inr ⟨_,rfl,?_⟩
    split
    · exact ⟨sound.kept,sound.closed,rfl⟩
    · exact handleKeeps sound stream handler cb memory
  | deathNotice deathCb => exact .inr ⟨_,rfl,noticeKeeps sound deathCb⟩
  | reap =>
    simp only [act]
    split
    · exact .same sound
    · exact reapKeeps sound
  | ready fd read answers memory garbage => exact readyKeeps sound read proper memory garbage
  | closeFd fd =>
    simp only [act]
    split
    · rename_i some_
      obtain ⟨child,is⟩ := Option.isSome_iff_exists.mp some_
      exact .inr (closesSteady sound.kept sound.closed is fd)
    · exact .same sound
  | closeStdin =>
    simp only [act]
    split
    · rename_i some_
      obtain ⟨child,is⟩ := Option.isSome_iff_exists.mp some_
      rw [chldCloseStdin, World.record, is]
      exact .inr (closesSteady sound.kept sound.closed is (child.fd .stdin))
    · exact .same sound

theorem stepSound (w : World) (a : Act) (sound : Sound w) (proper : Proper a) : Sound (step w a) := by
  unfold step
  split
  · exact sound
  rcases actKeeps sound proper with exits | ⟨after,done,steady⟩
  · rw [exits]
    exact ⟨fun stream => (sound.kept stream).same rfl rfl rfl rfl id,sound.closed,.inr rfl⟩
  · rw [done]
    exact steady.sound sound

end

theorem forkSound (fds : Stream → Int) : Sound (fork fds) :=
  ⟨fun _ => ⟨fitsNone none,rfl,nofun,nofun⟩,nofun,.inl rfl⟩

/- For any child, any reads and handlers, and any answers of its callbacks: no access outside of a buffer or to the
freed record, no failed assertion, a buffer of no more than the largest size, and every byte in its place. -/
theorem outputKept (fds : Stream → Int) (acts : List Act) (proper : ∀ a ∈ acts, Proper a) :
    (∀ stream, Kept (exec step (fork fds) acts) stream) ∧
      ((exec step (fork fds) acts).stop = none ∨ (exec step (fork fds) acts).stop = some .exited) := by
  have sound := (Along.ofAll proper (fork fds)).invariant stepSound (forkSound fds)
  exact ⟨sound.kept,sound.still⟩

def untaken : List Act := [.handle .stdout .reader (some 1) true,.handle .stderr .reader (some 2) true,
  .ready 5 (.data 65 []) [⟨[],0⟩] true fun _ => 0,.ready 7 (.data 66 []) [⟨[],0⟩] true fun _ => 0,
  .ready 5 .eof [⟨[],0⟩] true fun _ => 0,.ready 7 .error [] true fun _ => 0,.closeStdin,.reap]

theorem untakenProper : ∀ a ∈ untaken, Proper a := by
  simp only [untaken,List.forall_mem_cons,Proper,Answers,List.not_mem_nil,false_implies,implies_true,and_true,true_and]
  decide

theorem untakenKept : Kept (exec step (fork pipes) untaken) .stderr ∧ (exec step (fork pipes) untaken).child = none ∧
    (exec step (fork pipes) untaken).stop = none := by
  have kept := outputKept pipes untaken untakenProper
  exact ⟨kept.1 .stderr,by decide +kernel,by decide +kernel⟩

def explained (w : World) (stream : Stream) : List Byte :=
  (w.ledger stream).flatMap fun entry => match entry with
    | .leftover _ => []
    | .freed _ => []
    | _ => entry.bytes

/- The end of stdout offers its byte once more, and the failed read of stderr does not. -/
theorem untakenLost :
    (∀ a ∈ untaken, Proper a) ∧
    (exec step (fork pipes) untaken).received .stdout = [65] ∧ (exec step (fork pipes) untaken).received .stderr = [66] ∧
    (exec step (fork pipes) untaken).ledger .stdout = [.consumed childBuffNorm [],.consumed childBuffClosing [],.leftover [65]] ∧
    (exec step (fork pipes) untaken).ledger .stderr = [.consumed childBuffNorm [],.freed [66]] ∧
    explained (exec step (fork pipes) untaken) .stdout ++ (streamState (exec step (fork pipes) untaken) .stdout).buffered = [] ∧
    explained (exec step (fork pipes) untaken) .stderr ++ (streamState (exec step (fork pipes) untaken) .stderr).buffered = [] :=
  ⟨untakenProper,by decide +kernel,by decide +kernel,by decide +kernel,by decide +kernel,by decide +kernel,by decide +kernel⟩

end LibProc.ChildOutput
