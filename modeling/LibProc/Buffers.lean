import LibProc.XdrBytes

/-! The byte buffer a connection reads into. `ipcProcessBuffer` hands what is buffered
to a callback again and again; the callback says how many bytes it used, and zero ends
the walk. A callback is given the offset of its first byte as its data pointer. -/
namespace LibProc.Buffers
open XdrBytes (Byte)

structure IpcBuffer where
  allocLen : Nat
  dataLen : Nat
  data : Option (List Byte)
  deriving DecidableEq, Repr

def IpcBuffer.contents (buffer : IpcBuffer) : List Byte :=
  (buffer.data.getD []).take buffer.dataLen

def ipcBufferSize (buffer : IpcBuffer) : Nat := buffer.dataLen
def ipcResetBuffer (buffer : IpcBuffer) : IpcBuffer := { buffer with dataLen := 0 }

def IpcBuffer.Sound (buffer : IpcBuffer) : Prop := buffer.dataLen ≤ (buffer.data.getD []).length

instance decideSound (buffer : IpcBuffer) : Decidable buffer.Sound := Nat.decLe _ _

theorem contentsLength {buffer : IpcBuffer} (sound : buffer.Sound) :
    buffer.contents.length = buffer.dataLen := by
  rw [IpcBuffer.contents, List.length_take]
  exact Nat.min_eq_left sound

structure CbResult (σ ε : Type) where
  arg : σ
  used : Nat
  events : List ε
  deriving DecidableEq, Repr

section
variable {σ ε : Type}

abbrev BufferCb (σ ε : Type) := σ → Nat → List Byte → CbResult σ ε

/- The do-while of the walk; `used` of the result is the cursor. A callback that used more
than it was offered takes the cursor past the data, and the next length wraps: `none`. -/
def processLoop (cb : BufferCb σ ε) (arg : σ) (pos : Nat) (rest : List Byte) :
    Option (CbResult σ ε) :=
  let now := cb arg pos rest
  if _ : now.used = 0 then some ⟨now.arg,pos,now.events⟩
  else if _ : now.used ≤ rest.length then
    (processLoop cb now.arg (pos + now.used) (rest.drop now.used)).map fun later =>
      ⟨later.arg,later.used,now.events ++ later.events⟩
  else none
termination_by rest.length
decreasing_by
  simp only [now] at *
  simp only [List.length_drop]
  omega

def ipcProcessBuffer (buffer : IpcBuffer) (cb : BufferCb σ ε) (arg : σ) :
    Option (IpcBuffer × CbResult σ ε) :=
  if buffer.data = none ∨ buffer.dataLen = 0 then some ⟨buffer,arg,0,[]⟩
  else (processLoop cb arg 0 buffer.contents).map fun done =>
    if done.used = 0 then (buffer,done)
    else if done.used = buffer.dataLen then (ipcResetBuffer buffer,done)
    else
      -- the bytes not yet used move to the front, over the ones that were
      let kept := buffer.contents.drop done.used
      ({ buffer with
          data := buffer.data.map fun bytes => kept ++ bytes.drop kept.length
          dataLen := buffer.dataLen - done.used },done)

theorem processLoopStop {cb : BufferCb σ ε} {arg : σ} {pos : Nat} {rest : List Byte}
    (stop : (cb arg pos rest).used = 0) :
    processLoop cb arg pos rest = some ⟨(cb arg pos rest).arg,pos,(cb arg pos rest).events⟩ := by
  rw [processLoop]
  simp only [stop,dite_true]

theorem processLoopNext {cb : BufferCb σ ε} {arg : σ} {pos : Nat} {rest : List Byte}
    (more : (cb arg pos rest).used ≠ 0) (fits : (cb arg pos rest).used ≤ rest.length) :
    processLoop cb arg pos rest =
      (processLoop cb (cb arg pos rest).arg (pos + (cb arg pos rest).used)
        (rest.drop (cb arg pos rest).used)).map fun later =>
          ⟨later.arg,later.used,(cb arg pos rest).events ++ later.events⟩ := by
  rw [processLoop]
  simp only [more,fits,dite_true,dite_false]

theorem processLoopBounded {cb : BufferCb σ ε}
    (bounded : ∀ arg pos rest, (cb arg pos rest).used ≤ rest.length)
    (arg : σ) (pos : Nat) (rest : List Byte) :
    ∃ done, processLoop cb arg pos rest = some done ∧ done.used ≤ pos + rest.length := by
  induction size : rest.length using Nat.strong_induction_on generalizing arg pos rest with
  | _ n ih =>
    by_cases stop : (cb arg pos rest).used = 0
    · exact ⟨_,processLoopStop stop,by simp⟩
    have fits := bounded arg pos rest
    have smaller : (rest.drop (cb arg pos rest).used).length < n := by
      rw [List.length_drop]
      omega
    obtain ⟨done,ran,inside⟩ := ih _ smaller (cb arg pos rest).arg (pos + (cb arg pos rest).used)
      (rest.drop (cb arg pos rest).used) rfl
    refine ⟨⟨done.arg,done.used,(cb arg pos rest).events ++ done.events⟩,?_,?_⟩
    · rw [processLoopNext stop fits, ran, Option.map_some]
    · rw [List.length_drop] at inside
      show done.used ≤ pos + n
      omega

theorem processBufferLoop {cb : BufferCb σ ε} {buffer : IpcBuffer} {arg : σ}
    (sound : buffer.Sound) (quiet : cb arg 0 [] = ⟨arg,0,[]⟩) (done : CbResult σ ε) :
    (∃ kept, ipcProcessBuffer buffer cb arg = some (kept,done)) ↔
      processLoop cb arg 0 buffer.contents = some done := by
  by_cases idle : buffer.data = none ∨ buffer.dataLen = 0
  · have empty : buffer.contents = [] := by
      rw [← List.length_eq_zero_iff, contentsLength sound]
      rcases idle with absent | zero
      · rw [IpcBuffer.Sound, absent] at sound
        exact Nat.le_zero.mp sound
      · exact zero
    have stop := processLoopStop (show (cb arg 0 []).used = 0 by rw [quiet])
    rw [quiet] at stop
    rw [ipcProcessBuffer, if_pos idle, empty, stop]
    simp
  · rw [ipcProcessBuffer, if_neg idle]
    cases processLoop cb arg 0 buffer.contents with
    | none => simp
    | some last =>
      simp only [Option.map_some,Option.some.injEq]
      constructor
      · rintro ⟨kept,same⟩
        split at same
        · exact (Prod.ext_iff.mp same).2
        · split at same <;> exact (Prod.ext_iff.mp same).2
      · rintro rfl
        split
        · exact ⟨_,rfl⟩
        · split <;> exact ⟨_,rfl⟩

theorem processBufferBounded {cb : BufferCb σ ε}
    (bounded : ∀ arg pos rest, (cb arg pos rest).used ≤ rest.length)
    (buffer : IpcBuffer) (arg : σ) :
    ∃ after, ipcProcessBuffer buffer cb arg = some after ∧ after.2.used ≤ buffer.dataLen := by
  rw [ipcProcessBuffer]
  split
  · exact ⟨_,rfl,Nat.zero_le _⟩
  · obtain ⟨done,ran,inside⟩ := processLoopBounded bounded arg 0 buffer.contents
    have held : done.used ≤ buffer.dataLen := by
      have := List.length_take_le buffer.dataLen (buffer.data.getD [])
      rw [Nat.zero_add] at inside
      exact Nat.le_trans inside this
    rw [ran, Option.map_some]
    refine ⟨_,rfl,?_⟩
    split
    · exact held
    · split <;> exact held

end

/- What the allocator answers in one append: the bytes that happen to be in the new block,
or nothing. No block has zero bytes or 2 ^ 63 and more. -/
structure Memory where
  malloc : Option (Nat → Byte)
  realloc : Option (Nat → Byte)

def reallocBlock (granted : Option (Nat → Byte)) (old : List Byte) (size : Nat) : Option (List Byte) :=
  if 0 < size ∧ size < 2 ^ 63 then granted.map fun fresh => (List.range size).map fun i => old.getD i (fresh i)
  else none

def IpcBuffer.free (buffer : IpcBuffer) : Nat := (buffer.allocLen + 2 ^ 64 - buffer.dataLen) % 2 ^ 64

/- The doubling loop. After 64 turns `allocLen` is zero and stays so. -/
def growAlloc (len dataLen : Nat) : Nat → Nat → Nat
  | 0,allocLen => allocLen
  | fuel + 1,allocLen =>
    if (allocLen + 2 ^ 64 - dataLen) % 2 ^ 64 ≤ len then growAlloc len dataLen fuel (allocLen * 2 % 2 ^ 64)
    else allocLen

def ipcOpenData (memory : Memory) (buffer : IpcBuffer) : IpcBuffer :=
  if buffer.data = none then { buffer with allocLen := 1024, data := reallocBlock memory.malloc [] 1024 } else buffer

def ipcResizeData (memory : Memory) (buffer : IpcBuffer) (size : Nat) : IpcBuffer :=
  match reallocBlock memory.realloc (buffer.data.getD []) size with
  | none => { buffer with allocLen := 0, data := none }
  | some block => { buffer with allocLen := size, data := some block }

def ipcGrowData (memory : Memory) (buffer : IpcBuffer) (len : Nat) : IpcBuffer :=
  if buffer.free ≤ len then ipcResizeData memory buffer (growAlloc len buffer.dataLen 64 buffer.allocLen) else buffer

def ipcCopyIn (buffer : IpcBuffer) (bytes : List Byte) : IpcBuffer :=
  { buffer with
    data := buffer.data.map fun block =>
      block.take buffer.dataLen ++ bytes ++ block.drop (buffer.dataLen + bytes.length)
    dataLen := buffer.dataLen + bytes.length }

def ipcFillData (buffer : IpcBuffer) (bytes : List Byte) : IpcBuffer × Int :=
  if buffer.data = none ∨ buffer.free ≤ bytes.length then (buffer,-1) else (ipcCopyIn buffer bytes,bytes.length)

def ipcAppendBuffer (memory : Memory) (buffer : IpcBuffer) (bytes : List Byte) : IpcBuffer × Int :=
  if bytes.length = 0 then (buffer,0)
  else if (ipcOpenData memory buffer).data = none then (ipcOpenData memory buffer,-1)
  else ipcFillData (ipcGrowData memory (ipcOpenData memory buffer) bytes.length) bytes

def IpcBuffer.Roomy (buffer : IpcBuffer) : Prop :=
  ∃ block, buffer.data = some block ∧ block.length = buffer.allocLen ∧ buffer.dataLen < buffer.allocLen ∧
    buffer.allocLen < 2 ^ 63

def IpcBuffer.Held (buffer : IpcBuffer) : Prop := (buffer.data = none ∧ buffer.dataLen = 0) ∨ buffer.Roomy

theorem heldIsSound {buffer : IpcBuffer} (held : buffer.Held) : buffer.Sound := by
  rcases held with ⟨absent,zero⟩ | ⟨block,present,size,room,-⟩
  · rw [IpcBuffer.Sound, zero]
    exact Nat.zero_le _
  · rw [IpcBuffer.Sound, present, Option.getD_some, size]
    exact Nat.le_of_lt room

theorem reallocLength {granted : Option (Nat → Byte)} {old block : List Byte} {size : Nat}
    (given : reallocBlock granted old size = some block) : block.length = size ∧ size < 2 ^ 63 := by
  rw [reallocBlock] at given
  split at given
  · rename_i small
    obtain ⟨fresh,-,rfl⟩ := Option.map_eq_some_iff.mp given
    exact ⟨by rw [List.length_map, List.length_range],small.2⟩
  · cases given

theorem reallocTake {granted : Option (Nat → Byte)} {old block : List Byte} {size n : Nat}
    (given : reallocBlock granted old size = some block) (kept : n ≤ size) (inside : n ≤ old.length) :
    block.take n = old.take n := by
  have length := reallocLength given
  rw [reallocBlock] at given
  split at given
  · obtain ⟨fresh,-,rfl⟩ := Option.map_eq_some_iff.mp given
    apply List.ext_getElem
    · rw [List.length_take, List.length_take, length.1]
      omega
    · intro i left right
      rw [List.length_take] at right
      have here : i < old.length := by omega
      simp [List.getElem_take,List.getD_eq_getElem?_getD,List.getElem?_eq_getElem here]
  · cases given

/- Doubling a block that has room for what it holds never wraps: the last doubling that
could, from 2 ^ 62 on, leaves more room than an `int` can ask for. -/
theorem growAllocRoom {len dataLen : Nat} (small : len < 2 ^ 31) (fuel allocLen : Nat) (room : dataLen < allocLen)
    (fits : allocLen < 2 ^ 64) (last : 2 ^ 63 ≤ allocLen → len < allocLen - dataLen) :
    dataLen < growAlloc len dataLen fuel allocLen := by
  induction fuel generalizing allocLen with
  | zero => exact room
  | succ fuel ih =>
    rw [growAlloc]
    split
    · apply ih
      · omega
      · omega
      · omega
    · exact room

theorem openDataRoomy {memory : Memory} {buffer : IpcBuffer} (held : buffer.Held)
    (opened : (ipcOpenData memory buffer).data ≠ none) :
    (ipcOpenData memory buffer).Roomy ∧ (ipcOpenData memory buffer).dataLen = buffer.dataLen ∧
      (ipcOpenData memory buffer).contents = buffer.contents := by
  rw [ipcOpenData] at opened ⊢
  split at opened
  · rename_i absent
    have zero : buffer.dataLen = 0 := by
      rcases held with ⟨-,zero⟩ | ⟨block,present,-⟩
      · exact zero
      · cases absent.symm.trans present
    obtain ⟨block,given⟩ := Option.ne_none_iff_exists'.mp opened
    have length := reallocLength (show reallocBlock memory.malloc [] 1024 = some block from given)
    rw [if_pos absent]
    refine ⟨⟨block,given,length.1,?_,length.2⟩,rfl,?_⟩
    · show buffer.dataLen < 1024
      omega
    · simp only [IpcBuffer.contents,zero,List.take_zero]
  · rename_i present
    rw [if_neg present]
    exact ⟨held.resolve_left fun absent => present absent.1,rfl,rfl⟩

theorem resizeDataRoomy {memory : Memory} {buffer : IpcBuffer} {size : Nat} (roomy : buffer.Roomy)
    (kept : buffer.dataLen < size) (resized : (ipcResizeData memory buffer size).data ≠ none) :
    (ipcResizeData memory buffer size).Roomy ∧ (ipcResizeData memory buffer size).dataLen = buffer.dataLen ∧
      (ipcResizeData memory buffer size).contents = buffer.contents := by
  obtain ⟨block,present,length,room,limit⟩ := roomy
  simp only [ipcResizeData,present,Option.getD_some] at resized ⊢
  cases given : reallocBlock memory.realloc block size with
  | none => simp [given] at resized
  | some block' =>
    have after := reallocLength given
    have taken := reallocTake given (Nat.le_of_lt kept) (show buffer.dataLen ≤ block.length by omega)
    refine ⟨⟨block',rfl,after.1,kept,after.2⟩,rfl,?_⟩
    rw [IpcBuffer.contents, IpcBuffer.contents, present]
    exact taken

theorem growDataRoomy {memory : Memory} {buffer : IpcBuffer} {len : Nat} (small : len < 2 ^ 31) (roomy : buffer.Roomy)
    (grown : (ipcGrowData memory buffer len).data ≠ none) :
    (ipcGrowData memory buffer len).Roomy ∧ (ipcGrowData memory buffer len).dataLen = buffer.dataLen ∧
      (ipcGrowData memory buffer len).contents = buffer.contents := by
  rw [ipcGrowData] at grown ⊢
  split at grown
  · rename_i full
    rw [if_pos full]
    apply resizeDataRoomy roomy ?_ grown
    obtain ⟨-,-,-,room,limit⟩ := roomy
    exact growAllocRoom small 64 buffer.allocLen room (by omega) (by omega)
  · rename_i enough
    rw [if_neg enough]
    exact ⟨roomy,rfl,rfl⟩

theorem writtenLength {block bytes : List Byte} {n : Nat} (inside : n + bytes.length ≤ block.length) :
    (block.take n ++ bytes ++ block.drop (n + bytes.length)).length = block.length := by
  rw [List.length_append, List.length_append, List.length_take, List.length_drop]
  omega

theorem copyInHeld {buffer : IpcBuffer} {bytes : List Byte} (roomy : buffer.Roomy)
    (fits : ¬buffer.free ≤ bytes.length) :
    (ipcCopyIn buffer bytes).Held ∧ (ipcCopyIn buffer bytes).contents = buffer.contents ++ bytes := by
  obtain ⟨block,present,size,room,limit⟩ := roomy
  rw [IpcBuffer.free] at fits
  have width : (block.take buffer.dataLen ++ bytes).length = buffer.dataLen + bytes.length := by
    rw [List.length_append, List.length_take]
    omega
  refine ⟨.inr ⟨_,by rw [ipcCopyIn, present, Option.map_some],?_,?_,limit⟩,?_⟩
  · exact (writtenLength (by omega)).trans size
  · show buffer.dataLen + bytes.length < buffer.allocLen
    omega
  · simp only [ipcCopyIn,IpcBuffer.contents,present,Option.map_some,Option.getD_some]
    rw [← width, List.take_left]

theorem fillDataHeld {buffer : IpcBuffer} {bytes : List Byte} (roomy : buffer.data ≠ none → buffer.Roomy)
    (filled : (ipcFillData buffer bytes).2 = bytes.length) :
    buffer.data ≠ none ∧ (ipcFillData buffer bytes).1.Held ∧
      (ipcFillData buffer bytes).1.contents = buffer.contents ++ bytes := by
  rw [ipcFillData] at filled ⊢
  split at filled
  · exact absurd filled (by omega)
  · rename_i fits
    rw [if_neg fits]
    rw [not_or] at fits
    exact ⟨fits.1,copyInHeld (roomy fits.1) fits.2⟩

theorem appendHeld {memory : Memory} {buffer : IpcBuffer} {bytes : List Byte} (held : buffer.Held)
    (some : bytes ≠ []) (small : bytes.length < 2 ^ 31)
    (appended : (ipcAppendBuffer memory buffer bytes).2 = bytes.length) :
    (ipcAppendBuffer memory buffer bytes).1.Held ∧
      (ipcAppendBuffer memory buffer bytes).1.contents = buffer.contents ++ bytes := by
  have positive : bytes.length ≠ 0 := fun empty => some (List.length_eq_zero_iff.mp empty)
  rw [ipcAppendBuffer, if_neg positive] at appended ⊢
  by_cases opened : (ipcOpenData memory buffer).data = none
  · rw [if_pos opened] at appended
    exact absurd appended (by omega)
  rw [if_neg opened] at appended ⊢
  obtain ⟨roomy,-,contents⟩ := openDataRoomy held opened
  obtain ⟨present,kept,behind⟩ := fillDataHeld (fun grown => (growDataRoomy small roomy grown).1) appended
  have same := (growDataRoomy small roomy present).2.2
  exact ⟨kept,by rw [behind, same, contents]⟩

theorem processBufferRest {σ ε : Type} {cb : BufferCb σ ε} {buffer kept : IpcBuffer} {arg : σ} {done : CbResult σ ε}
    (held : buffer.Held) (busy : buffer.contents ≠ []) (inside : done.used ≤ buffer.dataLen)
    (ran : ipcProcessBuffer buffer cb arg = some (kept,done)) :
    processLoop cb arg 0 buffer.contents = some done ∧ kept.Held ∧ kept.contents = buffer.contents.drop done.used := by
  have length := contentsLength (heldIsSound held)
  obtain ⟨absent,zero⟩ | ⟨block,present,size,room,limit⟩ := held
  · rw [← List.length_pos_iff, length] at busy
    omega
  have working : ¬(buffer.data = none ∨ buffer.dataLen = 0) := by
    rw [← List.length_pos_iff, length] at busy
    rintro (absent | zero)
    · cases absent.symm.trans present
    · omega
  rw [ipcProcessBuffer, if_neg working] at ran
  obtain ⟨last,looped,same⟩ := Option.map_eq_some_iff.mp ran
  split at same
  · rename_i unused
    cases same
    refine ⟨looped,.inr ⟨block,present,size,room,limit⟩,?_⟩
    rw [unused, List.drop_zero]
  · split at same
    · rename_i all
      cases same
      refine ⟨looped,.inr ⟨block,present,size,?_,limit⟩,?_⟩
      · show 0 < buffer.allocLen
        omega
      · rw [List.drop_of_length_le (by omega)]
        rfl
    · cases same
      have rest : (buffer.contents.drop done.used).length = buffer.dataLen - done.used := by
        rw [List.length_drop, length]
      refine ⟨looped,.inr ⟨_,by rw [present, Option.map_some],?_,?_,limit⟩,?_⟩
      · show _ = buffer.allocLen
        rw [List.length_append, rest, List.length_drop]
        omega
      · show buffer.dataLen - done.used < buffer.allocLen
        omega
      · simp only [IpcBuffer.contents] at rest ⊢
        rw [present, Option.map_some, Option.getD_some, Option.getD_some]
        simp only [present,Option.getD_some] at rest
        nth_rewrite 1 [← rest]
        rw [List.take_left]

end LibProc.Buffers
