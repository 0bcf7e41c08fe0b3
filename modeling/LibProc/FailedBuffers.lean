import LibProc.ByteQueues

/-! The same calls when memory may be refused. A failed realloc leaves `dataLen` as it was
beside a NULL `data`, and the block that a later call opens has 1024 bytes whatever
`dataLen` is: this is the one way to a buffer that counts more bytes than it has. -/
namespace LibProc.FailedBuffers
open Buffers ByteQueues
open XdrBytes (Byte)

structure Write where
  first : Nat
  count : Nat
  size : Nat
  deriving DecidableEq, Repr

def Write.Inside (write : Write) : Prop := write.count = 0 ∨ write.first + write.count ≤ write.size

instance (write : Write) : Decidable write.Inside := inferInstanceAs (Decidable (_ ∨ _))

def blockSize (buffer : IpcBuffer) : Nat := (buffer.data.getD []).length

def fillWrites (buffer : IpcBuffer) (bytes : List Byte) : List Write :=
  if buffer.data = none ∨ buffer.free ≤ bytes.length then [] else [⟨buffer.dataLen,bytes.length,blockSize buffer⟩]

def appendWrites (memory : Memory) (buffer : IpcBuffer) (bytes : List Byte) : List Write :=
  if bytes.length = 0 then []
  else if (ipcOpenData memory buffer).data = none then []
  else fillWrites (ipcGrowData memory (ipcOpenData memory buffer) bytes.length) bytes

def textWrite (buffer : IpcBuffer) (text : List Byte) : Write :=
  ⟨buffer.dataLen,(printed buffer.free text).length,blockSize buffer⟩

def againWrites (buffer : IpcBuffer) (again : Option (List Byte)) : List Write :=
  if buffer.data = none then [] else again.toList.map (textWrite buffer)

def printWrites (memory : Memory) (buffer : IpcBuffer) (text again : Option (List Byte)) : List Write :=
  let opened := ipcOpenData memory buffer
  if opened.data = none then []
  else match text with
    | none => []
    | some text =>
      let put := ipcPutText opened text
      if text.length = 0 then [textWrite opened text]
      else if put.free ≤ text.length then
        textWrite opened text :: againWrites (ipcResizeData memory put (growAlloc text.length put.dataLen 64 put.allocLen)) again
      else [textWrite opened text]

section runs
variable {σ ε : Type} {buffer : IpcBuffer}

def callWrites : Call σ ε → IpcBuffer → List Write
  | .append memory bytes,buffer => appendWrites memory buffer bytes
  | .print memory text again,buffer => printWrites memory buffer text again
  | .process _ _,_ => []
  | .reset,_ => []

def Promised : Call σ ε → Prop
  | .append _ bytes => bytes.length < 2 ^ 31
  | .print _ text again => (text.getD []).length < 2 ^ 31 ∧ (again.getD []).length < 2 ^ 31
  | .process cb _ => Takes cb
  | .reset => True

def Usable (buffer : IpcBuffer) : Prop := buffer.data ≠ none → buffer.dataLen ≤ buffer.allocLen

/- The block that the call is given, if it opens one, has room for what the buffer counts. -/
def Fresh : Call σ ε → IpcBuffer → Prop
  | .append memory bytes,buffer => bytes ≠ [] → buffer.data = none → memory.malloc ≠ none → buffer.dataLen ≤ 1024
  | .print memory _ _,buffer => buffer.data = none → memory.malloc ≠ none → buffer.dataLen ≤ 1024
  | .process _ _,_ => True
  | .reset,_ => True

def AllFresh : IpcBuffer → List (Call σ ε) → Prop
  | _,[] => True
  | buffer,call :: calls => Fresh call buffer ∧ ∀ after, callBuffer call buffer = some after → AllFresh after.1 calls

def AllUsable : IpcBuffer → List (Call σ ε) → Prop
  | buffer,[] => Usable buffer
  | buffer,call :: calls => Usable buffer ∧ (∀ write ∈ callWrites call buffer, write.Inside) ∧
    ∃ after, callBuffer call buffer = some after ∧ AllUsable after.1 calls

def Blocked (buffer : IpcBuffer) : Prop :=
  ∃ block, buffer.data = some block ∧ block.length = buffer.allocLen ∧ buffer.dataLen ≤ buffer.allocLen ∧
    0 < buffer.allocLen ∧ buffer.allocLen < 2 ^ 63

structure Sized (buffer : IpcBuffer) : Prop where
  blocked : buffer.data ≠ none → Blocked buffer
  bound : buffer.dataLen < 2 ^ 63

theorem Sized.usable (sized : Sized buffer) : Usable buffer := fun present => by
  obtain ⟨block,-,-,room,-⟩ := sized.blocked present
  exact room

theorem Blocked.sized (blocked : Blocked buffer) : Sized buffer := by
  refine ⟨fun _ => blocked,?_⟩
  obtain ⟨block,-,-,room,-,limit⟩ := blocked
  omega

theorem Blocked.free (blocked : Blocked buffer) : buffer.free = buffer.allocLen - buffer.dataLen := by
  obtain ⟨block,-,-,room,-,limit⟩ := blocked
  rw [IpcBuffer.free]
  omega

theorem Blocked.size (blocked : Blocked buffer) : blockSize buffer = buffer.allocLen := by
  obtain ⟨block,present,size,-⟩ := blocked
  rw [blockSize, present, Option.getD_some, size]

theorem absentSized (absent : buffer.data = none) (bound : buffer.dataLen < 2 ^ 63) : Sized buffer :=
  ⟨fun present => absurd absent present,bound⟩

theorem freshSized : Sized ipcAllocBuffer :=
  absentSized rfl (by show 0 < 2 ^ 63; omega)

theorem openSized {memory : Memory} (sized : Sized buffer)
    (fresh : buffer.data = none → memory.malloc ≠ none → buffer.dataLen ≤ 1024) : Sized (ipcOpenData memory buffer) := by
  rw [ipcOpenData]
  split
  · rename_i absent
    refine ⟨fun opened => ?_,sized.bound⟩
    obtain ⟨block,given⟩ := Option.ne_none_iff_exists'.mp opened
    have length := reallocLength (show reallocBlock memory.malloc [] 1024 = some block from given)
    have granted : memory.malloc ≠ none := by
      intro refused
      rw [show reallocBlock memory.malloc [] 1024 = none by rw [refused]; rfl] at given
      cases given
    exact ⟨block,given,length.1,fresh absent granted,by show 0 < 1024; omega,length.2⟩
  · exact sized

theorem growAllocKeeps {buffer : IpcBuffer} {len : Nat} (blocked : Blocked buffer) (small : len < 2 ^ 31)
    (full : buffer.free ≤ len) : buffer.dataLen < growAlloc len buffer.dataLen 64 buffer.allocLen := by
  obtain ⟨block,-,-,room,positive,limit⟩ := blocked
  rcases Nat.lt_or_eq_of_le room with less | same
  · exact growAllocRoom small 64 buffer.allocLen less (by omega) (by omega)
  · rw [growAlloc, if_pos (show (buffer.allocLen + 2 ^ 64 - buffer.dataLen) % 2 ^ 64 ≤ len from full)]
    exact growAllocRoom small 63 _ (by omega) (by omega) (by omega)

theorem resizeSized (memory : Memory) {size : Nat} (blocked : Blocked buffer) (kept : buffer.dataLen < size) :
    Sized (ipcResizeData memory buffer size) := by
  rw [ipcResizeData]
  cases given : reallocBlock memory.realloc (buffer.data.getD []) size with
  | none => exact absentSized rfl blocked.sized.bound
  | some block =>
    have length := reallocLength given
    exact Blocked.sized ⟨block,rfl,length.1,Nat.le_of_lt kept,Nat.lt_of_le_of_lt (Nat.zero_le _) kept,length.2⟩

theorem growSized {memory : Memory} {len : Nat} (blocked : Blocked buffer) (small : len < 2 ^ 31) :
    Sized (ipcGrowData memory buffer len) := by
  rw [ipcGrowData]
  split
  · rename_i full
    exact resizeSized memory blocked (growAllocKeeps blocked small full)
  · exact blocked.sized

theorem copySized {bytes : List Byte} (blocked : Blocked buffer) (fits : ¬buffer.free ≤ bytes.length) :
    Blocked (ipcCopyIn buffer bytes) := by
  have free := blocked.free
  obtain ⟨block,present,size,room,positive,limit⟩ := blocked
  refine ⟨_,by rw [ipcCopyIn, present, Option.map_some],?_,?_,positive,limit⟩
  · exact (writtenLength (by omega)).trans size
  · show buffer.dataLen + bytes.length ≤ buffer.allocLen
    omega

theorem textInside (blocked : Blocked buffer) (text : List Byte) : (textWrite buffer text).Inside := by
  have free := blocked.free
  have size := blocked.size
  have length := printedLength buffer.free text
  obtain ⟨-,-,-,room,-⟩ := blocked
  right
  show buffer.dataLen + (printed buffer.free text).length ≤ blockSize buffer
  omega

theorem putBlocked (blocked : Blocked buffer) (text : List Byte) : Blocked (ipcPutText buffer text) := by
  have free := blocked.free
  have length := printedLength buffer.free text
  obtain ⟨block,present,size,room,positive,limit⟩ := blocked
  exact ⟨_,by rw [ipcPutText, present, Option.map_some],(writtenLength (by omega)).trans size,room,positive,limit⟩

theorem takeBlocked {len : Nat} (blocked : Blocked buffer) (fits : ¬buffer.free ≤ len) : Blocked (ipcTakeText buffer len) := by
  have free := blocked.free
  obtain ⟨block,present,size,-,positive,limit⟩ := blocked
  refine ⟨block,present,size,?_,positive,limit⟩
  show buffer.dataLen + len ≤ buffer.allocLen
  omega

theorem fillSized {bytes : List Byte} (sized : Sized buffer) :
    Sized (ipcFillData buffer bytes).1 ∧ ∀ write ∈ fillWrites buffer bytes, write.Inside := by
  rw [ipcFillData, fillWrites]
  by_cases stops : buffer.data = none ∨ buffer.free ≤ bytes.length
  · rw [if_pos stops, if_pos stops]
    exact ⟨sized,List.forall_mem_nil _⟩
  · obtain ⟨present,fits⟩ := not_or.mp stops
    have blocked := sized.blocked present
    have free := blocked.free
    have size := blocked.size
    rw [if_neg stops, if_neg stops]
    refine ⟨(copySized blocked fits).sized,?_⟩
    simp only [List.mem_singleton,forall_eq]
    right
    show buffer.dataLen + bytes.length ≤ blockSize buffer
    omega

theorem appendSized {memory : Memory} {bytes : List Byte} (sized : Sized buffer) (small : bytes.length < 2 ^ 31)
    (fresh : bytes ≠ [] → buffer.data = none → memory.malloc ≠ none → buffer.dataLen ≤ 1024) :
    Sized (ipcAppendBuffer memory buffer bytes).1 ∧ ∀ write ∈ appendWrites memory buffer bytes, write.Inside := by
  rw [ipcAppendBuffer, appendWrites]
  by_cases empty : bytes.length = 0
  · rw [if_pos empty, if_pos empty]
    exact ⟨sized,List.forall_mem_nil _⟩
  have opened := openSized sized (fresh fun none => empty (by rw [none]; rfl))
  rw [if_neg empty, if_neg empty]
  by_cases absent : (ipcOpenData memory buffer).data = none
  · rw [if_pos absent, if_pos absent]
    exact ⟨opened,List.forall_mem_nil _⟩
  · rw [if_neg absent, if_neg absent]
    exact fillSized (growSized (opened.blocked absent) small)

theorem printAgainSized (sized : Sized buffer) (again : Option (List Byte)) :
    Sized (ipcPrintAgain buffer again).1 ∧ ∀ write ∈ againWrites buffer again, write.Inside := by
  rw [againWrites]
  by_cases absent : buffer.data = none
  · rw [if_pos absent]
    cases again <;> rw [ipcPrintAgain, if_pos absent] <;> exact ⟨sized,List.forall_mem_nil _⟩
  have blocked := sized.blocked absent
  rw [if_neg absent]
  cases again with
  | none =>
    rw [ipcPrintAgain, if_neg absent]
    exact ⟨sized,List.forall_mem_nil _⟩
  | some text =>
    have put := putBlocked blocked text
    refine ⟨?_,by simpa using textInside blocked text⟩
    rw [ipcPrintAgain, if_neg absent]
    split
    · exact put.sized
    split
    · exact put.sized
    · rename_i fits
      exact (takeBlocked put fits).sized

theorem printSized {memory : Memory} {text : Option (List Byte)} (again : Option (List Byte)) (sized : Sized buffer)
    (small : (text.getD []).length < 2 ^ 31)
    (fresh : buffer.data = none → memory.malloc ≠ none → buffer.dataLen ≤ 1024) :
    Sized (ipcPrintfBuffer memory buffer text again).1 ∧
      ∀ write ∈ printWrites memory buffer text again, write.Inside := by
  have opened := openSized sized fresh
  simp only [ipcPrintfBuffer,printWrites]
  by_cases absent : (ipcOpenData memory buffer).data = none
  · rw [if_pos absent, if_pos absent]
    exact ⟨opened,List.forall_mem_nil _⟩
  have blocked := opened.blocked absent
  rw [if_neg absent, if_neg absent]
  cases text with
  | none => exact ⟨opened,List.forall_mem_nil _⟩
  | some text =>
    have put := putBlocked blocked text
    have first := textInside blocked text
    by_cases empty : text.length = 0
    · simp only [if_pos empty]
      exact ⟨put.sized,by simpa using first⟩
    by_cases full : (ipcPutText (ipcOpenData memory buffer) text).free ≤ text.length
    · have grown := resizeSized memory put (growAllocKeeps put (show text.length < 2 ^ 31 from small) full)
      obtain ⟨after,second⟩ := printAgainSized grown again
      simp only [if_neg empty,if_pos full]
      exact ⟨after,List.forall_mem_cons.mpr ⟨first,second⟩⟩
    · simp only [if_neg empty,if_neg full]
      exact ⟨(takeBlocked put full).sized,by simpa using first⟩

theorem processSized {cb : BufferCb σ ε} (sized : Sized buffer) (takes : Takes cb) (arg : σ) :
    ∃ after, callBuffer (.process cb arg) buffer = some after ∧ Sized after.1 := by
  obtain ⟨⟨kept,done⟩,ran,used⟩ := processBufferBounded takes buffer arg
  refine ⟨(kept,done.used),by rw [callBuffer, ran]; rfl,?_⟩
  rw [ipcProcessBuffer] at ran
  split at ran
  · cases ran
    exact sized
  rename_i busy
  obtain ⟨last,-,same⟩ := Option.map_eq_some_iff.mp ran
  have present : buffer.data ≠ none := fun absent => busy (.inl absent)
  obtain ⟨block,is,size,room,positive,limit⟩ := sized.blocked present
  split at same
  · cases same
    exact sized
  split at same
  · cases same
    exact Blocked.sized ⟨block,is,size,Nat.zero_le _,positive,limit⟩
  · cases same
    refine Blocked.sized ⟨_,by rw [is, Option.map_some],?_,?_,positive,limit⟩
    · show _ = buffer.allocLen
      simp only [IpcBuffer.contents,is,Option.getD_some,List.length_append,List.length_drop,List.length_take]
      omega
    · show buffer.dataLen - done.used ≤ buffer.allocLen
      omega

theorem callSized {call : Call σ ε} (sized : Sized buffer) (promised : Promised call) (fresh : Fresh call buffer) :
    ∃ after, callBuffer call buffer = some after ∧ Sized after.1 ∧ ∀ write ∈ callWrites call buffer, write.Inside := by
  cases call with
  | append memory bytes =>
    obtain ⟨after,inside⟩ := appendSized sized promised fresh
    exact ⟨_,rfl,after,inside⟩
  | print memory text again =>
    obtain ⟨after,inside⟩ := printSized again sized promised.1 fresh
    exact ⟨_,rfl,after,inside⟩
  | process cb arg =>
    obtain ⟨after,called,kept⟩ := processSized sized promised arg
    exact ⟨after,called,kept,List.forall_mem_nil _⟩
  | reset =>
    refine ⟨_,rfl,⟨fun present => ?_,by show 0 < 2 ^ 63; omega⟩,List.forall_mem_nil _⟩
    obtain ⟨block,is,size,-,positive,limit⟩ := sized.blocked present
    exact ⟨block,is,size,Nat.zero_le _,positive,limit⟩

/- A block that is too small for what is counted. The room in it is a difference below zero. -/
structure Short (buffer : IpcBuffer) : Prop where
  present : buffer.data ≠ none
  less : buffer.allocLen < buffer.dataLen
  bound : buffer.dataLen < 2 ^ 63

theorem Short.unusable (short : Short buffer) : ¬Usable buffer := fun usable =>
  absurd (usable short.present) (Nat.not_le_of_lt short.less)

theorem Short.free (short : Short buffer) : 2 ^ 63 < buffer.free := by
  have less := short.less
  have bound := short.bound
  rw [IpcBuffer.free]
  omega

theorem openShort {memory : Memory} (absent : buffer.data = none) (given : memory.malloc ≠ none) (more : 1024 < buffer.dataLen)
    (bound : buffer.dataLen < 2 ^ 63) : Short (ipcOpenData memory buffer) := by
  refine ⟨openGranted given buffer,?_,?_⟩
  · rw [ipcOpenData, if_pos absent]
    exact more
  · rw [ipcOpenData, if_pos absent]
    exact bound

theorem appendShort {memory : Memory} {bytes : List Byte} (some_ : bytes ≠ []) (small : bytes.length < 2 ^ 31)
    (short : Short (ipcOpenData memory buffer)) : ¬Usable (ipcAppendBuffer memory buffer bytes).1 := by
  have free := short.free
  have room : ¬(ipcOpenData memory buffer).free ≤ bytes.length := by omega
  have stays : ipcGrowData memory (ipcOpenData memory buffer) bytes.length = ipcOpenData memory buffer := by
    rw [ipcGrowData, if_neg room]
  rw [ipcAppendBuffer, if_neg (fun empty => some_ (List.length_eq_zero_iff.mp empty)), if_neg short.present, stays, ipcFillData,
    if_neg (not_or.mpr ⟨short.present,room⟩)]
  obtain ⟨block,is⟩ := Option.ne_none_iff_exists'.mp short.present
  intro usable
  have less := short.less
  have within := usable (by rw [ipcCopyIn, is]; exact Option.some_ne_none _)
  have counted : (ipcOpenData memory buffer).dataLen + bytes.length ≤ (ipcOpenData memory buffer).allocLen := within
  omega

theorem putShort (short : Short buffer) (text : List Byte) : Short (ipcPutText buffer text) := by
  obtain ⟨block,is⟩ := Option.ne_none_iff_exists'.mp short.present
  refine ⟨?_,short.less,short.bound⟩
  rw [ipcPutText, is]
  exact Option.some_ne_none _

theorem printShort {memory : Memory} {text again : Option (List Byte)} (small : (text.getD []).length < 2 ^ 31)
    (short : Short (ipcOpenData memory buffer)) : ¬Usable (ipcPrintfBuffer memory buffer text again).1 := by
  simp only [ipcPrintfBuffer]
  rw [if_neg short.present]
  cases text with
  | none => exact short.unusable
  | some text =>
    have put := putShort short text
    have room : ¬(ipcPutText (ipcOpenData memory buffer) text).free ≤ text.length := by
      have free := put.free
      have small' : text.length < 2 ^ 31 := small
      omega
    by_cases empty : text.length = 0
    · simp only [if_pos empty]
      exact put.unusable
    · simp only [if_neg empty,if_neg room]
      intro usable
      have less := put.less
      have within : (ipcPutText (ipcOpenData memory buffer) text).dataLen + text.length ≤
        (ipcPutText (ipcOpenData memory buffer) text).allocLen := usable put.present
      omega

theorem usableFresh {call : Call σ ε} {after : IpcBuffer × Int} (sized : Sized buffer) (promised : Promised call)
    (called : callBuffer call buffer = some after) (usable : Usable after.1) : Fresh call buffer := by
  cases call with
  | append memory bytes =>
    intro some_ absent given
    by_contra more
    cases called
    exact appendShort some_ promised (openShort absent given (Nat.not_le.mp more) sized.bound) usable
  | print memory text again =>
    intro absent given
    by_contra more
    cases called
    exact printShort promised.1 (openShort absent given (Nat.not_le.mp more) sized.bound) usable
  | process cb arg => trivial
  | reset => trivial

theorem usableHead {calls : List (Call σ ε)} (all : AllUsable buffer calls) : Usable buffer := by
  cases calls with
  | nil => exact all
  | cons call calls => exact all.1

theorem runUsable {calls : List (Call σ ε)} (sized : Sized buffer) (promised : ∀ call ∈ calls, Promised call) :
    AllUsable buffer calls ↔ AllFresh buffer calls := by
  induction calls generalizing buffer with
  | nil => exact ⟨fun _ => trivial,fun _ => sized.usable⟩
  | cons call calls ih =>
    have here := promised call List.mem_cons_self
    have later : ∀ other ∈ calls, Promised other := fun other member => promised other (List.mem_cons_of_mem _ member)
    constructor
    · rintro ⟨-,-,after,called,rest⟩
      have fresh := usableFresh sized here called (usableHead rest)
      obtain ⟨same,called',kept,-⟩ := callSized sized here fresh
      cases called.symm.trans called'
      refine ⟨fresh,fun other again => ?_⟩
      cases called.symm.trans again
      exact (ih kept later).mp rest
    · rintro ⟨fresh,rest⟩
      obtain ⟨after,called,kept,inside⟩ := callSized sized here fresh
      exact ⟨sized.usable,inside,after,called,(ih kept later).mpr (rest after called)⟩

/- From a new buffer on, in any order and with memory refused anywhere. -/
theorem usableIff {calls : List (Call σ ε)} (promised : ∀ call ∈ calls, Promised call) :
    AllUsable ipcAllocBuffer calls ↔ AllFresh ipcAllocBuffer calls :=
  runUsable freshSized promised

def refused : Memory := ⟨some fun _ => 0,none⟩

def lostBlock : List (Call Unit Unit) :=
  [.append ample (List.replicate 1025 0),.append refused (List.replicate 1024 0),.append ample [0]]

theorem appendFull {memory : Memory} {buffer : IpcBuffer} {bytes : List Byte} {size : Nat}
    (present : buffer.data ≠ none) (some_ : bytes.length ≠ 0)
    (full : buffer.free ≤ bytes.length) (grows : growAlloc bytes.length buffer.dataLen 64 buffer.allocLen = size) :
    ipcAppendBuffer memory buffer bytes = ipcFillData (ipcResizeData memory buffer size) bytes := by
  have opened : ipcOpenData memory buffer = buffer := by rw [ipcOpenData, if_neg present]
  rw [ipcAppendBuffer, if_neg some_, opened, if_neg present, ipcGrowData, if_pos full, grows]

theorem refusedGrowth (block : List Byte) {long more : List Byte} (first : long.length = 1025) (second : more.length = 1024) :
    ∃ grown, ipcAppendBuffer ample ⟨1024,0,some block⟩ long = (⟨2048,1025,some grown⟩,1025) ∧
      ipcAppendBuffer refused ⟨2048,1025,some grown⟩ more = (⟨0,1025,none⟩,-1) := by
  have made : ∃ block', reallocBlock ample.realloc block 2048 = some block' := ⟨_,rfl⟩
  obtain ⟨block',made⟩ := made
  have whole : growAlloc long.length 0 64 1024 = 2048 := by rw [first]; decide
  have again : growAlloc more.length 1025 64 2048 = 4096 := by rw [second]; decide
  have none_ : ∀ old, reallocBlock refused.realloc old 4096 = none := fun _ => rfl
  have full : (⟨1024,0,some block⟩ : IpcBuffer).free ≤ long.length := by simp only [IpcBuffer.free]; omega
  have room : ¬(⟨2048,0,some block'⟩ : IpcBuffer).free ≤ long.length := by simp only [IpcBuffer.free]; omega
  have full' : ∀ data, (⟨2048,1025,data⟩ : IpcBuffer).free ≤ more.length := by intro; simp only [IpcBuffer.free]; omega
  refine ⟨block'.take 0 ++ long ++ block'.drop (0 + long.length),?_,?_⟩
  · rw [appendFull (Option.some_ne_none _) (by omega) full whole, ipcResizeData]
    simp only [Option.getD_some,made]
    rw [ipcFillData, if_neg (not_or.mpr ⟨Option.some_ne_none _,room⟩), ipcCopyIn, first]
    rfl
  · rw [appendFull (Option.some_ne_none _) (by omega) (full' _) again, ipcResizeData]
    simp only [none_]
    rw [ipcFillData, if_pos (.inl rfl)]

theorem appendOpened {memory : Memory} {bytes : List Byte} (present : (ipcOpenData memory buffer).data ≠ none) :
    ipcAppendBuffer memory buffer bytes = if bytes.length = 0 then (buffer,0) else ipcAppendBuffer memory (ipcOpenData memory buffer) bytes := by
  have twice : ipcOpenData memory (ipcOpenData memory buffer) = ipcOpenData memory buffer := by
    rw [ipcOpenData, if_neg present]
  by_cases empty : bytes.length = 0
  · rw [if_pos empty, ipcAppendBuffer, if_pos empty]
  · rw [if_neg empty, ipcAppendBuffer, ipcAppendBuffer, if_neg empty, if_neg empty, twice]

theorem refusedRun {long more : List Byte} (first : long.length = 1025) (second : more.length = 1024) :
    ¬AllFresh ipcAllocBuffer ([.append ample long,.append refused more,.append ample [0]] : List (Call Unit Unit)) := by
  obtain ⟨block,opens⟩ : ∃ block, ipcOpenData ample ipcAllocBuffer = ⟨1024,0,some block⟩ := ⟨_,rfl⟩
  obtain ⟨grown,whole,again⟩ := refusedGrowth block first second
  have start : ipcAppendBuffer ample ipcAllocBuffer long = (⟨2048,1025,some grown⟩,1025) := by
    rw [appendOpened (openGranted (Option.some_ne_none _) _), if_neg (by omega), opens, whole]
  rintro ⟨-,rest⟩
  obtain ⟨-,rest⟩ := rest _ (by rw [callBuffer, start])
  obtain ⟨fresh,-⟩ := rest _ (by rw [callBuffer, again])
  exact absurd (fresh (List.cons_ne_nil _ _) rfl (Option.some_ne_none _)) (by decide)

theorem lostBlockShort : ¬AllUsable ipcAllocBuffer lostBlock := by
  have promised : ∀ call ∈ lostBlock, Promised call := by
    simp only [lostBlock,List.forall_mem_cons,Promised,List.length_replicate,List.length_singleton]
    exact ⟨by decide,by decide,by decide,List.forall_mem_nil _⟩
  rw [runUsable freshSized promised]
  exact refusedRun List.length_replicate List.length_replicate

theorem queueSampleUsable : AllUsable ipcAllocBuffer queueSample ↔ AllFresh ipcAllocBuffer queueSample :=
  usableIff (by
    simp only [queueSample,List.forall_mem_cons,Promised]
    exact ⟨by decide,by decide,fun _ _ rest => Nat.min_le_right 1 rest.length,trivial,List.forall_mem_nil _⟩)

end runs
end LibProc.FailedBuffers
