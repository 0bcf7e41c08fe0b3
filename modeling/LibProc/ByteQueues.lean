import LibProc.Buffers

/-! A buffer over the calls that are made of it. With memory for every request it holds the
bytes put in since it was reset, without those a callback has used; the loop that doubles
its size ends with more room than is needed. -/
namespace LibProc.ByteQueues
open Buffers
open XdrBytes (Byte)

def printed (room : Nat) (text : List Byte) : List Byte := if room = 0 then [] else text.take (room - 1) ++ [0]

theorem printedLength (room : Nat) (text : List Byte) : (printed room text).length ≤ room := by
  rw [printed]
  split
  · exact Nat.zero_le _
  · rw [List.length_append, List.length_take, List.length_singleton]
    omega

def ipcPutText (buffer : IpcBuffer) (text : List Byte) : IpcBuffer :=
  { buffer with
    data := buffer.data.map fun block =>
      block.take buffer.dataLen ++ printed buffer.free text ++
        block.drop (buffer.dataLen + (printed buffer.free text).length) }

def ipcTakeText (buffer : IpcBuffer) (len : Nat) : IpcBuffer := { buffer with dataLen := buffer.dataLen + len }

def ipcPrintAgain (buffer : IpcBuffer) (again : Option (List Byte)) : IpcBuffer × Int :=
  if buffer.data = none then (buffer,-1)
  else match again with
    | none => (buffer,-1)
    | some text =>
      if text.length = 0 then (ipcPutText buffer text,0)
      else if (ipcPutText buffer text).free ≤ text.length then (ipcPutText buffer text,-1)
      else (ipcTakeText (ipcPutText buffer text) text.length,text.length)

def ipcPrintfBuffer (memory : Memory) (buffer : IpcBuffer) (text again : Option (List Byte)) : IpcBuffer × Int :=
  let opened := ipcOpenData memory buffer
  if opened.data = none then (opened,-1)
  else match text with
    | none => (opened,-1)
    | some text =>
      let put := ipcPutText opened text
      if text.length = 0 then (put,0)
      else if put.free ≤ text.length then
        ipcPrintAgain (ipcResizeData memory put (growAlloc text.length put.dataLen 64 put.allocLen)) again
      else (ipcTakeText put text.length,text.length)

def ipcAllocBuffer : IpcBuffer := ⟨0,0,none⟩

inductive Grows (len dataLen : Nat) : Nat → Nat → Prop where
  | stop {allocLen} (room : ¬(allocLen + 2 ^ 64 - dataLen) % 2 ^ 64 ≤ len) : Grows len dataLen allocLen allocLen
  | turn {allocLen size} (full : (allocLen + 2 ^ 64 - dataLen) % 2 ^ 64 ≤ len)
      (next : Grows len dataLen (allocLen * 2 % 2 ^ 64) size) : Grows len dataLen allocLen size

theorem growAllocGrows {len dataLen : Nat} (need : dataLen + len < 2 ^ 31) (fuel allocLen : Nat) (room : dataLen < allocLen)
    (start : allocLen < 2 ^ 63) (enough : 2 ^ 31 ≤ allocLen * 2 ^ fuel) :
    Grows len dataLen allocLen (growAlloc len dataLen fuel allocLen) ∧
      dataLen + len < growAlloc len dataLen fuel allocLen ∧ growAlloc len dataLen fuel allocLen < 2 ^ 63 := by
  have free : (allocLen + 2 ^ 64 - dataLen) % 2 ^ 64 = allocLen - dataLen := by omega
  induction fuel generalizing allocLen with
  | zero =>
    rw [growAlloc]
    exact ⟨.stop (by omega),by omega,start⟩
  | succ fuel ih =>
    rw [growAlloc]
    by_cases full : (allocLen + 2 ^ 64 - dataLen) % 2 ^ 64 ≤ len
    · rw [if_pos full]
      have double : allocLen * 2 % 2 ^ 64 = allocLen * 2 := by omega
      rw [double]
      obtain ⟨grows,fits,small⟩ := ih (allocLen * 2) (by omega) (by omega) (by rwa [Nat.mul_assoc, ← Nat.pow_succ']) (by omega)
      exact ⟨.turn full (by rwa [double]),fits,small⟩
    · rw [if_neg full]
      exact ⟨.stop full,by omega,start⟩

theorem Roomy.free {buffer : IpcBuffer} (roomy : buffer.Roomy) : buffer.free = buffer.allocLen - buffer.dataLen := by
  obtain ⟨-,-,-,room,limit⟩ := roomy
  rw [IpcBuffer.free]
  omega

theorem reallocGranted {granted : Option (Nat → Byte)} (old : List Byte) {size : Nat} (given : granted ≠ none)
    (positive : 0 < size) (small : size < 2 ^ 63) : reallocBlock granted old size ≠ none := by
  obtain ⟨fresh,rfl⟩ := Option.ne_none_iff_exists'.mp given
  rw [reallocBlock, if_pos ⟨positive,small⟩]
  exact Option.some_ne_none _

theorem openGranted {memory : Memory} (given : memory.malloc ≠ none) (buffer : IpcBuffer) :
    (ipcOpenData memory buffer).data ≠ none := by
  rw [ipcOpenData]
  split
  · show reallocBlock memory.malloc [] 1024 ≠ none
    exact reallocGranted [] given (by omega) (by omega)
  · assumption

theorem resizeGranted {memory : Memory} {size : Nat} (given : memory.realloc ≠ none) (buffer : IpcBuffer)
    (positive : 0 < size) (small : size < 2 ^ 63) : (ipcResizeData memory buffer size).data ≠ none ∧
      (ipcResizeData memory buffer size).allocLen = size := by
  obtain ⟨block,made⟩ := Option.ne_none_iff_exists'.mp (reallocGranted (buffer.data.getD []) given positive small)
  rw [ipcResizeData, made]
  exact ⟨Option.some_ne_none _,rfl⟩

structure Grown (buffer grown : IpcBuffer) (len : Nat) : Prop where
  roomy : grown.Roomy
  present : grown.data ≠ none
  dataLen : grown.dataLen = buffer.dataLen
  contents : grown.contents = buffer.contents
  room : ¬grown.free ≤ len

theorem resizeGrown {memory : Memory} {buffer : IpcBuffer} {len : Nat} (given : memory.realloc ≠ none) (roomy : buffer.Roomy)
    (need : buffer.dataLen + len < 2 ^ 31) :
    Grown buffer (ipcResizeData memory buffer (growAlloc len buffer.dataLen 64 buffer.allocLen)) len := by
  have inside := roomy
  obtain ⟨-,-,-,room,limit⟩ := inside
  obtain ⟨-,fits,small⟩ := growAllocGrows need 64 buffer.allocLen room limit (by omega)
  obtain ⟨present,size⟩ := resizeGranted given buffer (show 0 < growAlloc len buffer.dataLen 64 buffer.allocLen by omega) small
  obtain ⟨after,same,contents⟩ := resizeDataRoomy roomy (show buffer.dataLen < _ by omega) present
  refine ⟨after,present,same,contents,?_⟩
  rw [Roomy.free after, same, size]
  omega

theorem growGrown {memory : Memory} {buffer : IpcBuffer} {len : Nat} (given : memory.realloc ≠ none) (roomy : buffer.Roomy)
    (present : buffer.data ≠ none) (need : buffer.dataLen + len < 2 ^ 31) : Grown buffer (ipcGrowData memory buffer len) len := by
  rw [ipcGrowData]
  split
  · exact resizeGrown given roomy need
  · rename_i room
    exact ⟨roomy,present,rfl,rfl,room⟩

theorem openRoomy {memory : Memory} {buffer : IpcBuffer} (given : memory.malloc ≠ none) (held : buffer.Held) :
    (ipcOpenData memory buffer).Roomy ∧ (ipcOpenData memory buffer).dataLen = buffer.dataLen ∧
      (ipcOpenData memory buffer).contents = buffer.contents :=
  openDataRoomy held (openGranted given buffer)

theorem appendQueues {memory : Memory} {buffer : IpcBuffer} {bytes : List Byte} (held : buffer.Held)
    (opens : memory.malloc ≠ none) (grows : memory.realloc ≠ none) (need : buffer.dataLen + bytes.length < 2 ^ 31) :
    (ipcAppendBuffer memory buffer bytes).1.Held ∧
      (ipcAppendBuffer memory buffer bytes).1.contents = buffer.contents ++ bytes ∧
      (ipcAppendBuffer memory buffer bytes).2 = bytes.length := by
  by_cases empty : bytes.length = 0
  · rw [ipcAppendBuffer, if_pos empty, List.length_eq_zero_iff.mp empty, List.append_nil]
    exact ⟨held,rfl,rfl⟩
  have present := openGranted opens buffer
  obtain ⟨roomy,same,contents⟩ := openRoomy opens held
  have grown := growGrown grows roomy present (show (ipcOpenData memory buffer).dataLen + bytes.length < 2 ^ 31 by omega)
  obtain ⟨kept,behind⟩ := copyInHeld grown.roomy grown.room
  rw [ipcAppendBuffer, if_neg empty, if_neg present, ipcFillData, if_neg (not_or.mpr ⟨grown.present,grown.room⟩)]
  refine ⟨kept,?_,rfl⟩
  rw [behind, grown.contents, contents]

theorem putTextRoomy {buffer : IpcBuffer} (roomy : buffer.Roomy) (text : List Byte) :
    (ipcPutText buffer text).Roomy ∧ (ipcPutText buffer text).contents = buffer.contents := by
  have free := Roomy.free roomy
  obtain ⟨block,present,size,room,limit⟩ := roomy
  have width := printedLength buffer.free text
  have front : (block.take buffer.dataLen).length = buffer.dataLen := by
    rw [List.length_take]
    omega
  refine ⟨⟨_,by rw [ipcPutText, present, Option.map_some],?_,room,limit⟩,?_⟩
  · exact (writtenLength (by omega)).trans size
  · simp only [ipcPutText,IpcBuffer.contents,present,Option.map_some,Option.getD_some]
    rw [List.append_assoc]
    nth_rewrite 1 [← front]
    rw [List.take_left]

theorem takeTextHeld {buffer : IpcBuffer} {text : List Byte} (roomy : buffer.Roomy) (fits : ¬buffer.free ≤ text.length) :
    (ipcTakeText (ipcPutText buffer text) text.length).Held ∧
      (ipcTakeText (ipcPutText buffer text) text.length).contents = buffer.contents ++ text := by
  have free := Roomy.free roomy
  obtain ⟨⟨block',made,size',-,limit⟩,-⟩ := putTextRoomy roomy text
  obtain ⟨block,present,size,room,-⟩ := roomy
  have all : printed buffer.free text = text ++ [0] := by
    rw [printed, if_neg (by omega), List.take_of_length_le (by omega)]
  have width : (block.take buffer.dataLen ++ text).length = buffer.dataLen + text.length := by
    rw [List.length_append, List.length_take]
    omega
  refine ⟨.inr ⟨block',made,size',?_,limit⟩,?_⟩
  · show buffer.dataLen + text.length < buffer.allocLen
    omega
  · simp only [ipcTakeText,ipcPutText,IpcBuffer.contents,present,Option.map_some,Option.getD_some]
    rw [all, ← List.append_assoc, List.append_assoc, ← width, List.take_left]

theorem printAgainHeld {buffer : IpcBuffer} {text : List Byte} (roomy : buffer.Roomy) (present : buffer.data ≠ none)
    (more : text.length ≠ 0) (fits : ¬buffer.free ≤ text.length) :
    (ipcPrintAgain buffer (some text)).1.Held ∧ (ipcPrintAgain buffer (some text)).1.contents = buffer.contents ++ text ∧
      (ipcPrintAgain buffer (some text)).2 = text.length := by
  have fits' : ¬(ipcPutText buffer text).free ≤ text.length := fits
  obtain ⟨kept,behind⟩ := takeTextHeld roomy fits
  rw [ipcPrintAgain, if_neg present]
  simp only [if_neg more,if_neg fits']
  exact ⟨kept,behind,trivial⟩

theorem printQueues {memory : Memory} {buffer : IpcBuffer} {text : List Byte} (held : buffer.Held)
    (opens : memory.malloc ≠ none) (grows : memory.realloc ≠ none) (need : buffer.dataLen + text.length < 2 ^ 31) :
    (ipcPrintfBuffer memory buffer (some text) (some text)).1.Held ∧
      (ipcPrintfBuffer memory buffer (some text) (some text)).1.contents = buffer.contents ++ text ∧
      (ipcPrintfBuffer memory buffer (some text) (some text)).2 = text.length := by
  have present := openGranted opens buffer
  obtain ⟨roomy,same,contents⟩ := openRoomy opens held
  obtain ⟨put,still⟩ := putTextRoomy roomy text
  simp only [ipcPrintfBuffer]
  rw [if_neg present]
  by_cases empty : text.length = 0
  · rw [if_pos empty, List.length_eq_zero_iff.mp empty, List.append_nil]
    rw [List.length_eq_zero_iff.mp empty] at put still
    exact ⟨.inr put,still.trans contents,rfl⟩
  rw [if_neg empty]
  by_cases full : (ipcPutText (ipcOpenData memory buffer) text).free ≤ text.length
  · have need' : (ipcPutText (ipcOpenData memory buffer) text).dataLen + text.length < 2 ^ 31 := by
      rw [← same] at need
      exact need
    have grown := resizeGrown grows put need'
    obtain ⟨kept,behind,returned⟩ := printAgainHeld grown.roomy grown.present empty grown.room
    rw [if_pos full]
    exact ⟨kept,by rw [behind, grown.contents, still, contents],returned⟩
  · obtain ⟨kept,behind⟩ := takeTextHeld roomy full
    rw [if_neg full]
    exact ⟨kept,by rw [behind, contents],rfl⟩

section runs
variable {σ ε : Type} {buffer : IpcBuffer}

inductive Call (σ ε : Type) where
  | append (memory : Memory) (bytes : List Byte)
  | print (memory : Memory) (text again : Option (List Byte))
  | process (cb : BufferCb σ ε) (arg : σ)
  | reset

/- `none`: a callback has taken more than it was given, and the next one is called with
what lies behind the data. -/
def callBuffer : Call σ ε → IpcBuffer → Option (IpcBuffer × Int)
  | .append memory bytes,buffer => some (ipcAppendBuffer memory buffer bytes)
  | .print memory text again,buffer => some (ipcPrintfBuffer memory buffer text again)
  | .process cb arg,buffer => (ipcProcessBuffer buffer cb arg).map fun done => (done.1,(done.2.used : Int))
  | .reset,buffer => some (ipcResetBuffer buffer,0)

def runCalls : List (Call σ ε) → IpcBuffer → Option IpcBuffer
  | [],buffer => some buffer
  | call :: calls,buffer => do runCalls calls (← callBuffer call buffer).1

def Takes (cb : BufferCb σ ε) : Prop := ∀ arg pos rest, (cb arg pos rest).used ≤ rest.length

/- Memory is given, the same arguments make the same text, a callback takes what it is given. -/
def Call.Granted : Call σ ε → Prop
  | .append memory _ => memory.malloc ≠ none ∧ memory.realloc ≠ none
  | .print memory text again => memory.malloc ≠ none ∧ memory.realloc ≠ none ∧ again = text
  | .process cb _ => Takes cb
  | .reset => True

def Call.size : Call σ ε → Nat
  | .append _ bytes => bytes.length
  | .print _ text _ => (text.getD []).length
  | .process _ _ => 0
  | .reset => 0

/- What the buffer is for: the bytes put in since the last reset, and how many of them were used. -/
structure History where
  appended : List Byte
  consumed : Nat
  deriving DecidableEq, Repr

def History.left (history : History) : List Byte := history.appended.drop history.consumed

theorem leftLength (history : History) : history.left.length ≤ history.appended.length := by
  rw [History.left, List.length_drop]
  exact Nat.sub_le _ _

def historyCall : Call σ ε → History → History
  | .append _ bytes,history => { history with appended := history.appended ++ bytes }
  | .print _ text _,history => { history with appended := history.appended ++ text.getD [] }
  | .process cb arg,history =>
    { history with consumed := history.consumed + ((processLoop cb arg 0 history.left).elim 0 CbResult.used) }
  | .reset,_ => ⟨[],0⟩

def historyOf (calls : List (Call σ ε)) (history : History) : History :=
  calls.foldl (fun history call => historyCall call history) history

def Small : History → List (Call σ ε) → Prop
  | _,[] => True
  | history,call :: calls => history.left.length + call.size < 2 ^ 31 ∧ Small (historyCall call history) calls

structure Stands (buffer : IpcBuffer) (history : History) : Prop where
  held : buffer.Held
  contents : buffer.contents = history.left
  inside : history.consumed ≤ history.appended.length

theorem Stands.dataLen {history : History} (stands : Stands buffer history) : buffer.dataLen = history.left.length := by
  rw [← contentsLength (heldIsSound stands.held), stands.contents]

theorem Stands.put {history : History} {after : IpcBuffer} {bytes : List Byte} (stands : Stands buffer history)
    (held : after.Held) (behind : after.contents = buffer.contents ++ bytes) :
    Stands after { history with appended := history.appended ++ bytes } := by
  refine ⟨held,?_,?_⟩
  · rw [behind, stands.contents, History.left, History.left, List.drop_append_of_le_length stands.inside]
  · rw [List.length_append]
    exact Nat.le_add_right_of_le stands.inside

theorem processStands {history : History} {cb : BufferCb σ ε} (stands : Stands buffer history) (takes : Takes cb) (arg : σ) :
    ∃ after, callBuffer (.process cb arg) buffer = some after ∧ Stands after.1 (historyCall (.process cb arg) history) := by
  obtain ⟨⟨kept,done⟩,ran,used⟩ := processBufferBounded takes buffer arg
  refine ⟨(kept,done.used),by rw [callBuffer, ran]; rfl,?_⟩
  have length := stands.dataLen
  by_cases empty : buffer.contents = []
  · have idle : buffer.dataLen = 0 := by rw [length, ← stands.contents, empty]; rfl
    rw [ipcProcessBuffer, if_pos (.inr idle)] at ran
    cases ran
    have stop : (cb arg 0 []).used = 0 := Nat.le_zero.mp (takes arg 0 [])
    have unused : historyCall (.process cb arg) history = history := by
      rw [historyCall, ← stands.contents, empty, processLoopStop stop]
      rfl
    rw [unused]
    exact stands
  · obtain ⟨looped,held,rest⟩ := processBufferRest stands.held empty used ran
    have consumed : historyCall (.process cb arg) history = { history with consumed := history.consumed + done.used } := by
      rw [historyCall, ← stands.contents, looped]
      rfl
    rw [consumed]
    refine ⟨held,?_,?_⟩
    · rw [rest, stands.contents, History.left, History.left, List.drop_drop]
    · have := stands.inside
      rw [History.left, List.length_drop] at length
      simp only at used ⊢
      omega

theorem callStands {history : History} {call : Call σ ε} (stands : Stands buffer history) (granted : call.Granted)
    (small : history.left.length + call.size < 2 ^ 31) :
    ∃ after, callBuffer call buffer = some after ∧ Stands after.1 (historyCall call history) := by
  rw [← stands.dataLen] at small
  cases call with
  | append memory bytes =>
    obtain ⟨held,behind,-⟩ := appendQueues stands.held granted.1 granted.2 small
    exact ⟨_,rfl,stands.put held behind⟩
  | print memory text again =>
    obtain ⟨opens,grows,rfl⟩ := granted
    refine ⟨_,rfl,?_⟩
    cases again with
    | none =>
      obtain ⟨roomy,-,contents⟩ := openRoomy opens stands.held
      have unprinted : ipcPrintfBuffer memory buffer none none = (ipcOpenData memory buffer,-1) := by
        rw [ipcPrintfBuffer, if_neg (openGranted opens buffer)]
      rw [unprinted]
      refine stands.put (.inr roomy) ?_
      rw [contents, Option.getD_none, List.append_nil]
    | some text =>
      obtain ⟨held,behind,-⟩ := printQueues stands.held opens grows small
      exact stands.put held behind
  | process cb arg => exact processStands stands granted arg
  | reset =>
    refine ⟨_,rfl,?_,rfl,le_rfl⟩
    rcases stands.held with ⟨absent,zero⟩ | ⟨block,present,size,room,limit⟩
    · exact .inl ⟨absent,rfl⟩
    · exact .inr ⟨block,present,size,by show 0 < buffer.allocLen; omega,limit⟩

theorem runStands {history : History} {calls : List (Call σ ε)} (stands : Stands buffer history)
    (granted : ∀ call ∈ calls, call.Granted) (small : Small history calls) :
    ∃ after, runCalls calls buffer = some after ∧ Stands after (historyOf calls history) := by
  induction calls generalizing buffer history with
  | nil => exact ⟨buffer,rfl,stands⟩
  | cons call calls ih =>
    obtain ⟨next,called,now⟩ := callStands stands (granted call List.mem_cons_self) small.1
    obtain ⟨after,ran,later⟩ := ih now (fun other member => granted other (List.mem_cons_of_mem _ member)) small.2
    refine ⟨after,?_,later⟩
    rw [runCalls, called]
    exact ran

theorem Stands.grows {history : History} (stands : Stands buffer history) {memory : Memory} {len : Nat}
    (need : buffer.dataLen + len < 2 ^ 31) (opened : (ipcOpenData memory buffer).data ≠ none) :
    Grows len buffer.dataLen (ipcOpenData memory buffer).allocLen
        (growAlloc len buffer.dataLen 64 (ipcOpenData memory buffer).allocLen) ∧
      buffer.dataLen + len < growAlloc len buffer.dataLen 64 (ipcOpenData memory buffer).allocLen := by
  obtain ⟨⟨block,present,size,room,limit⟩,same,-⟩ := openDataRoomy stands.held opened
  rw [same] at room
  obtain ⟨grows,fits,-⟩ := growAllocGrows need 64 (ipcOpenData memory buffer).allocLen room limit (by omega)
  exact ⟨grows,fits⟩

theorem bufferIsQueue {calls : List (Call σ ε)} (granted : ∀ call ∈ calls, call.Granted) (small : Small ⟨[],0⟩ calls) :
    ∃ after, runCalls calls ipcAllocBuffer = some after ∧ after.contents = (historyOf calls ⟨[],0⟩).left ∧
      (∀ block, after.data = some block → block.length = after.allocLen ∧ after.dataLen < after.allocLen) ∧
      ∀ memory len, after.dataLen + len < 2 ^ 31 → (ipcOpenData memory after).data ≠ none →
        ∃ size, Grows len after.dataLen (ipcOpenData memory after).allocLen size ∧ after.dataLen + len < size ∧
          size = growAlloc len after.dataLen 64 (ipcOpenData memory after).allocLen := by
  have fresh : Stands ipcAllocBuffer ⟨[],0⟩ := ⟨.inl ⟨rfl,rfl⟩,rfl,le_rfl⟩
  obtain ⟨after,ran,stands⟩ := runStands fresh granted small
  refine ⟨after,ran,stands.contents,?_,?_⟩
  · intro block present
    rcases stands.held with ⟨absent,-⟩ | ⟨block',same,size,room,-⟩
    · cases absent.symm.trans present
    · cases present.symm.trans same
      exact ⟨size,room⟩
  · intro memory len need opened
    obtain ⟨grows,fits⟩ := stands.grows need opened
    exact ⟨_,grows,fits,rfl⟩

def ample : Memory := ⟨some fun _ => 0,some fun _ => 0⟩

def takeOne : BufferCb Unit Unit := fun _ _ rest => ⟨(),min 1 rest.length,[]⟩

def queueSample : List (Call Unit Unit) := [.append ample [1,2],.print ample (some [3]) (some [3]),.process takeOne (),.reset]

theorem queueSampleKept : ∃ after, runCalls queueSample ipcAllocBuffer = some after ∧
    after.contents = (historyOf queueSample ⟨[],0⟩).left := by
  have granted : ∀ call ∈ queueSample, call.Granted := by
    simp only [queueSample,List.forall_mem_cons,Call.Granted,ample]
    exact ⟨by simp,by simp,fun _ _ rest => Nat.min_le_right 1 rest.length,trivial,List.forall_mem_nil _⟩
  obtain ⟨after,ran,contents,-⟩ := bufferIsQueue granted ⟨by decide,by decide,by decide,
    Nat.lt_of_le_of_lt (leftLength _) (by decide),trivial⟩
  exact ⟨after,ran,contents⟩

end runs

end LibProc.ByteQueues
