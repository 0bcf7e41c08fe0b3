import LibProc.Critical
import Mathlib.Data.List.Perm.Basic

/-! Loading the critical state. Entries survive their encoding, a file of whole copies reads
as its copies, and a scan keeps the entry of the highest version it meets. What a load
finds does not depend on the order of the listing, on which replica holds the newest
version, or on what else is in the files, as long as one copy of it is read. -/
namespace LibProc.CriticalLoad
open XdrBytes Critical CrashLogic

theorem entryHeadLength {version : BitVec 64} {state : Bytes} (full : state.length = criticalStateMaxLen) :
    (entryHead version state).length = 240 := by
  simp [entryHead,beBytes64,full,criticalStateMaxLen]

theorem entryLength {version : BitVec 64} {state : Bytes} (full : state.length = criticalStateMaxLen) :
    (entryBytes version state).length = entryLen := by
  rw [entryBytes, List.length_append, entryHeadLength full, Md5.md5Length]
  rfl

theorem entrySplit (version : BitVec 64) (state : Bytes) :
    entryBytes version state = beBytes (high version) ++ (beBytes (low version) ++
      (List.replicate 8 0 ++ (state ++ Md5.md5 (entryHead version state)))) := by
  simp only [entryBytes,entryHead,beBytes64,List.append_assoc]

theorem parseEntryBytes (version : BitVec 64) {state : Bytes} (full : state.length = criticalStateMaxLen) :
    parseEntry (entryBytes version state) = some (version,state) := by
  have head : (entryHead version state).length = 240 := entryHeadLength full
  have taken : (entryBytes version state).take 240 = entryHead version state := List.take_left' head
  have dropped : (entryBytes version state).drop 240 = Md5.md5 (entryHead version state) :=
    List.drop_left' head
  have first : (entryBytes version state).take 4 = beBytes (high version) := by
    rw [entrySplit, List.take_left' (beBytesLength _)]
  have afterFirst : (entryBytes version state).drop 4 = beBytes (low version) ++
      (List.replicate 8 0 ++ (state ++ Md5.md5 (entryHead version state))) := by
    rw [entrySplit, List.drop_left' (beBytesLength _)]
  have rest : (entryBytes version state).drop 16 = state ++ Md5.md5 (entryHead version state) := by
    rw [show 16 = 4 + 12 from rfl, ← List.drop_drop, afterFirst, show 12 = 4 + 8 from rfl, ← List.drop_drop,
      List.drop_left' (beBytesLength _), List.drop_left' (List.length_replicate)]
  rw [parseEntry, taken, dropped, if_pos rfl, first, afterFirst, List.take_left' (beBytesLength _), rest,
    List.take_left' full, beWordBytes, beWordBytes, joinHalves]

theorem chunksCons {ent : Bytes} (size : ent.length = entryLen) (rest : Bytes) :
    chunks (ent ++ rest) = ent :: chunks rest := by
  have count : (ent ++ rest).length / entryLen = rest.length / entryLen + 1 := by
    rw [List.length_append, size, Nat.add_comm, Nat.add_div_right _ (by decide)]
  rw [chunks, count, List.range_succ_eq_map, List.map_cons, List.map_map]
  congr 1
  · rw [chunkAt, Nat.mul_zero, List.drop_zero, List.take_left' size]
  · refine List.map_congr_left fun k _ => ?_
    rw [Function.comp_apply, chunkAt, chunkAt, Nat.succ_eq_add_one, Nat.mul_add, Nat.mul_one, Nat.add_comm (entryLen * k),
      ← List.drop_drop, List.drop_left' size]

theorem chunksShort {tail : Bytes} (short : tail.length < entryLen) : chunks tail = [] := by
  rw [chunks, Nat.div_eq_of_lt short]
  rfl

theorem chunksCopies {ent : Bytes} (size : ent.length = entryLen) (copies : Nat) {tail : Bytes}
    (short : tail.length < entryLen) :
    chunks ((List.replicate copies ent).flatten ++ tail) = List.replicate copies ent := by
  induction copies with
  | zero => exact chunksShort short
  | succ copies ih =>
    rw [List.replicate_succ, List.flatten_cons, List.append_assoc, chunksCons size, ih]

def fileEntries (bytes : Bytes) : List (BitVec 64 × Bytes) := (chunks bytes).filterMap parseEntry

theorem fileEntriesCopies (version : BitVec 64) {state : Bytes} (full : state.length = criticalStateMaxLen)
    (copies : Nat) {tail : Bytes} (short : tail.length < entryLen) :
    fileEntries ((List.replicate copies (entryBytes version state)).flatten ++ tail) =
      List.replicate copies (version,state) := by
  rw [fileEntries, chunksCopies (entryLength full) copies short,
    List.filterMap_replicate_of_some (parseEntryBytes version full)]

/- No entry beats the newest version, and those of that version have its state. -/
def Below (version : BitVec 64) (state : Bytes) (entry : BitVec 64 × Bytes) : Prop :=
  entry.1 ≤ version ∧ (entry.1 = version → entry.2 = state)

structure Tracks (version : BitVec 64) (state : Bytes) (cs : CSState) : Prop where
  below : cs.stateVersion ≤ version
  found : cs.stateVersion = version → cs.state = state ∧ cs.md5 = Md5.md5 state

structure SameFrame (cs after : CSState) : Prop where
  name : after.name = cs.name
  dirty : after.dirty = cs.dirty
  files : after.files = cs.files

section
variable {version : BitVec 64} {state : Bytes} {cs : CSState} {chunk : Bytes} {list : List Bytes}

theorem processFrame (cs : CSState) (chunk : Bytes) : SameFrame cs (processCriticalEntry cs chunk).1 := by
  unfold processCriticalEntry
  split
  · exact ⟨rfl,rfl,rfl⟩
  · split
    · exact ⟨rfl,rfl,rfl⟩
    · split <;> exact ⟨rfl,rfl,rfl⟩

theorem processTracks (tracks : Tracks version state cs)
    (below : ∀ entry, parseEntry chunk = some entry → Below version state entry) :
    Tracks version state (processCriticalEntry cs chunk).1 := by
  unfold processCriticalEntry
  cases parsed : parseEntry chunk with
  | none => exact tracks
  | some entry =>
    dsimp only
    split
    · exact tracks
    · split
      · exact tracks
      · refine ⟨(below entry parsed).1,fun newest => ?_⟩
        have same := (below entry parsed).2 newest
        exact ⟨same,congrArg Md5.md5 same⟩

theorem processReaches (tracks : Tracks version state cs) (parsed : parseEntry chunk = some (version,state)) :
    (processCriticalEntry cs chunk).1.stateVersion = version ∧ (processCriticalEntry cs chunk).2 = 1 := by
  unfold processCriticalEntry
  rw [parsed]
  dsimp only
  have not : ¬version < cs.stateVersion := BitVec.not_lt.mpr tracks.below
  rw [if_neg not]
  split
  · rename_i same
    exact ⟨same.symm,rfl⟩
  · exact ⟨rfl,rfl⟩

theorem processStays (newest : cs.stateVersion = version)
    (below : ∀ entry, parseEntry chunk = some entry → Below version state entry) :
    (processCriticalEntry cs chunk).1 = cs ∧
      ((processCriticalEntry cs chunk).2 ≠ 0 → parseEntry chunk = some (version,state)) := by
  unfold processCriticalEntry
  cases parsed : parseEntry chunk with
  | none => exact ⟨rfl,fun zero => absurd rfl zero⟩
  | some entry =>
    have under := below entry parsed
    dsimp only
    by_cases less : entry.1 < cs.stateVersion
    · rw [if_pos less]
      exact ⟨rfl,fun zero => absurd rfl zero⟩
    · have same : entry.1 = cs.stateVersion := by
        rw [newest] at less ⊢
        exact BitVec.le_antisymm under.1 (BitVec.not_lt.mp less)
      rw [if_neg less, if_pos same]
      refine ⟨rfl,fun _ => ?_⟩
      rw [newest] at same
      rw [← same, ← under.2 same]

theorem SameFrame.trans {first second third : CSState} (one : SameFrame first second)
    (two : SameFrame second third) : SameFrame first third :=
  ⟨two.name.trans one.name,two.dirty.trans one.dirty,two.files.trans one.files⟩

theorem chunksFrame (acc : CSState × Int) (list : List Bytes) :
    SameFrame acc.1 (list.foldl processChunk acc).1 := by
  induction list generalizing acc with
  | nil => exact ⟨rfl,rfl,rfl⟩
  | cons chunk rest ih => exact (processFrame acc.1 chunk).trans (ih (processChunk acc chunk))

theorem chunksTracks {acc : CSState × Int} (tracks : Tracks version state acc.1)
    (below : ∀ chunk ∈ list, ∀ entry, parseEntry chunk = some entry → Below version state entry) :
    Tracks version state (list.foldl processChunk acc).1 := by
  induction list generalizing acc with
  | nil => exact tracks
  | cons chunk rest ih =>
    refine ih (processTracks tracks (below chunk List.mem_cons_self)) ?_
    exact fun later member => below later (List.mem_cons_of_mem _ member)

theorem chunksPositive (acc : CSState × Int) (list : List Bytes) (positive : 0 < acc.2) :
    0 < (list.foldl processChunk acc).2 := by
  induction list generalizing acc with
  | nil => exact positive
  | cons chunk rest ih =>
    refine ih _ ?_
    rw [processChunk]
    dsimp only
    split
    · exact Int.one_pos
    · exact positive

theorem chunksStay (acc : CSState × Int) (newest : acc.1.stateVersion = version)
    (below : ∀ chunk ∈ list, ∀ entry, parseEntry chunk = some entry → Below version state entry) :
    (list.foldl processChunk acc).1 = acc.1 ∧
      (0 < (list.foldl processChunk acc).2 →
        0 < acc.2 ∨ ∃ chunk ∈ list, parseEntry chunk = some (version,state)) := by
  induction list generalizing acc with
  | nil => exact ⟨rfl,.inl⟩
  | cons chunk rest ih =>
    obtain ⟨same,counts⟩ := processStays newest (below chunk List.mem_cons_self)
    have now : (processChunk acc chunk).1 = acc.1 := same
    obtain ⟨rests,seen⟩ := ih (processChunk acc chunk) (by rw [now]; exact newest)
      (fun later member => below later (List.mem_cons_of_mem _ member))
    refine ⟨rests.trans now,fun positive => ?_⟩
    rcases seen positive with before | ⟨later,member,parsed⟩
    · rw [processChunk] at before
      dsimp only at before
      by_cases zero : (processCriticalEntry acc.1 chunk).2 ≠ 0
      · exact .inr ⟨chunk,List.mem_cons_self,counts zero⟩
      · rw [if_neg zero] at before
        exact .inl before
    · exact .inr ⟨later,List.mem_cons_of_mem _ member,parsed⟩

theorem chunksReach (acc : CSState × Int) (tracks : Tracks version state acc.1)
    (below : ∀ chunk ∈ list, ∀ entry, parseEntry chunk = some entry → Below version state entry)
    (copy : ∃ chunk ∈ list, parseEntry chunk = some (version,state)) :
    (list.foldl processChunk acc).1.stateVersion = version ∧ 0 < (list.foldl processChunk acc).2 := by
  induction list generalizing acc with
  | nil =>
    obtain ⟨chunk,member,-⟩ := copy
    cases member
  | cons chunk rest ih =>
    have later : ∀ chunk ∈ rest, ∀ entry, parseEntry chunk = some entry → Below version state entry :=
      fun other member => below other (List.mem_cons_of_mem _ member)
    by_cases here : parseEntry chunk = some (version,state)
    · obtain ⟨reached,one⟩ := processReaches tracks here
      have positive : 0 < (processChunk acc chunk).2 := by
        rw [processChunk]
        dsimp only
        rw [if_pos (by rw [one]; exact one_ne_zero)]
        exact Int.one_pos
      have stays := (chunksStay (processChunk acc chunk) reached later).1
      refine ⟨?_,chunksPositive (processChunk acc chunk) rest positive⟩
      rw [List.foldl_cons, stays]
      exact reached
    · obtain ⟨other,member,parsed⟩ := copy
      rcases List.mem_cons.mp member with same | inside
      · rw [same] at parsed
        exact absurd parsed here
      · exact ih _ (processTracks tracks (below chunk List.mem_cons_self)) later ⟨other,inside,parsed⟩

theorem mem_fileEntries {bytes : Bytes} {entry : BitVec 64 × Bytes} :
    entry ∈ fileEntries bytes ↔ ∃ chunk ∈ chunks bytes, parseEntry chunk = some entry := by
  rw [fileEntries, List.mem_filterMap]

section
variable {bytes : Bytes} {scan : Scan}

theorem fileFrame (cs : CSState) (bytes : Bytes) (scan : Scan) :
    SameFrame cs (loadCriticalStateFile cs bytes scan).1 := by
  cases scan with
  | whole => exact chunksFrame (cs,0) _
  | noOpen => exact ⟨rfl,rfl,rfl⟩
  | error reads errno => exact chunksFrame (cs,0) _

theorem fileTracks (tracks : Tracks version state cs)
    (below : ∀ entry ∈ fileEntries bytes, Below version state entry) :
    Tracks version state (loadCriticalStateFile cs bytes scan).1 := by
  have each : ∀ chunk ∈ chunks bytes, ∀ entry, parseEntry chunk = some entry → Below version state entry :=
    fun chunk member entry parsed => below entry (mem_fileEntries.mpr ⟨chunk,member,parsed⟩)
  cases scan with
  | whole => exact chunksTracks tracks each
  | noOpen => exact tracks
  | error reads errno => exact chunksTracks tracks fun chunk member => each chunk (List.mem_of_mem_take member)

theorem fileStays (scan : Scan) (newest : cs.stateVersion = version)
    (below : ∀ entry ∈ fileEntries bytes, Below version state entry) :
    (loadCriticalStateFile cs bytes scan).1 = cs ∧
      (0 < (loadCriticalStateFile cs bytes scan).2 → (version,state) ∈ fileEntries bytes) := by
  have each : ∀ chunk ∈ chunks bytes, ∀ entry, parseEntry chunk = some entry → Below version state entry :=
    fun chunk member entry parsed => below entry (mem_fileEntries.mpr ⟨chunk,member,parsed⟩)
  cases scan with
  | whole =>
    obtain ⟨same,seen⟩ := chunksStay (cs,0) newest each
    refine ⟨same,fun positive => ?_⟩
    rcases seen positive with zero | copy
    · exact absurd zero (lt_irrefl 0)
    · exact mem_fileEntries.mpr copy
  | noOpen =>
    refine ⟨rfl,fun positive => ?_⟩
    have negative : (loadCriticalStateFile cs bytes .noOpen).2 = -1 := rfl
    omega
  | error reads errno =>
    refine ⟨(chunksStay (cs,0) newest fun chunk member => each chunk (List.mem_of_mem_take member)).1,?_⟩
    intro positive
    have negative : (loadCriticalStateFile cs bytes (.error reads errno)).2 = -(errno : Int) := rfl
    rw [negative] at positive
    omega

theorem fileReaches (tracks : Tracks version state cs)
    (below : ∀ entry ∈ fileEntries bytes, Below version state entry)
    (copy : (version,state) ∈ fileEntries bytes) :
    (loadCriticalStateFile cs bytes .whole).1.stateVersion = version ∧
      0 < (loadCriticalStateFile cs bytes .whole).2 :=
  chunksReach (cs,0) tracks
    (fun chunk member entry parsed => below entry (mem_fileEntries.mpr ⟨chunk,member,parsed⟩))
    (mem_fileEntries.mp copy)

end

def BelowDisk (name : Name) (disk : List File) (version : BitVec 64) (state : Bytes) : Prop :=
  ∀ file ∈ disk, ∀ i, belongs name i file.name = true →
    ∀ entry ∈ fileEntries file.bytes, Below version state entry

def Hit (disk : List File) (version : BitVec 64) (state : Bytes) (i : Replica) (cs : CSState) : Prop :=
  ∃ file ∈ disk, (cs.files i).currFile = some file.name ∧ belongs cs.name i file.name = true ∧
    (version,state) ∈ fileEntries file.bytes

section
variable {disk : List File} {entry : File × Scan} {i j : Replica}

@[simp] theorem setCurrSelf (cs : CSState) (i : Replica) (file : Name) :
    ((cs.setCurr i file).files i).currFile = some file := by
  simp [CSState.setCurr]

theorem setCurrOther (cs : CSState) (file : Name) (apart : j ≠ i) :
    (cs.setCurr i file).files j = cs.files j := by
  simp [CSState.setCurr,apart]

theorem loadEntryFrame (i : Replica) (cs : CSState) (entry : File × Scan) :
    (loadEntry i cs entry).name = cs.name ∧ (loadEntry i cs entry).dirty = cs.dirty ∧
      ∀ j ≠ i, (loadEntry i cs entry).files j = cs.files j := by
  have frame := fileFrame cs entry.1.bytes entry.2
  unfold loadEntry
  split
  · dsimp only
    split
    · refine ⟨frame.name,frame.dirty,fun j apart => ?_⟩
      rw [setCurrOther _ _ apart, frame.files]
    · exact ⟨frame.name,frame.dirty,fun j _ => by rw [frame.files]⟩
  · exact ⟨rfl,rfl,fun _ _ => rfl⟩

theorem loadEntryTracks (tracks : Tracks version state cs) (member : entry.1 ∈ disk)
    (below : BelowDisk cs.name disk version state) : Tracks version state (loadEntry i cs entry) := by
  unfold loadEntry
  split
  · rename_i ours
    have after : Tracks version state (loadCriticalStateFile cs entry.1.bytes entry.2).1 :=
      fileTracks tracks (below entry.1 member i ours)
    dsimp only
    split
    · exact ⟨after.below,after.found⟩
    · exact after
  · exact tracks

/- The newest version stays in memory, and the current file of a replica that holds it is
only given up for another that does. -/
theorem loadEntryStays (newest : cs.stateVersion = version) (member : entry.1 ∈ disk)
    (below : BelowDisk cs.name disk version state) :
    (loadEntry i cs entry).stateVersion = version ∧
      (Hit disk version state j cs → Hit disk version state j (loadEntry i cs entry)) := by
  unfold loadEntry
  split
  · rename_i ours
    obtain ⟨same,counts⟩ := fileStays entry.2 newest (below entry.1 member i ours)
    dsimp only
    rw [same]
    split
    · rename_i positive
      refine ⟨newest,fun hit => ?_⟩
      by_cases here : j = i
      · subst here
        exact ⟨entry.1,member,setCurrSelf _ _ _,ours,counts positive⟩
      · obtain ⟨file,inside,curr,owned,copy⟩ := hit
        exact ⟨file,inside,by rw [setCurrOther _ _ here]; exact curr,owned,copy⟩
    · exact ⟨newest,id⟩
  · exact ⟨newest,id⟩

theorem loadEntryReaches (tracks : Tracks version state cs) (member : entry.1 ∈ disk)
    (below : BelowDisk cs.name disk version state) (ours : belongs cs.name i entry.1.name = true)
    (whole : entry.2 = .whole) (copy : (version,state) ∈ fileEntries entry.1.bytes) :
    (loadEntry i cs entry).stateVersion = version ∧ Hit disk version state i (loadEntry i cs entry) := by
  obtain ⟨reached,positive⟩ := fileReaches tracks (below entry.1 member i ours) copy
  have frame := fileFrame cs entry.1.bytes .whole
  unfold loadEntry
  rw [if_pos ours, whole]
  dsimp only
  rw [if_pos positive]
  refine ⟨reached,entry.1,member,setCurrSelf _ _ _,?_,copy⟩
  show belongs (loadCriticalStateFile cs entry.1.bytes .whole).1.name i entry.1.name = true
  rw [frame.name]
  exact ours

theorem listedMem {listing : Listing} (inside : entry ∈ listed disk listing) : entry.1 ∈ disk := by
  cases listing with
  | none => cases inside
  | some order =>
    simp only [listed] at inside
    split at inside
    · rename_i perm
      exact (List.isPerm_iff.mp perm).mem_iff.mp (List.mem_map_of_mem inside)
    · cases inside

variable (order : List (File × Scan))

theorem foldFrame (i : Replica) (cs : CSState) :
    (order.foldl (loadEntry i) cs).name = cs.name ∧ (order.foldl (loadEntry i) cs).dirty = cs.dirty ∧
      ∀ j ≠ i, (order.foldl (loadEntry i) cs).files j = cs.files j := by
  induction order generalizing cs with
  | nil => exact ⟨rfl,rfl,fun _ _ => rfl⟩
  | cons entry rest ih =>
    obtain ⟨name,dirty,files⟩ := loadEntryFrame i cs entry
    obtain ⟨names,dirties,later⟩ := ih (loadEntry i cs entry)
    exact ⟨names.trans name,dirties.trans dirty,fun j apart => (later j apart).trans (files j apart)⟩

theorem foldTracks (tracks : Tracks version state cs) (members : ∀ entry ∈ order, entry.1 ∈ disk)
    (below : BelowDisk cs.name disk version state) :
    Tracks version state (order.foldl (loadEntry i) cs) := by
  induction order generalizing cs with
  | nil => exact tracks
  | cons entry rest ih =>
    have name := (loadEntryFrame i cs entry).1
    refine ih (loadEntryTracks tracks (members entry List.mem_cons_self) below) ?_ (by rwa [name])
    exact fun later member => members later (List.mem_cons_of_mem _ member)

theorem foldStays (newest : cs.stateVersion = version) (members : ∀ entry ∈ order, entry.1 ∈ disk)
    (below : BelowDisk cs.name disk version state) :
    (order.foldl (loadEntry i) cs).stateVersion = version ∧
      (Hit disk version state j cs → Hit disk version state j (order.foldl (loadEntry i) cs)) := by
  induction order generalizing cs with
  | nil => exact ⟨newest,id⟩
  | cons entry rest ih =>
    have name := (loadEntryFrame i cs entry).1
    obtain ⟨now,keeps⟩ := loadEntryStays (i := i) (j := j) newest (members entry List.mem_cons_self) below
    obtain ⟨later,keep⟩ := ih now (fun later member => members later (List.mem_cons_of_mem _ member))
      (by rwa [name])
    exact ⟨later,fun hit => keep (keeps hit)⟩

theorem foldReaches (tracks : Tracks version state cs) (members : ∀ entry ∈ order, entry.1 ∈ disk)
    (below : BelowDisk cs.name disk version state)
    (copy : ∃ entry ∈ order, belongs cs.name i entry.1.name = true ∧ entry.2 = .whole ∧
      (version,state) ∈ fileEntries entry.1.bytes) :
    (order.foldl (loadEntry i) cs).stateVersion = version ∧
      Hit disk version state i (order.foldl (loadEntry i) cs) := by
  induction order generalizing cs with
  | nil =>
    obtain ⟨entry,member,-⟩ := copy
    cases member
  | cons entry rest ih =>
    have name := (loadEntryFrame i cs entry).1
    have later : ∀ entry ∈ rest, entry.1 ∈ disk :=
      fun other member => members other (List.mem_cons_of_mem _ member)
    have here := members entry List.mem_cons_self
    by_cases first : belongs cs.name i entry.1.name = true ∧ entry.2 = .whole ∧
        (version,state) ∈ fileEntries entry.1.bytes
    · obtain ⟨reached,hit⟩ := loadEntryReaches tracks here below first.1 first.2.1 first.2.2
      obtain ⟨stays,keeps⟩ := foldStays (i := i) (j := i) rest reached later (by rwa [name])
      exact ⟨stays,keeps hit⟩
    · obtain ⟨other,member,is⟩ := copy
      rcases List.mem_cons.mp member with same | inside
      · rw [same] at is
        exact absurd is first
      · refine ih (loadEntryTracks tracks here below) later (by rwa [name]) ⟨other,inside,?_⟩
        rw [name]
        exact is

end
end

structure Loaded (disk : List File) (version : BitVec 64) (state : Bytes) (cs : CSState) : Prop where
  newest : cs.stateVersion = version
  held : cs.state = state
  digest : cs.md5 = Md5.md5 state
  clean : cs.dirty = false
  hit : ∃ i, Hit disk version state i cs

/- Some file that holds the newest version is opened and read to its end. -/
def ReadsNewest (name : Name) (disk : List File) (listings : Replica → Listing) (version : BitVec 64)
    (state : Bytes) : Prop :=
  ∃ i, ∃ entry ∈ listed disk (listings i), belongs name i entry.1.name = true ∧ entry.2 = .whole ∧
    (version,state) ∈ fileEntries entry.1.bytes

section
variable {disk : List File} {listings : Replica → Listing} {version : BitVec 64} {state : Bytes} {cs : CSState}

theorem loadName : (loadCriticalState disk listings cs).name = cs.name := by
  simp only [loadCriticalState,Replica.all,List.foldl,loadCriticalStateDirectory]
  rw [(foldFrame _ .b _).1, (foldFrame _ .a _).1]

theorem loadNewest (positive : 0 < version) (below : BelowDisk cs.name disk version state)
    (reads : ReadsNewest cs.name disk listings version state) :
    Loaded disk version state (loadCriticalState disk listings cs) := by
  obtain ⟨i,copy⟩ := reads
  have start : Tracks version state { cs with stateVersion := 0 } := by
    refine ⟨BitVec.le_def.mpr (Nat.zero_le _),fun none => ?_⟩
    rw [← show (0 : BitVec 64) = version from none] at positive
    exact absurd positive (BitVec.lt_irrefl 0)
  have nameA := (foldFrame (listed disk (listings .a)) .a { cs with stateVersion := 0 }).1
  have both : (loadCriticalState disk listings cs).stateVersion = version ∧
      Tracks version state (loadCriticalState disk listings cs) ∧
      Hit disk version state i (loadCriticalState disk listings cs) := by
    have tracksA := foldTracks (i := .a) (listed disk (listings .a)) start
      (fun _ => listedMem) below
    have tracksB := foldTracks (i := .b) (listed disk (listings .b)) tracksA
      (fun _ => listedMem) (by rw [nameA]; exact below)
    cases i with
    | a =>
      obtain ⟨reached,hit⟩ := foldReaches _ start (fun _ => listedMem) below copy
      obtain ⟨stays,keeps⟩ := foldStays (i := .b) (j := .a) (listed disk (listings .b)) reached
        (fun _ => listedMem) (by rw [nameA]; exact below)
      exact ⟨stays,⟨tracksB.below,tracksB.found⟩,keeps hit⟩
    | b =>
      obtain ⟨reached,hit⟩ := foldReaches (i := .b) _ tracksA (fun _ => listedMem) (by rw [nameA]; exact below)
        (by rw [nameA]; exact copy)
      exact ⟨reached,⟨tracksB.below,tracksB.found⟩,hit⟩
  obtain ⟨reached,tracks,hit⟩ := both
  exact ⟨reached,(tracks.found reached).1,(tracks.found reached).2,rfl,i,hit⟩

def Blank (name : Name) (disk : List File) : Prop :=
  ∀ file ∈ disk, ∀ i, belongs name i file.name = true → fileEntries file.bytes = []

theorem chunksBlank (cs : CSState) {list : List Bytes} (none : ∀ chunk ∈ list, parseEntry chunk = Option.none) :
    processChunks cs list = (cs,0) := by
  unfold processChunks
  induction list with
  | nil => rfl
  | cons chunk rest ih =>
    have skip : processChunk (cs,0) chunk = (cs,0) := by
      simp only [processChunk,processCriticalEntry,none chunk List.mem_cons_self]
      rfl
    rw [List.foldl_cons, skip]
    exact ih fun later member => none later (List.mem_cons_of_mem _ member)

theorem loadEntryBlank {i : Replica} {entry : File × Scan} (member : entry.1 ∈ disk) (blank : Blank cs.name disk) :
    loadEntry i cs entry = cs := by
  unfold loadEntry
  split
  · rename_i ours
    have none : ∀ chunk ∈ chunks entry.1.bytes, parseEntry chunk = Option.none := by
      have empty := blank entry.1 member i ours
      rw [fileEntries, List.filterMap_eq_nil_iff] at empty
      exact empty
    cases scan : entry.2 with
    | whole =>
      simp only [loadCriticalStateFile,chunksBlank cs none]
      rfl
    | noOpen => rfl
    | error reads errno =>
      have some : processChunks cs ((chunks entry.1.bytes).take reads) = (cs,0) :=
        chunksBlank cs fun chunk inside => none chunk (List.mem_of_mem_take inside)
      simp only [loadCriticalStateFile,some]
      rw [if_neg (by omega)]
  · rfl

theorem foldBlank (i : Replica) (cs : CSState) {order : List (File × Scan)} (members : ∀ entry ∈ order, entry.1 ∈ disk)
    (blank : Blank cs.name disk) : order.foldl (loadEntry i) cs = cs := by
  induction order with
  | nil => rfl
  | cons entry rest ih =>
    rw [List.foldl_cons, loadEntryBlank (members entry List.mem_cons_self) blank]
    exact ih fun later member => members later (List.mem_cons_of_mem _ member)

theorem loadBlank (blank : Blank cs.name disk) :
    loadCriticalState disk listings cs = { cs with stateVersion := 0, dirty := false } := by
  simp only [loadCriticalState,Replica.all,List.foldl,loadCriticalStateDirectory]
  rw [foldBlank .a { cs with stateVersion := 0 } (fun _ => listedMem) blank,
    foldBlank .b { cs with stateVersion := 0 } (fun _ => listedMem) blank]

end

theorem cleanupInvariant {P : Machine → Prop} (i : Replica)
    (drop : ∀ machine file, P machine → belongs machine.cs.name i file = true →
      (machine.cs.files i).currFile ≠ some file → P (machine.without file))
    (reset : ∀ machine generation, P machine → P (machine.setGeneration i generation)) :
    Triple P (cleanupOldState i) (fun _ => P) P := by
  have looked : Triple P (CrashLogic.state : Op Machine) (fun machine m => machine = m ∧ P m) P := Triple.state
  refine looked.bind fun machine => ?_
  refine Triple.each fun m start => ?_
  obtain ⟨rfl,holds⟩ := start
  cases curr : (machine.cs.files i).currFile with
  | none => exact Triple.pure fun m is => is ▸ holds
  | some file =>
    -- The files to go are those of the replica but the current one, as they were at the start.
    have loop : ∀ names : List Name, (∀ name ∈ names, belongs machine.cs.name i name = true ∧ name ≠ file) →
        Triple (fun m => P m ∧ m.cs = machine.cs) (unlinkAll names) (fun _ m => P m ∧ m.cs = machine.cs) P := by
      intro names
      induction names with
      | nil => exact fun _ => Triple.pure fun _ => id
      | cons name rest ih =>
        intro going
        obtain ⟨ours,other⟩ := going name List.mem_cons_self
        have gone : Triple (fun m => P m ∧ m.cs = machine.cs) (unlink name)
            (fun _ m => P m ∧ m.cs = machine.cs) P := by
          refine (Triple.answer fun m both => both.1).bind fun _ => Triple.change ?_
          rintro m ⟨kept,same⟩
          refine ⟨drop m name kept (by rw [same]; exact ours) ?_,same⟩
          rw [same, curr]
          exact fun is => other (Option.some.inj is).symm
        exact gone.bind fun _ => ih fun later member => going later (List.mem_cons_of_mem _ member)
    have asked : Triple (fun m => m = machine) (answer : Op Answer) (fun _ m => m = machine) P :=
      Triple.answer fun m is => is ▸ holds
    refine asked.bind fun given => ?_
    have untouched : Triple (fun m => m = machine) (pure () : Op Unit) (fun _ => P) P :=
      Triple.pure fun m is => is ▸ holds
    cases given with
    | order names =>
      dsimp only
      split
      · have swept := loop (names.filter fun name => belongs machine.cs.name i name && name ≠ file).reverse
          (fun name member => by simpa using (List.mem_filter.mp (List.mem_reverse.mp member)).2)
        refine (swept.weaken ?_ (fun _ _ => id) (fun _ => id)).bind fun _ =>
          Triple.change fun m both => reset m 0 both.1
        rintro m rfl
        exact ⟨holds,rfl⟩
      · exact untouched
    | created suffix => exact untouched
    | wrote count => exact untouched
    | failed => exact untouched
    | done => exact untouched

theorem initInvariant {P : Machine → Prop} {name : Name} {listings : Replica → Listing} {machine : Machine}
    (script : List Answer)
    (start : P ⟨machine.disk,loadCriticalState machine.disk listings (freshState name)⟩)
    (cleanup : ∀ i, Triple P (cleanupOldState i) (fun _ => P) P) :
    P (criticalStateInit name listings machine script).1 := by
  have load : Triple (fun m => m = machine)
      (change fun m => { m with cs := loadCriticalState m.disk listings (freshState name) } : Op Unit)
      (fun _ => P) P := by
    refine Triple.change ?_
    rintro m rfl
    exact start
  obtain ⟨ends,cuts⟩ := (load.bind fun _ => (cleanup .a).bind fun _ => cleanup .b) machine script rfl
  cases out : (criticalStateInit name listings machine script).2 with
  | none => exact cuts out
  | some pair => exact ends pair.1 pair.2 out

def Remembers (version : BitVec 64) (state : Bytes) (machine : Machine) : Prop :=
  machine.cs.stateVersion = version ∧ machine.cs.state = state

theorem cleanupRemembers {version : BitVec 64} {state : Bytes} (i : Replica) :
    Triple (Remembers version state) (cleanupOldState i) (fun _ => Remembers version state)
      (Remembers version state) :=
  cleanupInvariant i (fun _ _ kept _ _ => kept) fun _ _ kept => kept

def SavedFiles (name : Name) (disk : List File) (version : BitVec 64) (state : Bytes) : Prop :=
  ∀ file ∈ disk, ∀ i, belongs name i file.name = true → ∃ v s, s.length = criticalStateMaxLen ∧
    file.bytes = (List.replicate numCopies (entryBytes v s)).flatten ∧ Below version state (v,s)

theorem memChunks {bytes chunk : Bytes} :
    chunk ∈ chunks bytes ↔ ∃ k < bytes.length / entryLen, chunkAt bytes k = chunk := by
  simp [chunks]

section
variable {name : Name} {disk : List File} {version : BitVec 64} {state : Bytes} {corrupt : File → Bytes}

theorem savedBelow (saved : SavedFiles name disk version state) : BelowDisk name disk version state := by
  intro file member i ours entry inside
  obtain ⟨v,s,full,bytes,below⟩ := saved file member i ours
  rw [bytes, ← List.append_nil (List.flatten _), fileEntriesCopies v full numCopies (by decide)] at inside
  rw [List.eq_of_mem_replicate inside]
  exact below

theorem savedCopies {bytes : Bytes} (saved : ∃ v s, s.length = criticalStateMaxLen ∧
      bytes = (List.replicate numCopies (entryBytes v s)).flatten ∧ Below version state (v,s))
    (newest : (version,state) ∈ fileEntries bytes) {k : Nat} (small : k < numCopies) :
    k < bytes.length / entryLen ∧ parseEntry (chunkAt bytes k) = some (version,state) := by
  obtain ⟨v,s,full,copies,-⟩ := saved
  have split : bytes = (List.replicate numCopies (entryBytes v s)).flatten ++ [] := by
    rw [copies, List.append_nil]
  have all : chunks bytes = List.replicate numCopies (entryBytes v s) := by
    rw [split, chunksCopies (entryLength full) numCopies (by decide)]
  rw [split, fileEntriesCopies v full numCopies (by decide)] at newest
  have count : bytes.length / entryLen = numCopies := by
    have sizes := congrArg List.length all
    simpa [chunks] using sizes
  have inside : chunkAt bytes k ∈ chunks bytes := memChunks.mpr ⟨k,by rw [count]; exact small,rfl⟩
  rw [all] at inside
  rw [List.eq_of_mem_replicate inside, parseEntryBytes v full, List.eq_of_mem_replicate newest, count]
  exact ⟨small,rfl⟩

theorem corruptedEntries {old new : Bytes} (length : new.length = old.length)
    (free : ∀ k, chunkAt new k ≠ chunkAt old k → parseEntry (chunkAt new k) = none)
    {entry : BitVec 64 × Bytes} (member : entry ∈ fileEntries new) : entry ∈ fileEntries old := by
  rw [mem_fileEntries] at member ⊢
  obtain ⟨chunk,inside,parsed⟩ := member
  obtain ⟨k,small,rfl⟩ := memChunks.mp inside
  have same : chunkAt new k = chunkAt old k := by
    by_contra changed
    rw [free k changed] at parsed
    cases parsed
  rw [length] at small
  exact ⟨chunkAt old k,memChunks.mpr ⟨k,small,rfl⟩,by rw [← same]; exact parsed⟩

end

/- The state files of some saves, corrupted at any bytes that leave one copy of the newest
entry; the directory listed in any order, for each replica its own. -/
theorem redundantRecovery (name : Name) (disk : List File) (version : BitVec 64) (state : Bytes)
    (positive : 0 < version) (saved : SavedFiles name disk version state) (corrupt : File → Bytes)
    (length : ∀ file ∈ disk, (corrupt file).length = file.bytes.length)
    (free : ∀ file ∈ disk, ∀ k, chunkAt (corrupt file) k ≠ chunkAt file.bytes k →
      parseEntry (chunkAt (corrupt file) k) = none)
    (intact : ∃ file ∈ disk, ∃ i, belongs name i file.name = true ∧
      (version,state) ∈ fileEntries file.bytes ∧
      ∃ k < numCopies, chunkAt (corrupt file) k = chunkAt file.bytes k) (orders : Replica → List File)
    (perm : ∀ i, (orders i).Perm (disk.map fun file => ⟨file.name,corrupt file⟩)) (cs : CSState)
    (script : List Answer) :
    Remembers version state (criticalStateInit name (fun i => some ((orders i).map fun file => (file,.whole)))
      ⟨disk.map fun file => ⟨file.name,corrupt file⟩,cs⟩ script).1 := by
  have below : BelowDisk name (disk.map fun file => ⟨file.name,corrupt file⟩) version state := by
    intro new member i ours entry inside
    obtain ⟨file,here,rfl⟩ := List.mem_map.mp member
    exact savedBelow saved file here i ours entry (corruptedEntries (length file here) (free file here) inside)
  have reads : ReadsNewest name (disk.map fun file => ⟨file.name,corrupt file⟩)
      (fun i => some ((orders i).map fun file => (file,.whole))) version state := by
    obtain ⟨file,here,i,ours,newest,k,small,same⟩ := intact
    refine ⟨i,(⟨file.name,corrupt file⟩,.whole),?_,ours,rfl,?_⟩
    · have names : ((orders i).map fun file => (file,Scan.whole)).map Prod.fst = orders i := by
        rw [List.map_map]
        exact List.map_id _
      rw [listed, names, if_pos (List.isPerm_iff.mpr (perm i)), List.mem_map]
      exact ⟨_,(perm i).mem_iff.mpr (List.mem_map_of_mem here),rfl⟩
    · obtain ⟨chunk,parsed⟩ := savedCopies (saved file here i ours) newest small
      refine mem_fileEntries.mpr ⟨chunkAt (corrupt file) k,memChunks.mpr ⟨k,?_,rfl⟩,by rw [same]; exact parsed⟩
      rw [length file here]
      exact chunk
  have loaded : Loaded _ version state (loadCriticalState _ _ (freshState name)) :=
    loadNewest positive below reads
  exact initInvariant script ⟨loaded.newest,loaded.held⟩ cleanupRemembers

def zeros : Bytes := List.replicate criticalStateMaxLen 0

def savedTwice : List File :=
  Replica.all.map fun i =>
    ⟨csPrefix ['p'] i ++ ['x'],(List.replicate numCopies (entryBytes 1 zeros)).flatten⟩

def flipped (file : File) : Bytes :=
  if belongs ['p'] .a file.name then 0xFF :: file.bytes.tail else file.bytes

theorem flippedLater (bytes : Bytes) (k : Nat) : chunkAt (0xFF :: bytes.tail) (k + 1) = chunkAt bytes (k + 1) := by
  rw [chunkAt, chunkAt, Nat.mul_add, show entryLen * k + entryLen * 1 = entryLen * k + 255 + 1 by
    simp [entryLen], List.drop_succ_cons, List.drop_tail]

theorem zerosLength : zeros.length = criticalStateMaxLen := List.length_replicate

theorem savedTwiceBytes : ∀ file ∈ savedTwice,
    file.bytes = (List.replicate numCopies (entryBytes 1 zeros)).flatten := by
  intro file inside
  obtain ⟨i,-,rfl⟩ := List.mem_map.mp inside
  rfl

theorem savedTwiceFiles : SavedFiles ['p'] savedTwice 1 zeros := by
  intro file inside i _
  exact ⟨1,zeros,zerosLength,savedTwiceBytes file inside,BitVec.le_refl _,fun _ => rfl⟩

theorem flippedLength : ∀ file ∈ savedTwice, (flipped file).length = file.bytes.length := by
  intro file inside
  have size : file.bytes.length = numCopies * entryLen := by
    rw [savedTwiceBytes file inside, List.length_flatten, List.map_replicate, List.sum_replicate_nat,
      entryLength zerosLength]
  have some : 0 < file.bytes.length := by rw [size]; decide
  unfold flipped
  split
  · rw [List.length_cons, List.length_tail, Nat.sub_add_cancel some]
  · rfl

theorem flippedFirst :
    parseEntry (chunkAt (0xFF :: (List.replicate numCopies (entryBytes 1 zeros)).flatten.tail) 0) = none := by
  decide +kernel

theorem flippedFree : ∀ file ∈ savedTwice, ∀ k, chunkAt (flipped file) k ≠ chunkAt file.bytes k →
    parseEntry (chunkAt (flipped file) k) = none := by
  intro file inside k changed
  unfold flipped at changed ⊢
  split at changed
  · rw [if_pos (by assumption)]
    cases k with
    | zero => rw [savedTwiceBytes file inside, flippedFirst]
    | succ k => exact absurd (flippedLater file.bytes k) changed
  · exact absurd rfl changed

theorem flippedIntact : ∃ file ∈ savedTwice, ∃ i, belongs ['p'] i file.name = true ∧
    (1,zeros) ∈ fileEntries file.bytes ∧ ∃ k < numCopies, chunkAt (flipped file) k = chunkAt file.bytes k := by
  let file : File := ⟨csPrefix ['p'] .a ++ ['x'],(List.replicate numCopies (entryBytes 1 zeros)).flatten⟩
  have first : belongs ['p'] .a file.name = true := rfl
  refine ⟨file,List.mem_map_of_mem (by decide),.a,first,?_,1,by decide,?_⟩
  · rw [← List.append_nil file.bytes, fileEntriesCopies 1 zerosLength numCopies (by decide)]
    exact List.mem_replicate.mpr ⟨by decide,rfl⟩
  · rw [flipped, if_pos first]
    exact flippedLater file.bytes 0

theorem redundantRecoveryFlipped :
    Remembers 1 zeros (criticalStateInit ['p']
      (fun _ => some ((savedTwice.map fun file => ⟨file.name,flipped file⟩).map fun file => (file,.whole)))
      ⟨savedTwice.map fun file => ⟨file.name,flipped file⟩,freshState ['p']⟩ []).1 := by
  have recovered := redundantRecovery ['p'] savedTwice 1 zeros (by decide) savedTwiceFiles flipped flippedLength
    flippedFree flippedIntact fun _ => savedTwice.map fun file => ⟨file.name,flipped file⟩
  exact recovered (fun _ => List.Perm.refl _) (freshState ['p']) []

end LibProc.CriticalLoad
