import LibProc.CriticalLoad

/-! Runs of saves, reads, starts and deaths. What a save, a cleanup and a start keep is said
by triples whose second postcondition is the state of the directory at a crash: the newest
version there is that of the last commit or of the save under way. It follows that a start
finds one of the two, as long as each load reads a file of the newest version through. -/
namespace LibProc.CriticalRuns
open XdrBytes Critical CriticalLoad CrashLogic Runs

theorem csPrefixInjective {name : Name} {i j : Replica} (same : csPrefix name i = csPrefix name j) : i = j := by
  have letters : ['.',i.letter,'.'] = ['.',j.letter,'.'] := List.append_cancel_left same
  cases i <;> cases j <;> first | rfl | exact absurd letters (by decide)

theorem belongsUnique {name file : Name} {i j : Replica} (first : belongs name i file = true)
    (second : belongs name j file = true) : i = j := by
  simp only [belongs,Bool.and_eq_true,List.isPrefixOf_iff_prefix] at first second
  refine csPrefixInjective (List.IsPrefix.eq_of_length ?_ (by simp [csPrefix]) : csPrefix name i = csPrefix name j)
  exact List.prefix_of_prefix_length_le first.2 second.2 (by simp [csPrefix])

theorem belongsCreated (name : Name) (i : Replica) (suffix : Name) :
    belongs name i (csPrefix name i ++ suffix) = true := by
  simp [belongs,dotName,csPrefix]

def core (cs : CSState) : BitVec 64 × Bytes × Bytes := (cs.stateVersion,cs.state,cs.md5)

structure Newest (name : Name) (disk : List File) (version : BitVec 64) (state : Bytes) : Prop where
  below : BelowDisk name disk version state
  copy : ∃ file ∈ disk, ∃ i, belongs name i file.name = true ∧ (version,state) ∈ fileEntries file.bytes

structure Anchored (source : File → Prop) (name : Name) (version : BitVec 64) (state : Bytes) (kept : BitVec 64 × Bytes × Bytes)
    (machine : Machine) : Prop where
  named : machine.cs.name = name
  below : BelowDisk name machine.disk version state
  hit : ∃ i, Hit machine.disk version state i machine.cs
  memory : core machine.cs = kept
  only : ∀ f ∈ machine.disk, source f

structure Void (name : Name) (kept : BitVec 64 × Bytes × Bytes) (machine : Machine) : Prop where
  named : machine.cs.name = name
  blank : Blank name machine.disk
  memory : core machine.cs = kept

section
variable {source : File → Prop} {name : Name} {version : BitVec 64} {state : Bytes}
  {kept : BitVec 64 × Bytes × Bytes}

theorem Anchored.newest {machine : Machine} (anchored : Anchored source name version state kept machine) :
    Newest name machine.disk version state := by
  obtain ⟨i,file,inside,-,ours,copy⟩ := anchored.hit
  rw [anchored.named] at ours
  exact ⟨anchored.below,file,inside,i,ours,copy⟩

theorem withoutMem {machine : Machine} {file : Name} {f : File} (inside : f ∈ (machine.without file).disk) :
    f ∈ machine.disk := (List.mem_filter.mp inside).1

theorem generationCurr (machine : Machine) (i j : Replica) (generation : Nat) :
    ((machine.setGeneration i generation).cs.files j).currFile = (machine.cs.files j).currFile := by
  simp only [Machine.setGeneration]
  by_cases here : j = i
  · subst here
    rw [Function.update_self]
  · rw [Function.update_of_ne here]

theorem Anchored.generation {machine : Machine} (anchored : Anchored source name version state kept machine)
    (i : Replica) (generation : Nat) : Anchored source name version state kept (machine.setGeneration i generation) := by
  refine ⟨anchored.named,anchored.below,?_,anchored.memory,anchored.only⟩
  obtain ⟨j,file,inside,curr,ours⟩ := anchored.hit
  exact ⟨j,file,inside,(generationCurr machine i j generation).trans curr,ours⟩

theorem cleanupAnchored (i : Replica) :
    Triple (Anchored source name version state kept) (cleanupOldState i) (fun _ => Anchored source name version state kept)
      (Anchored source name version state kept) := by
  refine cleanupInvariant i ?_ fun machine generation anchored => anchored.generation i generation
  intro machine file anchored ours other
  refine ⟨anchored.named,fun f inside => anchored.below f (withoutMem inside),?_,anchored.memory,
    fun f inside => anchored.only f (withoutMem inside)⟩
  obtain ⟨j,held,inside,curr,belong,copy⟩ := anchored.hit
  refine ⟨j,held,List.mem_filter.mpr ⟨inside,?_⟩,curr,belong,copy⟩
  -- The file that goes is of this replica and not its current one, so it is not the one held.
  refine decide_eq_true fun same => other ?_
  rw [← same] at ours ⊢
  rw [belongsUnique ours belong]
  exact curr

theorem cleanupVoid (i : Replica) :
    Triple (Void name kept) (cleanupOldState i) (fun _ => Void name kept) (Void name kept) := by
  refine cleanupInvariant i ?_ fun machine generation void => ⟨void.named,void.blank,void.memory⟩
  intro machine file void _ _
  exact ⟨void.named,fun f inside => void.blank f (withoutMem inside),void.memory⟩

def filled (machine : Machine) (file : Name) (ent : Bytes) (copies : Nat) (tail : Bytes) : Machine :=
  { machine with disk := machine.disk ++ [⟨file,(List.replicate copies ent).flatten ++ tail⟩] }

section
variable {machine : Machine} {file : Name} {ent : Bytes}

theorem filledAppend (fresh : file ∉ machine.names) (copies : Nat) (bytes : Bytes) :
    (filled machine file ent copies []).append file bytes = filled machine file ent copies bytes := by
  have others : machine.disk.map (fun f => if f.name = file then { f with bytes := f.bytes ++ bytes } else f) =
      machine.disk := by
    refine (List.map_congr_left fun f inside => if_neg ?_).trans (List.map_id _)
    exact fun same => fresh (List.mem_map.mpr ⟨f,inside,same⟩)
  simp only [Machine.append,filled,List.map_append,others,List.map_cons,List.map_nil,if_true,List.append_nil]

theorem filledWhole (copies : Nat) : filled machine file ent copies ent = filled machine file ent (copies + 1) [] := by
  simp only [filled,List.replicate_succ',List.flatten_append,List.flatten_cons,List.flatten_nil,List.append_nil]

theorem filledUnlinked (fresh : file ∉ machine.names) (copies : Nat) (tail : Bytes) :
    (filled machine file ent copies tail).without file = machine := by
  have others : machine.disk.filter (fun f => decide (f.name ≠ file)) = machine.disk := by
    refine List.filter_eq_self.mpr fun f inside => decide_eq_true ?_
    exact fun same => fresh (List.mem_map.mpr ⟨f,inside,same⟩)
  simp only [Machine.without,filled,List.filter_append,others]
  simp

def PartlyFilled (machine : Machine) (file : Name) (ent : Bytes) (m : Machine) : Prop :=
  ∃ some tail, tail.length < entryLen ∧ m = filled machine file ent some tail

theorem writeCopiesSpec (fresh : file ∉ machine.names) (size : ent.length = entryLen) (left copies : Nat) :
    Triple (fun m => m = filled machine file ent copies []) (writeCopies file ent left)
      (fun all m => (all = true ∧ m = filled machine file ent (copies + left) []) ∨
        all = false ∧ PartlyFilled machine file ent m)
      (fun m => ∃ some, m = filled machine file ent some []) := by
  induction left generalizing copies with
  | zero => exact Triple.pure fun m is => .inl ⟨rfl,is⟩
  | succ left ih =>
    have stopped : Triple (fun m => m = filled machine file ent copies []) (pure false : Op Bool)
        (fun all m => (all = true ∧ m = filled machine file ent (copies + (left + 1)) []) ∨
          all = false ∧ PartlyFilled machine file ent m)
        (fun m => ∃ some, m = filled machine file ent some []) :=
      Triple.pure fun m is => .inr ⟨rfl,copies,[],by decide,is⟩
    have asked : Triple (fun m => m = filled machine file ent copies []) (answer : Op Answer)
        (fun _ m => m = filled machine file ent copies []) (fun m => ∃ some, m = filled machine file ent some []) :=
      Triple.answer fun m is => ⟨copies,is⟩
    refine asked.bind fun given => ?_
    cases given with
    | wrote count =>
      have written : Triple (fun m => m = filled machine file ent copies [])
          (change fun m => m.append file (ent.take count) : Op Unit)
          (fun _ m => m = filled machine file ent copies (ent.take count))
          (fun m => ∃ some, m = filled machine file ent some []) := by
        refine Triple.change ?_
        rintro m rfl
        exact filledAppend fresh copies (ent.take count)
      refine written.bind fun _ => ?_
      by_cases whole : ent.length ≤ count
      · simp only [if_pos whole,List.take_of_length_le whole,filledWhole]
        rw [show copies + (left + 1) = copies + 1 + left by omega]
        exact ih (copies + 1)
      · simp only [if_neg whole]
        refine Triple.pure fun m is => .inr ⟨rfl,copies,ent.take count,?_,is⟩
        rw [List.length_take]
        omega
    | created suffix => exact stopped
    | order names => exact stopped
    | failed => exact stopped
    | done => exact stopped

/- Where a write of this version may be cut: the version is there, or the directory is as
before but for files without a whole entry. -/
def Fate (name : Name) (version : BitVec 64) (state : Bytes) (before : Machine) (m : Machine) : Prop :=
  Newest name m.disk version state ∨
    ∃ extra : List File, (∀ f ∈ extra, fileEntries f.bytes = []) ∧ m.disk = before.disk ++ extra

section
variable {i : Replica} (below : BelowDisk name machine.disk version state)
  (full : state.length = criticalStateMaxLen)

section
include below full

theorem filledBelow (copies : Nat) {tail : Bytes} (short : tail.length < entryLen) :
    BelowDisk name (filled machine file (entryBytes version state) copies tail).disk version state := by
  intro f inside j ours entry member
  rcases List.mem_append.mp inside with old | new
  · exact below f old j ours entry member
  · rw [List.mem_singleton.mp new, fileEntriesCopies version full copies short] at member
    rw [List.eq_of_mem_replicate member]
    exact ⟨BitVec.le_refl _,fun _ => rfl⟩

theorem filledNewest (ours : belongs name i file = true) (copies : Nat) {tail : Bytes}
    (short : tail.length < entryLen) :
    Newest name (filled machine file (entryBytes version state) (copies + 1) tail).disk version state := by
  refine ⟨filledBelow below full (copies + 1) short,_,List.mem_append_right _ (List.mem_singleton.mpr rfl),i,ours,?_⟩
  rw [fileEntriesCopies version full (copies + 1) short]
  exact List.mem_cons_self

theorem filledFate (ours : belongs name i file = true) (copies : Nat) {tail : Bytes}
    (short : tail.length < entryLen) :
    Fate name version state machine (filled machine file (entryBytes version state) copies tail) := by
  cases copies with
  | zero =>
    refine .inr ⟨_,?_,rfl⟩
    intro f inside
    rw [List.mem_singleton.mp inside, fileEntriesCopies version full 0 short]
    rfl
  | succ copies => exact .inl (filledNewest below full ours copies short)

end

variable (old : ∀ f ∈ machine.disk, source f)
  (new : ∀ file, source ⟨file,(List.replicate numCopies (entryBytes version state)).flatten ++ []⟩)
include below full old new

theorem publishAnchored (named : machine.cs.name = name) (ours : belongs name i file = true) :
    Anchored source name version state (core machine.cs)
      ((filled machine file (entryBytes version state) numCopies []).publish i file) := by
  have none : ([] : Bytes).length < entryLen := by decide
  refine ⟨named,filledBelow below full numCopies none,⟨i,_,List.mem_append_right _ (List.mem_singleton.mpr rfl),?_,?_,?_⟩,rfl,?_⟩
  · refine (generationCurr _ _ _ _).trans ?_
    exact setCurrSelf _ _ _
  · show belongs machine.cs.name i file = true
    rw [named]
    exact ours
  · rw [fileEntriesCopies version full numCopies none]
    exact List.mem_cons_self
  · intro f inside
    rcases List.mem_append.mp inside with before | written
    · exact old f before
    · rw [List.mem_singleton.mp written]
      exact new file

theorem finishFileSpec (named : machine.cs.name = name) (ours : belongs name i file = true) :
    Triple (fun m => m = filled machine file (entryBytes version state) numCopies []) (finishFile i file)
      (fun result m => 0 ≤ result ∧ Anchored source name version state (core machine.cs) m)
      (Fate name version state machine) := by
  have published : Triple (fun m => m = filled machine file (entryBytes version state) numCopies [])
      (change fun m => m.publish i file : Op Unit)
      (fun _ => Anchored source name version state (core machine.cs)) (Fate name version state machine) := by
    refine Triple.change ?_
    rintro m rfl
    exact publishAnchored below full old new named ours
  have looked : Triple (Anchored source name version state (core machine.cs)) (CrashLogic.state : Op Machine)
      (fun _ => Anchored source name version state (core machine.cs)) (Fate name version state machine) :=
    Triple.state.weaken (fun _ => id) (fun _ _ both => both.2) (fun _ => id)
  have finished : ∀ m : Machine, Anchored source name version state (core machine.cs) m →
      (0 : Int) ≤ 0 ∧ Anchored source name version state (core machine.cs) m :=
    fun m anchored => ⟨le_refl 0,anchored⟩
  refine published.bind fun _ => looked.bind fun now => ?_
  split
  · have cleaned : Triple (Anchored source name version state (core machine.cs)) (cleanupOldState i)
        (fun _ => Anchored source name version state (core machine.cs)) (Fate name version state machine) :=
      (cleanupAnchored i).weaken (fun _ => id) (fun _ _ => id) (fun m anchored => .inl anchored.newest)
    exact cleaned.bind fun _ => Triple.pure finished
  · exact Triple.pure finished

omit old new in
theorem dropFileSpec (ours : belongs name i file = true) (fresh : file ∉ machine.names) :
    Triple (PartlyFilled machine file (entryBytes version state)) (unlink file) (fun _ m => m = machine)
      (Fate name version state machine) := by
  have asked : Triple (PartlyFilled machine file (entryBytes version state)) (answer : Op Answer)
      (fun _ => PartlyFilled machine file (entryBytes version state)) (Fate name version state machine) := by
    refine Triple.answer ?_
    rintro m ⟨some,tail,short,rfl⟩
    exact filledFate below full ours some short
  refine asked.bind fun _ => Triple.change ?_
  rintro m ⟨some,tail,-,rfl⟩
  exact filledUnlinked fresh some tail

theorem fillFileSpec (named : machine.cs.name = name) (ours : belongs name i file = true)
    (fresh : file ∉ machine.names) :
    Triple (fun m => m = machine) (fillFile i file (entryBytes version state))
      (fun result m => (result < 0 ∧ m = machine) ∨
        0 ≤ result ∧ Anchored source name version state (core machine.cs) m)
      (Fate name version state machine) := by
  have created : Triple (fun m => m = machine) (change fun m => m.create file : Op Unit)
      (fun _ m => m = filled machine file (entryBytes version state) 0 []) (Fate name version state machine) := by
    refine Triple.change ?_
    rintro m rfl
    rfl
  have written := (writeCopiesSpec fresh (entryLength full) numCopies 0).weaken (fun _ => id) (fun _ _ => id)
    (fun m cut => show Fate name version state machine m by
      obtain ⟨some,rfl⟩ := cut
      exact filledFate below full ours some (by decide))
  refine created.bind fun _ => written.bind fun all => ?_
  cases all with
  | true =>
    refine (finishFileSpec below full old new named ours).weaken ?_ (fun _ _ => .inr) (fun _ => id)
    rintro m (⟨-,whole⟩ | ⟨none,-⟩)
    · rw [whole, Nat.zero_add]
    · cases none
  | false =>
    have dropped : Triple (fun m => (false = true ∧ m = filled machine file (entryBytes version state) (0 + numCopies) []) ∨
        false = false ∧ PartlyFilled machine file (entryBytes version state) m) (unlink file) (fun _ m => m = machine)
        (Fate name version state machine) := by
      refine (dropFileSpec below full ours fresh).weaken ?_ (fun _ _ => id) (fun _ => id)
      rintro m (⟨none,-⟩ | ⟨-,part⟩)
      · cases none
      · exact part
    exact dropped.bind fun _ => Triple.pure fun m is => .inl ⟨by decide,is⟩

omit below full old new in
theorem fateStart (before : Machine) : Fate name version state before before :=
  .inr ⟨[],nofun,(List.append_nil _).symm⟩

theorem writeCsFileSpec (named : machine.cs.name = name) (i : Replica) :
    Triple (fun m => m = machine) (writeCsFile i (entryBytes version state))
      (fun result m => (result < 0 ∧ m = machine) ∨
        0 ≤ result ∧ Anchored source name version state (core machine.cs) m)
      (Fate name version state machine) := by
  have refused : Triple (fun m => m = machine) (pure (-1) : Op Int)
      (fun result m => (result < 0 ∧ m = machine) ∨
        0 ≤ result ∧ Anchored source name version state (core machine.cs) m)
      (Fate name version state machine) := Triple.pure fun m is => .inl ⟨by decide,is⟩
  have asked : Triple (fun m => m = machine) (answer : Op Answer) (fun _ m => m = machine)
      (Fate name version state machine) := Triple.answer fun m is => by
      subst is
      exact fateStart m
  refine asked.bind fun given => ?_
  cases given with
  | created suffix =>
    have looked : Triple (fun m => m = machine) (CrashLogic.state : Op Machine)
        (fun now m => now = m ∧ m = machine) (Fate name version state machine) := Triple.state
    refine looked.bind fun now => Triple.each fun m both => ?_
    obtain ⟨rfl,rfl⟩ := both
    dsimp only
    split
    · exact refused
    · rename_i fresh
      refine fillFileSpec below full old new named ?_ fresh
      rw [named]
      exact belongsCreated name i suffix
  | wrote count => exact refused
  | order names => exact refused
  | failed => exact refused
  | done => exact refused

end
end

theorem newestExtra {disk extra : List File} (newest : Newest name disk version state)
    (blank : ∀ f ∈ extra, fileEntries f.bytes = []) : Newest name (disk ++ extra) version state := by
  obtain ⟨below,file,inside,i,ours,copy⟩ := newest
  refine ⟨?_,file,List.mem_append_left _ inside,i,ours,copy⟩
  intro f member j belong entry held
  rcases List.mem_append.mp member with old | new
  · exact below f old j belong entry held
  · rw [blank f new] at held
    cases held

theorem secondReplicaSpec (full : state.length = criticalStateMaxLen)
    (new : ∀ file, source ⟨file,(List.replicate numCopies (entryBytes version state)).flatten ++ []⟩)
    {before : Machine} :
    Triple (Anchored source name version state kept) (writeReplicas (entryBytes version state) [.b])
      (fun all m => all = true ∧ Anchored source name version state kept m) (Fate name version state before) := by
  have second : Triple (Anchored source name version state kept) (writeCsFile .b (entryBytes version state))
      (fun _ => Anchored source name version state kept) (Fate name version state before) := by
    refine Triple.each fun machine anchored => ?_
    refine (writeCsFileSpec anchored.below full anchored.only new anchored.named .b).weaken (fun _ => id) ?_ ?_
    · rintro result m (⟨-,rfl⟩ | ⟨-,again⟩)
      · exact anchored
      · rw [anchored.memory] at again
        exact again
    · rintro m (newest | ⟨extra,blank,disk⟩)
      · exact .inl newest
      · refine .inl ?_
        rw [disk]
        exact newestExtra anchored.newest blank
  have ended : Triple (Anchored source name version state kept) (pure true : Op Bool)
      (fun all m => all = true ∧ Anchored source name version state kept m) (Fate name version state before) :=
    Triple.pure fun m anchored => ⟨rfl,anchored⟩
  have dirtied : Triple (Anchored source name version state kept)
      (change fun m => { m with cs := { m.cs with dirty := true } } : Op Unit)
      (fun _ => Anchored source name version state kept) (Fate name version state before) :=
    Triple.change fun m anchored =>
      ⟨anchored.named,anchored.below,anchored.hit,anchored.memory,anchored.only⟩
  refine second.bind fun result => ?_
  split
  · exact dirtied.bind fun _ => ended
  · exact ended

theorem writeReplicasSpec {machine : Machine} (below : BelowDisk name machine.disk version state)
    (full : state.length = criticalStateMaxLen) (old : ∀ f ∈ machine.disk, source f)
    (new : ∀ file, source ⟨file,(List.replicate numCopies (entryBytes version state)).flatten ++ []⟩)
    (named : machine.cs.name = name) :
    Triple (fun m => m = machine) (writeReplicas (entryBytes version state) Replica.all)
      (fun all m => (all = false ∧ m = machine) ∨ all = true ∧ Anchored source name version state (core machine.cs) m)
      (Fate name version state machine) := by
  refine (writeCsFileSpec below full old new named .a).bind fun result => ?_
  by_cases bad : result < 0
  · rw [if_pos bad]
    refine Triple.pure ?_
    rintro m (⟨-,is⟩ | ⟨good,-⟩)
    · exact .inl ⟨rfl,is⟩
    · omega
  · rw [if_neg bad]
    refine (secondReplicaSpec full new).weaken ?_ (fun all m both => .inr both) (fun _ => id)
    rintro m (⟨negative,-⟩ | ⟨-,anchored⟩)
    · exact absurd negative bad
    · exact anchored

def bumped (machine : Machine) : Machine :=
  { machine with cs := { machine.cs with stateVersion := machine.cs.stateVersion + 1 } }

/- A save returns a negative value and has changed nothing but the counter, or it returns
its length and its state is the newest, in memory and on disk. -/
structure SaveSpec (source : File → Prop) (name : Name) (body : Bytes) (before : Machine) (result : Int) (m : Machine) : Prop where
  refused : result < 0 → m = before ∨ m = bumped before
  stored : 0 ≤ result → Anchored source name (before.cs.stateVersion + 1) body
    (before.cs.stateVersion + 1,body,Md5.md5 body) m

theorem storeStateSpec {machine : Machine} {body : Bytes} {len : Int}
    (below : BelowDisk name machine.disk (machine.cs.stateVersion + 1) body)
    (full : body.length = criticalStateMaxLen) (old : ∀ f ∈ machine.disk, source f)
    (new : ∀ file, source
      ⟨file,(List.replicate numCopies (entryBytes (machine.cs.stateVersion + 1) body)).flatten ++ []⟩)
    (named : machine.cs.name = name) (positive : 0 < len) :
    Triple (fun m => m = machine) (storeState body len) (SaveSpec source name body machine)
      (Fate name (machine.cs.stateVersion + 1) body machine) := by
  have counted : Triple (fun m => m = machine) (change bumped : Op Unit) (fun _ m => m = bumped machine)
      (Fate name (machine.cs.stateVersion + 1) body machine) := by
    refine Triple.change ?_
    rintro m rfl
    rfl
  have looked : Triple (fun m => m = bumped machine) (CrashLogic.state : Op Machine)
      (fun now m => now = m ∧ m = bumped machine) (Fate name (machine.cs.stateVersion + 1) body machine) :=
    Triple.state
  refine counted.bind fun _ => looked.bind fun now => Triple.each fun m both => ?_
  obtain ⟨rfl,rfl⟩ := both
  have written : Triple (fun m => m = bumped machine)
      (writeReplicas (entryBytes (machine.cs.stateVersion + 1) body) Replica.all) _ _ :=
    writeReplicasSpec below full old new named
  refine written.bind fun all => ?_
  cases all with
  | true =>
    have cached : Triple (fun m => (true = false ∧ m = bumped machine) ∨ true = true ∧
          Anchored source name (machine.cs.stateVersion + 1) body (core (bumped machine).cs) m)
        (change fun m => { m with cs := m.cs.cache body } : Op Unit)
        (fun _ => Anchored source name (machine.cs.stateVersion + 1) body
          (machine.cs.stateVersion + 1,body,Md5.md5 body))
        (Fate name (machine.cs.stateVersion + 1) body machine) := by
      refine Triple.change ?_
      rintro m (⟨none,-⟩ | ⟨-,anchored⟩)
      · cases none
      · have version : m.cs.stateVersion = machine.cs.stateVersion + 1 := congrArg Prod.fst anchored.memory
        refine ⟨anchored.named,anchored.below,anchored.hit,?_,anchored.only⟩
        simp only [core,CSState.cache,version]
    refine cached.bind fun _ => Triple.pure fun m anchored => ⟨fun negative => ?_,fun _ => anchored⟩
    omega
  | false =>
    refine Triple.pure ?_
    rintro m (⟨-,is⟩ | ⟨none,-⟩)
    · exact ⟨fun _ => .inr is,fun positive => absurd positive (by decide)⟩
    · cases none

def Survives (name : Name) (committed underway : Option Bytes) (disk : List File) : Prop :=
  (committed = none ∧ Blank name disk) ∨
    ∃ version state, 0 < version ∧ Newest name disk version state ∧
      (committed = some state ∨ underway = some state)

inductive Live (source : File → Prop) (name : Name) : Option Bytes → Machine → Prop where
  | void {machine : Machine} (void : Void name (core machine.cs) machine) (only : ∀ f ∈ machine.disk, source f) :
      Live source name none machine
  | stored {machine : Machine} {version count : BitVec 64} {state : Bytes} (positive : 0 < version)
      (counted : version ≤ count) (anchored : Anchored source name version state (count,state,Md5.md5 state) machine) :
      Live source name (some state) machine

theorem Live.survives {committed : Option Bytes} {machine : Machine} (live : Live source name committed machine) :
    Survives name committed none machine.disk := by
  cases live with
  | void void only => exact .inl ⟨rfl,void.blank⟩
  | stored positive counted anchored => exact .inr ⟨_,_,positive,anchored.newest,.inl rfl⟩

theorem Live.named {committed : Option Bytes} {machine : Machine} (live : Live source name committed machine) :
    machine.cs.name = name := by
  cases live with
  | void void only => exact void.named
  | stored positive counted anchored => exact anchored.named

theorem bumpLess {count : BitVec 64} (fits : count + 1 ≠ 0) : count < count + 1 := by
  bv_omega

theorem bumpPositive {count : BitVec 64} (fits : count + 1 ≠ 0) : 0 < count + 1 := by
  have bump := bumpLess fits
  bv_omega

theorem Live.below {committed : Option Bytes} {machine : Machine} (live : Live source name committed machine)
    (fits : machine.cs.stateVersion + 1 ≠ 0) (body : Bytes) :
    BelowDisk name machine.disk (machine.cs.stateVersion + 1) body := by
  intro file inside i ours entry member
  cases live with
  | void void only =>
    rw [void.blank file inside i ours] at member
    cases member
  | @stored machine version count state positive counted anchored =>
    have old := (anchored.below file inside i ours entry member).1
    have memory : machine.cs.stateVersion = count := congrArg Prod.fst anchored.memory
    have less : entry.1 < machine.cs.stateVersion + 1 := by
      rw [memory] at fits ⊢
      have bump := bumpLess fits
      bv_omega
    exact ⟨BitVec.le_of_lt less,fun same => absurd (same ▸ less) (BitVec.lt_irrefl _)⟩

theorem Live.bumped {committed : Option Bytes} {machine : Machine} (live : Live source name committed machine)
    (fits : machine.cs.stateVersion + 1 ≠ 0) : Live source name committed (bumped machine) := by
  cases live with
  | void void only => exact .void ⟨void.named,void.blank,rfl⟩ only
  | @stored machine version count state positive counted anchored =>
    have memory : machine.cs.stateVersion = count := congrArg Prod.fst anchored.memory
    have rest : (machine.cs.state,machine.cs.md5) = (state,Md5.md5 state) := congrArg Prod.snd anchored.memory
    rw [memory] at fits
    have later : version ≤ count + 1 := by
      have bump := bumpLess fits
      bv_omega
    refine .stored positive later ⟨anchored.named,anchored.below,anchored.hit,?_,anchored.only⟩
    show (machine.cs.stateVersion + 1,machine.cs.state,machine.cs.md5) = _
    rw [memory, rest]

theorem Live.cutSave {committed : Option Bytes} {machine m : Machine} (live : Live source name committed machine)
    (fits : machine.cs.stateVersion + 1 ≠ 0) {body : Bytes}
    (fate : Fate name (machine.cs.stateVersion + 1) body machine m) : Survives name committed (some body) m.disk := by
  rcases fate with newest | ⟨extra,blank,disk⟩
  · exact .inr ⟨_,_,bumpPositive fits,newest,.inr rfl⟩
  · rw [disk]
    rcases live.survives with ⟨none,empty⟩ | ⟨version,state,positive,newest,which⟩
    · refine .inl ⟨none,?_⟩
      intro f member i ours
      rcases List.mem_append.mp member with old | new
      · exact empty f old i ours
      · exact blank f new
    · rcases which with old | impossible
      · exact .inr ⟨version,state,positive,newestExtra newest blank,.inl old⟩
      · cases impossible

theorem Live.only {committed : Option Bytes} {machine : Machine} (live : Live source name committed machine) :
    ∀ f ∈ machine.disk, source f := by
  cases live with
  | void void only => exact only
  | stored positive counted anchored => exact anchored.only

theorem zeroFilledLength {data : Bytes} {len : Int} (small : len ≤ criticalStateMaxLen) :
    (zeroFilled (data.take len.toNat)).length = criticalStateMaxLen := by
  have short : (data.take len.toNat).length ≤ criticalStateMaxLen := by
    rw [List.length_take]
    omega
  rw [zeroFilled, List.length_append, List.length_replicate]
  omega

theorem saveSpec {committed : Option Bytes} {machine : Machine} (live : Live source name committed machine)
    (takes : ∀ file version state, state.length = criticalStateMaxLen →
      source ⟨file,(List.replicate numCopies (entryBytes version state)).flatten ++ []⟩)
    (fits : machine.cs.stateVersion + 1 ≠ 0) (handle : Handle) (data : Bytes) (len : Int) :
    Triple (fun m => m = machine) (procSaveCriticalState handle data len)
      (SaveSpec source name (zeroFilled (data.take len.toNat)) machine)
      (Fate name (machine.cs.stateVersion + 1) (zeroFilled (data.take len.toNat)) machine) := by
  have refused : ∀ result : Int, result < 0 → Triple (fun m => m = machine) (pure result : Op Int)
      (SaveSpec source name (zeroFilled (data.take len.toNat)) machine)
      (Fate name (machine.cs.stateVersion + 1) (zeroFilled (data.take len.toNat)) machine) := by
    intro result negative
    refine Triple.pure fun m is => ⟨fun _ => .inl is,fun positive => ?_⟩
    omega
  unfold procSaveCriticalState
  by_cases bad : len ≤ 0 ∨ criticalStateMaxLen < len
  · rw [if_pos bad]
    exact refused (-1) (by decide)
  · rw [if_neg bad]
    cases handle with
    | null => exact refused (-2) (by decide)
    | notSat => exact refused (-10) (by decide)
    | proc =>
      have full : (zeroFilled (data.take len.toNat)).length = criticalStateMaxLen := zeroFilledLength (by omega)
      exact storeStateSpec (live.below fits _) full live.only (fun file => takes file _ _ full) live.named
        (by omega)

def copied (state : Bytes) (len : Nat) : Int × Bytes :=
  (((min len criticalStateMaxLen : Nat) : Int),state.take (min len criticalStateMaxLen))

section
variable {disk : List File} {first second : Replica → Listing} {cs : CSState}

theorem readClean (clean : cs.dirty = false) (digest : Md5.md5 cs.state = cs.md5) (len : Nat) :
    procReadCriticalState .proc disk first second cs len = (cs,copied cs.state len) := by
  simp only [procReadCriticalState,clean,digest,Bool.false_eq_true,if_false,ne_eq,not_true]
  rfl

theorem readDirty (dirty : cs.dirty = true) (len : Nat) :
    procReadCriticalState .proc disk first second cs len =
      procReadCriticalState .proc disk first second (loadCriticalState disk first cs) len := by
  have clean : (loadCriticalState disk first cs).dirty = false := rfl
  simp only [procReadCriticalState,dirty,clean,Bool.false_eq_true,if_false,if_true]

theorem readBlank (blank : Blank cs.name disk) (len : Nat) :
    (procReadCriticalState .proc disk first second cs len).2 =
        (if Md5.md5 cs.state = cs.md5 then copied cs.state len else (-4,[])) ∧
      (procReadCriticalState .proc disk first second cs len).1.name = cs.name := by
  have clean : ∀ now : CSState, now.name = cs.name → now.state = cs.state → now.md5 = cs.md5 → now.dirty = false →
      (procReadCriticalState .proc disk first second now len).2 =
          (if Md5.md5 cs.state = cs.md5 then copied cs.state len else (-4,[])) ∧
        (procReadCriticalState .proc disk first second now len).1.name = cs.name := by
    intro now named state digest quiet
    by_cases good : Md5.md5 cs.state = cs.md5
    · rw [readClean quiet (by rw [state, digest]; exact good), if_pos good, state]
      exact ⟨rfl,named⟩
    · have loaded : loadCriticalState disk second now = { now with stateVersion := 0, dirty := false } :=
        loadBlank (by rw [named]; exact blank)
      have bad : Md5.md5 now.state ≠ now.md5 := by
        rw [state, digest]
        exact good
      simp only [procReadCriticalState,quiet,Bool.false_eq_true,if_false,if_pos bad,loaded,if_neg good,true_and]
      exact named
  cases dirty : cs.dirty with
  | false => exact clean cs rfl rfl rfl dirty
  | true =>
    have loaded : loadCriticalState disk first cs = { cs with stateVersion := 0, dirty := false } := loadBlank blank
    rw [readDirty dirty, loaded]
    exact clean _ rfl rfl rfl rfl

theorem readStored {machine : Machine} {version count : BitVec 64} (positive : 0 < version)
    (counted : version ≤ count) (anchored : Anchored source name version state (count,state,Md5.md5 state) machine)
    (reads : machine.cs.dirty = true → ReadsNewest name machine.disk first version state) (len : Nat) :
    (procReadCriticalState .proc machine.disk first second machine.cs len).2 = copied state len ∧
      Live source name (some state)
        { machine with cs := (procReadCriticalState .proc machine.disk first second machine.cs len).1 } := by
  have rest : (machine.cs.state,machine.cs.md5) = (state,Md5.md5 state) := congrArg Prod.snd anchored.memory
  have held : machine.cs.state = state := congrArg Prod.fst rest
  have digest : machine.cs.md5 = Md5.md5 state := congrArg Prod.snd rest
  cases dirty : machine.cs.dirty with
  | false =>
    rw [readClean dirty (by rw [held, digest]), held]
    exact ⟨rfl,.stored positive counted anchored⟩
  | true =>
    have named := anchored.named
    have loaded : Loaded machine.disk version state (loadCriticalState machine.disk first machine.cs) :=
      loadNewest positive (by rw [named]; exact anchored.below) (by rw [named]; exact reads dirty)
    rw [readDirty dirty, readClean loaded.clean (by rw [loaded.held, loaded.digest]), loaded.held]
    refine ⟨rfl,.stored positive (BitVec.le_refl version) ⟨?_,anchored.below,loaded.hit,?_,anchored.only⟩⟩
    · exact loadName.trans named
    · simp only [core,loaded.newest,loaded.held,loaded.digest]

theorem faultlessReads {version : BitVec 64} (newest : Newest name disk version state) :
    ReadsNewest name disk (faultless disk) version state := by
  obtain ⟨-,file,inside,i,ours,copy⟩ := newest
  refine ⟨i,(file,.whole),?_,ours,rfl,copy⟩
  have names : (disk.map fun file => (file,Scan.whole)).map Prod.fst = disk := by
    rw [List.map_map]
    exact List.map_id _
  rw [faultless, listed, names, if_pos (List.isPerm_iff.mpr (List.Perm.refl _))]
  exact List.mem_map_of_mem inside

end

theorem storedRead {machine : Machine} (live : Live source name (some state) machine) :
    whatReadReturns machine.disk machine.cs = copied state criticalStateMaxLen := by
  cases live with
  | stored positive counted anchored =>
    exact (readStored positive counted anchored (fun _ => faultlessReads anchored.newest) _).1

theorem refusedRead {committed : Option Bytes} {machine : Machine} (live : Live source name committed machine)
    (fits : machine.cs.stateVersion + 1 ≠ 0) :
    whatReadReturns (bumped machine).disk (bumped machine).cs = whatReadReturns machine.disk machine.cs := by
  cases committed with
  | none =>
    cases live with
    | void void only =>
      have blank : Blank machine.cs.name machine.disk := by
        rw [void.named]
        exact void.blank
      have after : Blank (bumped machine).cs.name machine.disk := blank
      exact (readBlank after _).1.trans (readBlank blank _).1.symm
  | some state => exact (storedRead (live.bumped fits)).trans (storedRead live).symm

end

/- What the run owes its user. -/
def holds : Observation → Prop
  | .saved result before after => result < 0 → after = before
  | .readBack handle result bytes len committed =>
    handle = .proc → ∀ state, committed = some state → (result,bytes) = copied state len
  | .recovered state committed underway =>
    state = committed.getD (List.replicate criticalStateMaxLen 0) ∨ underway = some state

def stateEntries (name : Name) (disk : List File) : List (BitVec 64 × Bytes) :=
  disk.flatMap fun file => if Replica.all.any (belongs name · file.name) then fileEntries file.bytes else []

def loadsNewest (name : Name) (disk : List File) (listings : Replica → Listing) : Bool :=
  (stateEntries name disk).all fun newest =>
    ((stateEntries name disk).any fun other => decide (newest.1 < other.1)) ||
      Replica.all.any fun i => (listed disk (listings i)).any fun entry =>
        belongs name i entry.1.name && decide (entry.2 = .whole) && (fileEntries entry.1.bytes).contains newest

theorem loadsNewestReads {name : Name} {disk : List File} {listings : Replica → Listing} {version : BitVec 64}
    {state : Bytes} (loads : loadsNewest name disk listings = true) (newest : Newest name disk version state) :
    ReadsNewest name disk listings version state := by
  have here : (version,state) ∈ stateEntries name disk := by
    obtain ⟨file,inside,i,ours,copy⟩ := newest.copy
    have either : Replica.all.any (belongs name · file.name) = true :=
      List.any_eq_true.mpr ⟨i,by cases i <;> simp [Replica.all],ours⟩
    refine List.mem_flatMap.mpr ⟨file,inside,?_⟩
    rw [if_pos either]
    exact copy
  have served := List.all_eq_true.mp loads _ here
  rw [Bool.or_eq_true] at served
  rcases served with beaten | read
  · obtain ⟨other,member,higher⟩ := List.any_eq_true.mp beaten
    obtain ⟨file,inside,held⟩ := List.mem_flatMap.mp member
    split at held
    · rename_i either
      obtain ⟨i,-,ours⟩ := List.any_eq_true.mp either
      have under := (newest.below file inside i ours other held).1
      exact absurd (of_decide_eq_true higher) (BitVec.not_lt.mpr under)
    · cases held
  · obtain ⟨i,-,found⟩ := List.any_eq_true.mp read
    obtain ⟨entry,member,all⟩ := List.any_eq_true.mp found
    simp only [Bool.and_eq_true,decide_eq_true_eq,List.contains_iff_mem] at all
    exact ⟨i,entry,member,all.1.1,all.1.2,all.2⟩

def wellServed (name : Name) (world : World) : Event → Bool
  | .boot listings _ => loadsNewest name world.disk listings
  | .save _ _ _ _ => world.cs.all fun cs => decide (cs.stateVersion + 1 ≠ 0)
  | .read _ first _ _ => world.cs.all fun cs => !cs.dirty || loadsNewest name world.disk first
  | _ => true

def anyFile : File → Prop := fun _ => True

structure Inv (name : Name) (world : World) : Prop where
  down : world.cs = none → Survives name world.committed world.underway world.disk
  up : ∀ cs, world.cs = some cs → Live anyFile name world.committed ⟨world.disk,cs⟩
  good : ∀ observation ∈ world.log, holds observation

section
variable {name : Name} {world : World}

theorem Inv.save (inv : Inv name world) {cs : CSState} (alive : world.cs = some cs)
    (fits : cs.stateVersion + 1 ≠ 0) (handle : Handle) (data : Bytes) (len : Int) (script : List Answer) :
    Inv name (save world cs handle data len script) := by
  have live := inv.up cs alive
  obtain ⟨ends,cuts⟩ := saveSpec live (fun _ _ _ _ => trivial) fits handle data len ⟨world.disk,cs⟩ script rfl
  cases out : (procSaveCriticalState handle data len ⟨world.disk,cs⟩ script).2 with
  | none =>
    have died : Critical.save world cs handle data len script = { world with
        disk := (procSaveCriticalState handle data len ⟨world.disk,cs⟩ script).1.disk
        cs := none, underway := some (zeroFilled (data.take len.toNat)) } := by
      simp only [Critical.save,out]
    rw [died]
    exact ⟨fun _ => live.cutSave fits (cuts out),nofun,inv.good⟩
  | some pair =>
    obtain ⟨result,rest⟩ := pair
    have spec := ends result rest out
    have ended : Critical.save world cs handle data len script = { world with
        disk := (procSaveCriticalState handle data len ⟨world.disk,cs⟩ script).1.disk
        cs := some (procSaveCriticalState handle data len ⟨world.disk,cs⟩ script).1.cs
        committed := if 0 ≤ result then some (zeroFilled (data.take len.toNat)) else world.committed
        log := .saved result (whatReadReturns world.disk cs)
          (whatReadReturns (procSaveCriticalState handle data len ⟨world.disk,cs⟩ script).1.disk
            (procSaveCriticalState handle data len ⟨world.disk,cs⟩ script).1.cs) :: world.log } := by
      simp only [Critical.save,out]
    rw [ended]
    by_cases good : 0 ≤ result
    · have anchored := spec.stored good
      refine ⟨nofun,?_,List.forall_mem_cons.mpr ⟨fun negative => absurd good (by omega),inv.good⟩⟩
      intro now is
      cases is
      rw [if_pos good]
      exact .stored (bumpPositive fits) (BitVec.le_refl _) anchored
    · have refused := spec.refused (by omega)
      refine ⟨nofun,?_,List.forall_mem_cons.mpr ⟨fun _ => ?_,inv.good⟩⟩
      · intro now is
        cases is
        rw [if_neg good]
        rcases refused with same | bump
        · rw [same]
          exact live
        · rw [bump]
          exact live.bumped fits
      · rcases refused with same | bump
        · rw [same]
        · rw [bump]
          exact refusedRead live fits

theorem Inv.read (inv : Inv name world) {cs : CSState} (alive : world.cs = some cs) {first : Replica → Listing}
    (loads : cs.dirty = true → loadsNewest name world.disk first = true) (handle : Handle)
    (second : Replica → Listing) (len : Nat) : Inv name (read world cs handle first second len) := by
  have live := inv.up cs alive
  have spec : Live anyFile name world.committed
        ⟨world.disk,(procReadCriticalState handle world.disk first second cs len).1⟩ ∧
      (handle = .proc → ∀ state, world.committed = some state →
        (procReadCriticalState handle world.disk first second cs len).2 = copied state len) := by
    cases handle with
    | null => exact ⟨live,nofun⟩
    | notSat => exact ⟨live,nofun⟩
    | proc =>
      cases before : world.committed with
      | none =>
        rw [before] at live
        cases live with
        | void void only =>
          have blank : Blank cs.name world.disk := by
            rw [show cs.name = name from void.named]
            exact void.blank
          refine ⟨.void ⟨?_,void.blank,rfl⟩ only,nofun⟩
          exact (readBlank blank len).2.trans void.named
      | some state =>
        rw [before] at live
        cases live with
        | stored positive counted anchored =>
          obtain ⟨copy,again⟩ := readStored positive counted anchored
            (fun dirty => loadsNewestReads (loads dirty) anchored.newest) len
          exact ⟨again,fun _ other same => Option.some.inj same ▸ copy⟩
  refine ⟨nofun,?_,?_⟩
  · intro now is
    cases is
    exact spec.1
  · intro observation member
    rcases List.mem_cons.mp member with rfl | old
    · exact spec.2
    · exact inv.good observation old

theorem initSpec {disk : List File} {committed underway : Option Bytes} (down : Survives name committed underway disk)
    {listings : Replica → Listing} (loads : loadsNewest name disk listings = true) (script : List Answer) :
    (committed = none ∧
        Void name (core (freshState name)) (criticalStateInit name listings ⟨disk,freshState name⟩ script).1) ∨
      ∃ version state, 0 < version ∧ (committed = some state ∨ underway = some state) ∧
        Anchored anyFile name version state (version,state,Md5.md5 state)
          (criticalStateInit name listings ⟨disk,freshState name⟩ script).1 := by
  rcases down with ⟨none,blank⟩ | ⟨version,state,positive,newest,which⟩
  · have loaded : loadCriticalState disk listings (freshState name) =
        { freshState name with stateVersion := 0, dirty := false } := loadBlank blank
    refine .inl ⟨none,initInvariant script ⟨loadName,blank,?_⟩ fun i => cleanupVoid i⟩
    rw [loaded]
    rfl
  · have loaded : Loaded disk version state (loadCriticalState disk listings (freshState name)) :=
      loadNewest positive newest.below (loadsNewestReads loads newest)
    refine .inr ⟨version,state,positive,which,?_⟩
    refine initInvariant script ⟨loadName,newest.below,loaded.hit,?_,fun _ _ => trivial⟩
      fun i => cleanupAnchored i
    simp only [core,loaded.newest,loaded.held,loaded.digest]

theorem Inv.boot (inv : Inv name world) (dead : world.cs = none) {listings : Replica → Listing}
    (loads : loadsNewest name world.disk listings = true) (script : List Answer) :
    Inv name (boot name world listings script) := by
  have spec := initSpec (inv.down dead) loads script
  cases out : (criticalStateInit name listings ⟨world.disk,freshState name⟩ script).2 with
  | none =>
    have died : Critical.boot name world listings script = { world with
        disk := (criticalStateInit name listings ⟨world.disk,freshState name⟩ script).1.disk } := by
      simp only [Critical.boot,out]
    rw [died]
    refine ⟨fun _ => ?_,fun cs is => ?_,inv.good⟩
    · rcases spec with ⟨none,void⟩ | ⟨version,state,positive,which,anchored⟩
      · exact .inl ⟨none,void.blank⟩
      · exact .inr ⟨version,state,positive,anchored.newest,which⟩
    · rw [show world.cs = some cs from is] at dead
      cases dead
  | some pair =>
    generalize started : (criticalStateInit name listings ⟨world.disk,freshState name⟩ script).1 = machine at spec
    have ended : Critical.boot name world listings script =
        { disk := machine.disk, cs := some machine.cs
          committed := if machine.cs.stateVersion = 0 then world.committed else some machine.cs.state
          underway := none
          log := .recovered machine.cs.state world.committed world.underway :: world.log } := by
      simp only [Critical.boot,out,started]
    rw [ended]
    rcases spec with ⟨none,void⟩ | ⟨version,state,positive,which,anchored⟩
    · have memory : (machine.cs.stateVersion,machine.cs.state,machine.cs.md5) = core (freshState name) := void.memory
      have zero : machine.cs.stateVersion = 0 := congrArg Prod.fst memory
      have empty : machine.cs.state = List.replicate criticalStateMaxLen 0 :=
        congrArg (fun kept => kept.2.1) memory
      refine ⟨nofun,?_,?_⟩
      · intro cs is
        cases is
        rw [if_pos zero, none]
        exact .void ⟨void.named,void.blank,rfl⟩ fun _ _ => trivial
      · intro observation member
        rcases List.mem_cons.mp member with rfl | old
        · rw [holds, none]
          exact .inl empty
        · exact inv.good observation old
    · have memory : (machine.cs.stateVersion,machine.cs.state,machine.cs.md5) = (version,state,Md5.md5 state) :=
        anchored.memory
      have newest : machine.cs.stateVersion = version := congrArg Prod.fst memory
      have held : machine.cs.state = state := congrArg (fun kept => kept.2.1) memory
      have nonzero : machine.cs.stateVersion ≠ 0 := by
        rw [newest]
        bv_omega
      refine ⟨nofun,?_,?_⟩
      · intro cs is
        cases is
        rw [if_neg nonzero, held]
        exact .stored positive (BitVec.le_refl version) anchored
      · intro observation member
        rcases List.mem_cons.mp member with rfl | old
        · rw [holds, held]
          rcases which with committed | underway
          · rw [committed]
            exact .inl rfl
          · exact .inr underway
        · exact inv.good observation old

theorem shutdownSurvives {committed : Option Bytes} {machine : Machine} (live : Live anyFile name committed machine)
    (script : List Answer) : Survives name committed none (criticalStateCleanup machine script).1.disk := by
  have both : ∀ P : Machine → Prop, P machine → (∀ i, Triple P (cleanupOldState i) (fun _ => P) P) →
      P (criticalStateCleanup machine script).1 := by
    intro P start cleanup
    obtain ⟨ends,cuts⟩ := ((cleanup .a).bind fun _ => cleanup .b) machine script start
    cases out : (criticalStateCleanup machine script).2 with
    | none => exact cuts out
    | some pair => exact ends pair.1 pair.2 out
  cases live with
  | void void only => exact .inl ⟨rfl,(both _ void fun i => cleanupVoid i).blank⟩
  | stored positive counted anchored =>
    exact .inr ⟨_,_,positive,(both _ anchored fun i => cleanupAnchored i).newest,.inl rfl⟩

theorem Survives.forget {committed underway : Option Bytes} {disk : List File}
    (survives : Survives name committed none disk) : Survives name committed underway disk := by
  rcases survives with blank | ⟨version,state,positive,newest,which⟩
  · exact .inl blank
  · rcases which with committed | impossible
    · exact .inr ⟨version,state,positive,newest,.inl committed⟩
    · cases impossible

theorem Inv.step (inv : Inv name world) {event : Event} (served : wellServed name world event = true) :
    Inv name (step name world event) := by
  cases alive : world.cs with
  | none =>
    cases event with
    | boot listings script =>
      simp only [Critical.step,alive]
      exact inv.boot alive served script
    | save handle data len script => simp only [Critical.step,alive]; exact inv
    | read handle first second len => simp only [Critical.step,alive]; exact inv
    | shutdown script => simp only [Critical.step,alive]; exact inv
    | crash => simp only [Critical.step,alive]; exact inv
  | some cs =>
    have live := inv.up cs alive
    cases event with
    | boot listings script => simp only [Critical.step,alive]; exact inv
    | save handle data len script =>
      simp only [Critical.step,alive]
      refine inv.save alive ?_ handle data len script
      simpa [wellServed,alive] using served
    | read handle first second len =>
      simp only [Critical.step,alive]
      refine inv.read alive (fun dirty => ?_) handle second len
      simpa [wellServed,alive,dirty] using served
    | shutdown script =>
      simp only [Critical.step,alive]
      exact ⟨fun _ => (shutdownSurvives live script).forget,nofun,inv.good⟩
    | crash =>
      simp only [Critical.step,alive]
      exact ⟨fun _ => live.survives.forget,nofun,inv.good⟩

end

def Whole (name : Name) (file : File) : Prop :=
  ∀ i, belongs name i file.name = true → ∃ version state, state.length = criticalStateMaxLen ∧
    file.bytes = (List.replicate numCopies (entryBytes version state)).flatten

def Succeeds (world : World) (event : Event) : Prop :=
  ∃ cs handle data len script, world.cs = some cs ∧ event = .save handle data len script ∧
    cs.stateVersion + 1 ≠ 0 ∧
    ∃ result rest, (procSaveCriticalState handle data len ⟨world.disk,cs⟩ script).2 = some (result,rest) ∧ 0 ≤ result

def started (name : Name) (disk : List File) : World := ⟨disk,some (freshState name),none,none,[]⟩

def LivesWhole (name : Name) (world : World) : Prop :=
  ∀ cs, world.cs = some cs → Live (Whole name) name world.committed ⟨world.disk,cs⟩

theorem wholeStep {name : Name} {world : World} {event : Event} (succeeds : Succeeds world event)
    (live : LivesWhole name world) : LivesWhole name (step name world event) := by
  obtain ⟨cs,handle,data,len,script,alive,rfl,fits,result,rest,out,good⟩ := succeeds
  have takes : ∀ (file : Name) (version : BitVec 64) (state : Bytes), state.length = criticalStateMaxLen →
      Whole name ⟨file,(List.replicate numCopies (entryBytes version state)).flatten ++ []⟩ :=
    fun file version state full i _ => ⟨version,state,full,List.append_nil _⟩
  have stored := ((saveSpec (live cs alive) takes fits handle data len ⟨world.disk,cs⟩ script rfl).1 result rest
    out).stored good
  intro now is
  simp only [Critical.step,alive,Critical.save,out] at is ⊢
  cases is
  rw [if_pos good]
  exact .stored (bumpPositive fits) (BitVec.le_refl _) stored

/- The directory that successful saves leave: whole files, and none newer than the last. -/
theorem savesLeaveFiles {name : Name} {disk : List File}
    (others : ∀ file ∈ disk, ∀ i, belongs name i file.name = false) {events : List Event}
    (all : Along (step name) Succeeds (started name disk) events) {cs : CSState} {state : Bytes}
    (alive : (exec (step name) (started name disk) events).cs = some cs)
    (last : (exec (step name) (started name disk) events).committed = some state) :
    ∃ version, 0 < version ∧ Newest name (exec (step name) (started name disk) events).disk version state ∧
      SavedFiles name (exec (step name) (started name disk) events).disk version state := by
  have start : LivesWhole name (started name disk) := by
    intro cs is
    cases is
    have apart : ∀ file ∈ disk, ∀ i, belongs name i file.name = true → False := fun file inside i ours => by
      rw [others file inside i] at ours
      cases ours
    exact .void ⟨rfl,fun file inside i ours => (apart file inside i ours).elim,rfl⟩
      fun file inside i ours => (apart file inside i ours).elim
  have whole : LivesWhole name (exec (step name) (started name disk) events) :=
    Along.invariant (fun _ _ inv succeeds => wholeStep succeeds inv) start all
  have live := whole cs alive
  rw [last] at live
  cases live with
  | @stored machine version count state positive counted anchored =>
    refine ⟨version,positive,anchored.newest,?_⟩
    intro file inside i ours
    obtain ⟨v,s,full,bytes⟩ := anchored.only file inside i ours
    refine ⟨v,s,full,bytes,anchored.below file inside i ours (v,s) ?_⟩
    rw [bytes, ← List.append_nil (List.flatten _), fileEntriesCopies v full numCopies (by decide)]
    exact List.mem_cons_self

def untouched (disk : List File) : World := ⟨disk,none,none,none,[]⟩

/- Every history, every crash between two file operations, any number of rounds. -/
theorem crashAtomic (name : Name) (disk : List File)
    (others : ∀ file ∈ disk, ∀ i, belongs name i file.name = false) (events : List Event)
    (served : Along (step name) (fun world event => wellServed name world event = true) (untouched disk) events) :
    ∀ observation ∈ (exec (step name) (untouched disk) events).log, holds observation := by
  have start : Inv name (untouched disk) := by
    refine ⟨fun _ => .inl ⟨rfl,?_⟩,nofun,nofun⟩
    intro file inside i ours
    rw [others file inside i] at ours
    cases ours
  have inv : Inv name (exec (step name) (untouched disk) events) :=
    Along.invariant (fun _ _ inv good => inv.step good) start served
  exact inv.good

def processName : Name := ['p']
def copies : List Answer := List.replicate numCopies (.wrote entryLen)
def noFiles : Replica → Listing := fun _ => some []

def tornSave : List Event :=
  let torn := [.boot noFiles [],.save .proc [1,2,3] 3 [.created ['x'],.wrote entryLen]]
  torn ++ [.boot (faultless (exec (step processName) (untouched []) torn).disk) [.failed],
    .read .proc noFiles noFiles 4]

theorem crashAtomicTorn :
    ∃ observation ∈ (exec (step processName) (untouched []) tornSave).log,
      observation = .recovered (zeroFilled [1,2,3]) none (some (zeroFilled [1,2,3])) ∧ holds observation := by
  have found : .recovered (zeroFilled [1,2,3]) none (some (zeroFilled [1,2,3])) ∈
      (exec (step processName) (untouched []) tornSave).log := by
    decide +kernel
  exact ⟨_,found,rfl,crashAtomic processName [] nofun tornSave (by decide +kernel) _ found⟩

def twoSaves : List Event :=
  [.boot noFiles [],.save .proc [1,2,3] 3 ([.created ['x']] ++ copies ++ [.created ['x']] ++ copies),
    .save .proc [9,8] 2 ([.created ['y']] ++ copies ++ [.failed])]

def onlyB (disk : List File) : Replica → Listing
  | .a => none
  | .b => faultless disk .b

def staleRead : List Event :=
  twoSaves ++ [.read .proc (onlyB (exec (step processName) (untouched []) twoSaves).disk) noFiles 4]

theorem staleReadBreaks :
    ¬∀ observation ∈ (exec (step processName) (untouched []) staleRead).log, holds observation := by
  intro all
  have last : (exec (step processName) (untouched []) staleRead).log.head? =
      some (.readBack .proc 4 [1,2,3,0] 4 (some (zeroFilled [9,8]))) := by
    decide +kernel
  have wrong := all _ (List.mem_of_head? last) rfl (zeroFilled [9,8]) rfl
  revert wrong
  decide

end LibProc.CriticalRuns
