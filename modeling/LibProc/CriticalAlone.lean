import LibProc.CriticalShared

/-! A process that nobody comes between. Its tasks, taken one by one, follow the operations of critical.c as they
are in one piece: for every script there are turns to the directory and the memory that the operation ends with,
or that it leaves where the process dies. So what is proved of processes that share a directory is about the
same code. -/
namespace LibProc.CriticalShared
open Critical CrashLogic CriticalLoad
open CriticalRuns (untouched)
open Runs (exec execAppend execInvariant)

abbrev Alone := Machine × List Task

def go (s : Alone) (act : Answer × Scan) : Alone :=
  match s.2 with
  | [] => s
  | .exit :: _ => s
  | task :: rest =>
    let out := turn s.1 act.1 act.2 rest task
    (out.machine,out.tasks)

def At (s : Alone) (machine : Machine) : Prop := s.1 = machine

def failedWrite (i : Replica) (machine : Machine) (rest : List Task) : Alone :=
  if i = .a then (machine,[]) else ({ machine with cs := { machine.cs with dirty := true } },rest)

section
variable {machine : Machine} {rest : List Task} {i : Replica} {file : Name} {ent : Bytes}

theorem failWriteIs (effects : List Effect) :
    ((failWrite machine i rest effects).machine,(failWrite machine i rest effects).tasks) = failedWrite i machine rest := by
  unfold failWrite failedWrite
  split <;> rfl

theorem goReaches (s : Alone) (answer : Answer) (scan : Scan) {s' : Alone} (is : go s (answer,scan) = s') : Reaches go s s' :=
  is ▸ Reaches.one s (answer,scan)

theorem unlinkFollows : Follows go At (machine,.unlink file :: rest) machine (unlink file) fun _ after => (after,rest) :=
  .answer rfl fun _ => .last (goReaches _ .done .whole rfl)

theorem unlinkAllFollows (files : List Name) :
    Follows go At (machine,files.map .unlink ++ rest) machine (unlinkAll files) fun _ after => (after,rest) := by
  induction files generalizing machine with
  | nil => exact .pure (.refl _)
  | cons file files ih => exact .bind unlinkFollows fun _ _ => ih

theorem cleanupFollows : Follows go At (machine,.openCleanup i :: rest) machine (cleanupOldState i) fun _ after => (after,rest) := by
  unfold cleanupOldState
  refine .state ?_
  have idle : ∀ answer, turn machine answer .whole rest (.openCleanup i) = ⟨machine,rest,[]⟩ →
      Reaches go (machine,.openCleanup i :: rest) (machine,rest) := fun answer is => goReaches _ answer .whole (by simp only [go,is])
  cases curr : (machine.cs.files i).currFile with
  | none => exact .pure (idle .failed (by simp only [turn,curr]))
  | some file =>
    have failed := idle .failed (by simp only [turn,curr])
    refine .answer rfl fun answer => ?_
    cases answer with
    | order names =>
      dsimp only
      split
      · have opened : Reaches go (machine,.openCleanup i :: rest) (machine,
            (names.filter fun other => belongs machine.cs.name i other && other ≠ file).reverse.map .unlink ++ .cleaned i :: rest) :=
          goReaches _ (.order names) .whole (by simp only [go,turn,curr])
        exact .reach opened (.bind (unlinkAllFollows _) fun _ _ => .last (goReaches _ .done .whole rfl))
      · exact .pure failed
    | _ => exact .pure failed

theorem writeCopiesFollows (left : Nat) : Follows go At (machine,.write i file ent left :: rest) machine (writeCopies file ent left)
    fun done after => (after,(if done then .write i file ent 0 else .undo i file) :: rest) := by
  induction left generalizing machine with
  | zero => exact .pure (.refl _)
  | succ left ih =>
    unfold writeCopies
    refine .answer rfl fun answer => ?_
    cases answer with
    | wrote count =>
      refine .change ?_
      have wrote : Reaches go (machine,.write i file ent (left + 1) :: rest) (machine.append file (ent.take count),
          (if ent.length ≤ count then .write i file ent left else .undo i file) :: rest) := goReaches _ (.wrote count) .whole rfl
      refine .reach wrote ?_
      split
      · exact ih
      · exact .pure (.refl _)
    | _ => exact .pure (goReaches _ .failed .whole rfl)

def wroteFile (i : Replica) (rest : List Task) (result : Int) (after : Machine) : Alone :=
  if result < 0 then failedWrite i after rest else (after,rest)

theorem finishFileFollows : Follows go At (machine,.write i file ent 0 :: rest) machine (finishFile i file) (wroteFile i rest) := by
  have published : Reaches go (machine,.write i file ent 0 :: rest) (machine.publish i file,
      if cleanupInterval < ((machine.publish i file).cs.files i).generation then .openCleanup i :: rest else rest) :=
    goReaches _ .done .whole rfl
  refine .reach published (.change (.state ?_))
  split
  · exact .bind cleanupFollows fun _ _ => .pure (.refl _)
  · exact .pure (.refl _)

theorem undoFollows : Follows go At (machine,.undo i file :: rest) machine (unlink file) fun _ after => failedWrite i after rest :=
  .answer rfl fun _ => .last (goReaches _ .done .whole (failWriteIs _))

theorem fillFileFollows : Follows go At (machine.create file,.write i file ent numCopies :: rest) machine (fillFile i file ent)
    (wroteFile i rest) := by
  refine .change (.bind (writeCopiesFollows numCopies) fun done after => ?_)
  cases done with
  | true => exact finishFileFollows
  | false => exact .bind undoFollows fun _ _ => .pure (.refl _)

theorem writeCsFileFollows : Follows go At (machine,.mkstemp i ent :: rest) machine (writeCsFile i ent) (wroteFile i rest) := by
  unfold writeCsFile
  have failed : Reaches go (machine,.mkstemp i ent :: rest) (failedWrite i machine rest) :=
    goReaches _ .failed .whole (failWriteIs _)
  refine .answer rfl fun answer => ?_
  cases answer with
  | created suffix =>
    refine .state ?_
    dsimp only
    split
    · exact .pure failed
    · rename_i fresh
      have created : Reaches go (machine,.mkstemp i ent :: rest)
          (machine.create (csPrefix machine.cs.name i ++ suffix),.write i (csPrefix machine.cs.name i ++ suffix) ent numCopies :: rest) :=
        goReaches _ (.created suffix) .whole (by simp only [go,turn,if_neg fresh])
      exact .reach created fillFileFollows
  | _ => exact .pure failed

theorem writeReplicasFollows (replicas : List Replica) :
    Follows go At (machine,replicas.map (.mkstemp · ent) ++ rest) machine (writeReplicas ent replicas) fun done after =>
      (after,if done then rest else []) := by
  induction replicas generalizing machine with
  | nil => exact .pure (.refl _)
  | cons i replicas ih =>
    refine .bind writeCsFileFollows fun result after => ?_
    unfold wroteFile failedWrite
    split
    · split
      · exact .pure (.refl _)
      · exact .change ih
    · exact ih

theorem storeStateFollows (machine : Machine) (body : Bytes) (len : Int) :
    Follows go At (⟨machine.disk,(saveTasks machine.cs body).cs⟩,(saveTasks machine.cs body).tasks) machine (storeState body len)
      fun _ after => (after,[]) := by
  refine .change (.state (.bind (writeReplicasFollows Replica.all) fun done after => ?_))
  cases done with
  | true => exact .change (.pure (goReaches _ .done .whole rfl))
  | false => exact .pure (.refl _)

theorem findFile {disk : List File} (nodup : (disk.map File.name).Nodup) {f : File} (inside : f ∈ disk) :
    (disk.find? fun other => other.name = f.name) = some f := by
  induction disk with
  | nil => cases inside
  | cons first disk ih =>
    obtain ⟨fresh,nodup⟩ := List.nodup_cons.mp nodup
    rcases List.mem_cons.mp inside with rfl | later
    · exact List.find?_cons_of_pos (by simp)
    · have other : first.name ≠ f.name := fun same => fresh (same ▸ List.mem_map_of_mem later)
      rw [List.find?_cons_of_neg (by simpa using other)]
      exact ih nodup later

theorem entriesReach {disk : List File} (nodup : (disk.map File.name).Nodup) (cs : CSState) {order : List (File × Scan)}
    (inside : ∀ entry ∈ order, entry.1 ∈ disk) :
    Reaches go (⟨disk,cs⟩,((order.map fun entry => entry.1.name).filter fun file => belongs cs.name i file).map (.entry i) ++ rest)
      (⟨disk,order.foldl (loadEntry i) cs⟩,rest) := by
  induction order generalizing cs with
  | nil => exact .refl _
  | cons entry order ih =>
    have others : ∀ entry ∈ order, entry.1 ∈ disk := fun other member => inside other (List.mem_cons_of_mem _ member)
    cases ours : belongs cs.name i entry.1.name with
    | false =>
      have same : loadEntry i cs entry = cs := by rw [loadEntry, if_neg (by rw [ours]; exact Bool.false_ne_true)]
      rw [List.map_cons, List.filter_cons_of_neg (by rw [ours]; exact Bool.false_ne_true), List.foldl_cons, same]
      exact ih cs others
    | true =>
      have named := (loadEntryFrame i cs entry).1
      have later := ih (loadEntry i cs entry) others
      rw [named] at later
      rw [List.map_cons, List.filter_cons_of_pos ours, List.foldl_cons]
      exact (goReaches _ .done entry.2 (by simp only [List.map_cons,List.cons_append,go,turn,findFile nodup (inside entry List.mem_cons_self)])).trans
        later

theorem directoryReaches {disk : List File} (nodup : (disk.map File.name).Nodup) (listings : Replica → Listing) (cs : CSState)
    (i : Replica) (rest : List Task) :
    Reaches go (⟨disk,cs⟩,.openLoad i :: rest) (⟨disk,loadCriticalStateDirectory disk listings cs i⟩,rest) := by
  have failed : Reaches go (⟨disk,cs⟩,.openLoad i :: rest) (⟨disk,cs⟩,rest) := goReaches _ .failed .whole rfl
  unfold loadCriticalStateDirectory listed
  cases listings i with
  | none => exact failed
  | some order =>
    dsimp only
    split
    · rename_i perm
      have inside : ∀ entry ∈ order, entry.1 ∈ disk := fun entry member =>
        (List.isPerm_iff.mp perm).subset (List.mem_map_of_mem member)
      have opened := goReaches (⟨disk,cs⟩,.openLoad i :: rest) (.order (order.map fun entry => entry.1.name)) .whole rfl
      exact opened.trans (entriesReach nodup cs inside)
    · exact failed

theorem loadReaches {disk : List File} (nodup : (disk.map File.name).Nodup) (listings : Replica → Listing) (cs : CSState)
    (rest : List Task) :
    Reaches go (⟨disk,{ cs with stateVersion := 0 }⟩,loadTasks ++ rest) (⟨disk,loadCriticalState disk listings cs⟩,rest) := by
  have first := directoryReaches nodup listings { cs with stateVersion := 0 } .a (.openLoad .b :: .loaded :: rest)
  have second := directoryReaches nodup listings (loadCriticalStateDirectory disk listings { cs with stateVersion := 0 } .a) .b
    (.loaded :: rest)
  exact (first.trans second).trans (goReaches _ .done .whole rfl)

theorem checkReaches {disk : List File} (nodup : (disk.map File.name).Nodup) (listings : Replica → Listing) (cs : CSState) :
    Reaches go (⟨disk,cs⟩,[.check])
      (⟨disk,if Md5.md5 cs.state ≠ cs.md5 then loadCriticalState disk listings cs else cs⟩,[]) := by
  by_cases same : Md5.md5 cs.state = cs.md5
  · rw [if_neg (not_not.mpr same)]
    exact goReaches _ .done .whole (by simp only [go,turn,if_pos same])
  · rw [if_pos same]
    have again : go (⟨disk,cs⟩,[.check]) (.done,.whole) = (⟨disk,{ cs with stateVersion := 0 }⟩,loadTasks ++ []) := by
      simp only [go,turn,if_neg same]
    exact (goReaches _ .done .whole again).trans (loadReaches nodup listings cs [])

theorem readState (disk : List File) (first second : Replica → Listing) (cs : CSState) (len : Nat) :
    let fresh := if cs.dirty then loadCriticalState disk first cs else cs
    (procReadCriticalState .proc disk first second cs len).1 =
      if Md5.md5 fresh.state ≠ fresh.md5 then loadCriticalState disk second fresh else fresh := by
  intro fresh
  have clean : fresh.dirty = false := by
    change (if cs.dirty = true then loadCriticalState disk first cs else cs).dirty = false
    split
    · rfl
    · rename_i clean
      exact Bool.eq_false_iff.mpr clean
  unfold procReadCriticalState
  change (if fresh.dirty = true then _ else _ : CSState × Int × Bytes).1 = _
  rw [clean, if_neg Bool.false_ne_true]
  dsimp only
  generalize (if Md5.md5 fresh.state ≠ fresh.md5 then loadCriticalState disk second fresh else fresh) = checked
  split <;> rfl

theorem readReaches {disk : List File} (nodup : (disk.map File.name).Nodup) (first second : Replica → Listing) (cs : CSState) (len : Nat) :
    Reaches go (⟨disk,(readTasks cs).cs⟩,(readTasks cs).tasks) (⟨disk,(procReadCriticalState .proc disk first second cs len).1⟩,[]) := by
  rw [readState]
  unfold readTasks
  split
  · exact (loadReaches nodup first cs [.check]).trans (checkReaches nodup second _)
  · exact checkReaches nodup second cs

end

section
variable {P : Type} [DecidableEq P] {names : P → Name} {p : P} {w : Shared P}

def Comes (names : P → Name) (p : P) (w : Shared P) (disk : List File) (proc : Option Proc) : Prop :=
  ∃ acts, (∀ act ∈ acts, act.1 = p) ∧ (exec (step names) w acts).disk = disk ∧
    (exec (step names) w acts).procs = Function.update w.procs p proc

theorem Comes.stays {proc : Option Proc} (is : w.procs p = proc) : Comes names p w w.disk proc :=
  ⟨[],nofun,rfl,by rw [← is, Function.update_eq_self]; rfl⟩

theorem Comes.trans {disk disk' : List File} {proc proc' : Option Proc} (first : Comes names p w disk proc)
    (second : ∀ w' : Shared P, w'.disk = disk → w'.procs p = proc → Comes names p w' disk' proc') : Comes names p w disk' proc' := by
  obtain ⟨acts,own,same,procs⟩ := first
  obtain ⟨more,own',same',procs'⟩ := second (exec (step names) w acts) same (by rw [procs, Function.update_self])
  refine ⟨acts ++ more,fun act member => (List.mem_append.mp member).elim (own act) (own' act),?_,?_⟩
  · rw [execAppend, same']
  · rw [execAppend, procs', procs, Function.update_idem]

theorem Comes.one (act : Act) {disk : List File} {proc : Option Proc} (same : (step names w (p,act)).disk = disk)
    (procs : (step names w (p,act)).procs = Function.update w.procs p proc) : Comes names p w disk proc :=
  ⟨[(p,act)],fun _ member => by rw [List.mem_singleton.mp member],same,procs⟩

theorem Comes.dies {proc : Proc} (runs : w.procs p = some proc) : Comes names p w w.disk none := by
  have crashed : step names w (p,.crash) = w.become p none := by
    unfold step
    rw [runs]
    rcases proc with ⟨cs,_ | ⟨task,rest⟩⟩ <;> rfl
  exact .one .crash (by rw [crashed]; rfl) (by rw [crashed]; rfl)

theorem goTurns (names : P → Name) {cs : CSState} {task : Task} {rest : List Task} (runs : w.procs p = some ⟨cs,task :: rest⟩)
    (live : task ≠ .exit) (act : Answer × Scan) :
    let after := go (⟨w.disk,cs⟩,task :: rest) act
    (step names w (p,.go act.1 act.2)).disk = after.1.disk ∧
      (step names w (p,.go act.1 act.2)).procs = Function.update w.procs p (some ⟨after.1.cs,after.2⟩) := by
  unfold step
  rw [runs]
  cases task with
  | exit => exact absurd rfl live
  | _ => exact ⟨rfl,rfl⟩

theorem comesReaches (names : P → Name) {cs : CSState} {tasks : List Task} (runs : w.procs p = some ⟨cs,tasks⟩) {s : Alone}
    (reaches : Reaches go (⟨w.disk,cs⟩,tasks) s) : Comes names p w s.1.disk (some ⟨s.1.cs,s.2⟩) := by
  obtain ⟨acts,rfl⟩ := reaches
  induction acts generalizing w cs tasks with
  | nil => exact .stays runs
  | cons act acts ih =>
    cases tasks with
    | nil => exact ih runs
    | cons task rest =>
      by_cases exits : task = .exit
      · subst exits
        exact ih runs
      · obtain ⟨same,procs⟩ := goTurns names runs exits act
        refine (Comes.one _ same procs).trans fun w' same runs' => ?_
        have later := ih runs'
        rw [same] at later
        exact later

def ComesOf (names : P → Name) (p : P) (w : Shared P) {α : Type} (ends : α → Machine → Alone) : Machine × Option (α × List Answer) → Prop
  | (after,some (a,_)) => Comes names p w (ends a after).1.disk (some ⟨(ends a after).1.cs,(ends a after).2⟩)
  | (after,none) => Comes names p w after.disk none

theorem comesFollows (names : P → Name) {α : Type} {cs : CSState} {tasks : List Task} (runs : w.procs p = some ⟨cs,tasks⟩)
    {machine : Machine} {prog : Op α} {ends : α → Machine → Alone} (follows : Follows go At (⟨w.disk,cs⟩,tasks) machine prog ends)
    (script : List Answer) : ComesOf names p w ends (prog machine script) := by
  have ended := follows script
  cases out : prog machine script with
  | mk after result =>
    rw [out] at ended
    cases result with
    | some pair => exact comesReaches names runs ended
    | none =>
      obtain ⟨s,reaches,rfl⟩ := ended
      refine (comesReaches names runs reaches).trans fun w' same runs' => ?_
      rw [← same]
      exact .dies runs'

def idle (cs : Option CSState) : Option Proc := cs.map fun cs => ⟨cs,[]⟩

theorem initFollows {disk : List File} (nodup : (disk.map File.name).Nodup) (name : Name) (listings : Replica → Listing) :
    Follows go At (⟨disk,freshState name⟩,loadTasks ++ cleanupTasks) ⟨disk,freshState name⟩ (criticalStateInit name listings)
      fun _ after => (after,[]) :=
  .reach (loadReaches nodup listings (freshState name) cleanupTasks) (.change (.bind cleanupFollows fun _ _ => cleanupFollows))

theorem exitFollows (machine : Machine) : Follows go At (machine,cleanupTasks ++ [.exit]) machine criticalStateCleanup
    fun _ after => (after,[.exit]) :=
  .bind cleanupFollows fun _ _ => cleanupFollows

theorem startComes {α : Type} (act : Act) {proc : Proc} (started : step names w (p,act) = w.become p (some proc)) {machine : Machine}
    {prog : Op α} {ends : α → Machine → Alone} (follows : Follows go At (⟨w.disk,proc.cs⟩,proc.tasks) machine prog ends)
    (script : List Answer) : ComesOf names p w ends (prog machine script) := by
  have begins : Comes names p w w.disk (some proc) := .one act (by rw [started]; rfl) (by rw [started]; rfl)
  have later : ∀ w' : Shared P, w'.disk = w.disk → w'.procs p = some proc → ComesOf names p w' ends (prog machine script) :=
    fun w' same runs => comesFollows names runs (same ▸ follows) script
  cases out : prog machine script with
  | mk after result =>
    rw [out] at later
    cases result with
    | some pair => exact begins.trans later
    | none => exact begins.trans later

theorem stepComes {world : World} (same : w.disk = world.disk) (runs : w.procs p = idle world.cs)
    (nodup : (world.disk.map File.name).Nodup) (event : Event) :
    Comes names p w (Critical.step (names p) world event).disk (idle (Critical.step (names p) world event).cs) := by
  have none_ : Comes names p w world.disk (idle world.cs) := same ▸ .stays runs
  unfold Critical.step
  split
  · rename_i listings script dead
    have started : step names w (p,.boot) = w.become p (some ⟨freshState (names p),loadTasks ++ cleanupTasks⟩) := by
      unfold step
      rw [runs, dead]
      rfl
    have comes := startComes .boot started (same ▸ initFollows nodup (names p) listings) script
    unfold boot
    dsimp only
    cases out : criticalStateInit (names p) listings ⟨world.disk,freshState (names p)⟩ script with
    | mk after result =>
      rw [same, out] at comes
      cases result with
      | none =>
        dsimp only
        rw [dead]
        exact comes
      | some pair => exact comes
  · rename_i cs handle data len script alive
    rw [alive] at none_ runs
    unfold save procSaveCriticalState
    by_cases bad : len ≤ 0 ∨ criticalStateMaxLen < len
    · rw [if_pos bad]
      exact none_
    rw [if_neg bad]
    cases handle with
    | null => exact none_
    | notSat => exact none_
    | proc =>
      have started : step names w (p,.save .proc data len) = w.become p (some (saveTasks cs (zeroFilled (data.take len.toNat)))) := by
        unfold step
        rw [runs]
        exact if_neg bad
      have comes := startComes (.save .proc data len) started (storeStateFollows ⟨w.disk,cs⟩ (zeroFilled (data.take len.toNat)) len) script
      dsimp only
      cases out : storeState (zeroFilled (data.take len.toNat)) len ⟨world.disk,cs⟩ script with
      | mk after result =>
        rw [same, out] at comes
        cases result with
        | none => exact comes
        | some pair => exact comes
  · rename_i cs handle first second len alive
    rw [alive] at none_ runs
    unfold Critical.read
    dsimp only
    cases handle with
    | null => exact none_
    | notSat => exact none_
    | proc =>
      have started : step names w (p,.read .proc) = w.become p (some (readTasks cs)) := by
        unfold step
        rw [runs]
        rfl
      have begins : Comes names p w w.disk (some (readTasks cs)) := .one (.read .proc) (by rw [started]; rfl) (by rw [started]; rfl)
      refine begins.trans fun w' same' runs' => ?_
      have reaches := readReaches nodup first second cs len
      rw [← same, ← same'] at reaches
      have comes := comesReaches names runs' reaches
      rw [same', same] at comes
      exact comes
  · rename_i cs script alive
    rw [alive] at none_ runs
    have started : step names w (p,.shutdown) = w.become p (some ⟨cs,cleanupTasks ++ [.exit]⟩) := by
      unfold step
      rw [runs]
      rfl
    have comes := startComes .shutdown started (exitFollows ⟨w.disk,cs⟩) script
    rw [same] at comes
    dsimp only
    cases out : criticalStateCleanup ⟨world.disk,cs⟩ script with
    | mk after result =>
      rw [out] at comes
      cases result with
      | none => exact comes
      | some pair =>
        refine comes.trans fun w' same' runs' => ?_
        have gone : step names w' (p,.go .done .whole) = w'.become p none := by
          unfold step
          rw [runs']
        exact .one (.go .done .whole) (by rw [gone]; exact same') (by rw [gone]; rfl)
  · rename_i cs alive
    rw [alive] at runs
    exact same ▸ .dies runs
  · exact none_

theorem turnNodup {machine : Machine} (nodup : machine.names.Nodup) (answer : Answer) (scan : Scan) (rest : List Task) (task : Task) :
    (turn machine answer scan rest task).machine.names.Nodup := by
  have without : ∀ file, (machine.without file).names.Nodup := fun file => nodup.sublist (List.filter_sublist.map File.name)
  have failed : ∀ (after : Machine) i effects, after.names.Nodup → (failWrite after i rest effects).machine.names.Nodup := by
    intro after i effects kept
    unfold failWrite
    split <;> exact kept
  cases task with
  | openLoad i => cases answer <;> exact nodup
  | entry i file => rw [turn]; split <;> exact nodup
  | loaded => exact nodup
  | check => rw [turn]; split <;> exact nodup
  | openCleanup i =>
    rw [turn]
    split
    · exact nodup
    · cases answer <;> exact nodup
  | unlink file => exact without file
  | cleaned i => exact nodup
  | mkstemp i ent =>
    cases answer with
    | created suffix =>
      rw [turn]
      split
      · exact failed machine i [] nodup
      · rename_i fresh
        rw [Machine.names, Machine.create, List.map_append]
        refine List.nodup_append.mpr ⟨nodup,List.nodup_cons.mpr ⟨List.not_mem_nil,List.nodup_nil⟩,?_⟩
        rintro old there new last rfl
        rw [List.mem_singleton.mp last] at there
        exact fresh there
    | _ => exact failed machine i [] nodup
  | write i file ent left =>
    cases left with
    | zero => exact nodup
    | succ left =>
      cases answer with
      | wrote count =>
        have names : (machine.append file (ent.take count)).names = machine.names := by
          rw [Machine.names, Machine.append, List.map_map]
          refine List.map_congr_left fun f _ => ?_
          rw [Function.comp_apply]
          split <;> rfl
        exact names ▸ nodup
      | _ => exact nodup
  | undo i file => exact failed _ i _ (without file)
  | cache body => exact nodup
  | exit => exact nodup

theorem stepNodup (names : P → Name) (w : Shared P) (act : P × Act) (nodup : (w.disk.map File.name).Nodup) :
    ((step names w act).disk.map File.name).Nodup := by
  unfold step
  split
  · exact nodup
  · split
    · exact nodup
    · split <;> exact nodup
  · exact nodup
  · exact nodup
  · exact nodup
  · exact nodup
  · rename_i cs task rest answer scan _ _ _
    have start : (⟨w.disk,cs⟩ : Machine).names.Nodup := nodup
    exact turnNodup start answer scan rest task
  · exact nodup

theorem runComes {world : World} (same : w.disk = world.disk) (runs : w.procs p = idle world.cs)
    (nodup : (world.disk.map File.name).Nodup) (events : List Event) :
    Comes names p w (exec (Critical.step (names p)) world events).disk (idle (exec (Critical.step (names p)) world events).cs) := by
  induction events generalizing w world with
  | nil => exact same ▸ .stays runs
  | cons event events ih =>
    have first : Comes names p w _ _ := stepComes same runs nodup event
    have kept : ((Critical.step (names p) world event).disk.map File.name).Nodup := by
      obtain ⟨acts,-,after,-⟩ := first
      exact after ▸ execInvariant (stepNodup names) (same ▸ nodup) acts
    exact first.trans fun w' same' runs' => ih same' runs' kept

/- Every run of a process with its operations in one piece is a run of it among others that do nothing. -/
theorem aloneRun (names : P → Name) (p : P) {disk : List File} (nodup : (disk.map File.name).Nodup) (events : List Event) :
    Comes names p (.start P disk) (exec (Critical.step (names p)) (untouched disk) events).disk
      (idle (exec (Critical.step (names p)) (untouched disk) events).cs) :=
  runComes rfl rfl nodup events

end

end LibProc.CriticalShared
