import LibProc.CriticalRuns

/-! Processes that share the directory of the critical state. The operations of critical.c are cut here
at each call that can see or change the directory, and the processes take turns at these; a file
that a process creates, loads an entry from or deletes goes to the log. What mkstemp puts for the
X's is left open. -/
namespace LibProc.CriticalShared
open Critical CriticalLoad CriticalRuns
open Runs (exec Along)

inductive Effect where
  | created (file : Name)
  | loaded (file : Name)
  | deleted (file : Name)
  deriving DecidableEq, Repr

inductive Task where
  | openLoad (i : Replica)
  | entry (i : Replica) (file : Name)
  | loaded
  | check
  | openCleanup (i : Replica)
  | unlink (file : Name)
  | cleaned (i : Replica)
  | mkstemp (i : Replica) (ent : Bytes)
  | write (i : Replica) (file : Name) (ent : Bytes) (left : Nat)
  | undo (i : Replica) (file : Name)
  | cache (body : Bytes)
  | exit
  deriving DecidableEq, Repr

structure Proc where
  cs : CSState
  tasks : List Task

structure Shared (P : Type) where
  disk : List File
  procs : P → Option Proc
  log : List (P × Effect)

structure Turn where
  machine : Machine
  tasks : List Task
  effects : List Effect

local instance nameLawful : LawfulBEq Name := inferInstance

def loadTasks : List Task := [.openLoad .a,.openLoad .b,.loaded]

def cleanupTasks : List Task := [.openCleanup .a,.openCleanup .b]

def scanned (bytes : Bytes) : Scan → List Bytes
  | .whole => chunks bytes
  | .noOpen => []
  | .error reads _ => (chunks bytes).take reads

def failWrite (machine : Machine) (i : Replica) (rest : List Task) (effects : List Effect) : Turn :=
  if i = .a then ⟨machine,[],effects⟩
  else ⟨{ machine with cs := { machine.cs with dirty := true } },rest,effects⟩

def turn (machine : Machine) (answer : Answer) (scan : Scan) (rest : List Task) : Task → Turn
  | .openLoad i =>
    match answer with
    | .order names => ⟨machine,(names.filter fun file => belongs machine.cs.name i file).map (.entry i) ++ rest,[]⟩
    | _ => ⟨machine,rest,[]⟩
  | .entry i file =>
    match machine.disk.find? fun f => f.name = file with
    | none => ⟨machine,rest,[]⟩
    | some f =>
      ⟨{ machine with cs := loadEntry i machine.cs (f,scan) },rest,
        if (processChunks machine.cs (scanned f.bytes scan)).2 = 0 then [] else [.loaded file]⟩
  | .loaded => ⟨{ machine with cs := { machine.cs with dirty := false } },rest,[]⟩
  | .check =>
    if Md5.md5 machine.cs.state = machine.cs.md5 then ⟨machine,rest,[]⟩
    else ⟨{ machine with cs := { machine.cs with stateVersion := 0 } },loadTasks ++ rest,[]⟩
  | .openCleanup i =>
    match (machine.cs.files i).currFile with
    | none => ⟨machine,rest,[]⟩
    | some curr =>
      match answer with
      | .order names =>
        ⟨machine,(names.filter fun file => belongs machine.cs.name i file && file ≠ curr).reverse.map .unlink ++ .cleaned i :: rest,[]⟩
      | _ => ⟨machine,rest,[]⟩
  | .unlink file => ⟨machine.without file,rest,if file ∈ machine.names then [.deleted file] else []⟩
  | .cleaned i => ⟨machine.setGeneration i 0,rest,[]⟩
  | .mkstemp i ent =>
    match answer with
    | .created suffix =>
      let file := csPrefix machine.cs.name i ++ suffix
      if file ∈ machine.names then failWrite machine i rest []
      else ⟨machine.create file,.write i file ent numCopies :: rest,[.created file]⟩
    | _ => failWrite machine i rest []
  | .write i file _ 0 =>
    let published := machine.publish i file
    ⟨published,if cleanupInterval < (published.cs.files i).generation then .openCleanup i :: rest else rest,[]⟩
  | .write i file ent (left + 1) =>
    match answer with
    | .wrote count =>
      ⟨machine.append file (ent.take count),(if ent.length ≤ count then .write i file ent left else .undo i file) :: rest,[]⟩
    | _ => ⟨machine,.undo i file :: rest,[]⟩
  | .undo i file => failWrite (machine.without file) i rest (if file ∈ machine.names then [.deleted file] else [])
  | .cache body => ⟨{ machine with cs := machine.cs.cache body },rest,[]⟩
  | .exit => ⟨machine,rest,[]⟩

inductive Act where
  | boot
  | save (handle : Handle) (data : Bytes) (len : Int)
  | read (handle : Handle)
  | shutdown
  | crash
  | go (answer : Answer) (scan : Scan)
  deriving DecidableEq, Repr

def saveTasks (cs : CSState) (body : Bytes) : Proc :=
  let counted := { cs with stateVersion := cs.stateVersion + 1 }
  let ent := entryBytes counted.stateVersion body
  ⟨counted,[.mkstemp .a ent,.mkstemp .b ent,.cache body]⟩

def readTasks (cs : CSState) : Proc :=
  if cs.dirty then ⟨{ cs with stateVersion := 0 },loadTasks ++ [.check]⟩ else ⟨cs,[.check]⟩

section
variable {P : Type}

def Shared.become [DecidableEq P] (w : Shared P) (p : P) (proc : Option Proc) : Shared P := { w with procs := Function.update w.procs p proc }

def step [DecidableEq P] (names : P → Name) (w : Shared P) (act : P × Act) : Shared P :=
  match w.procs act.1,act.2 with
  | none,.boot => w.become act.1 (some ⟨freshState (names act.1),loadTasks ++ cleanupTasks⟩)
  | some ⟨cs,[]⟩,.save handle data len =>
    if len ≤ 0 ∨ criticalStateMaxLen < len then w
    else match handle with
      | .proc => w.become act.1 (some (saveTasks cs (zeroFilled (data.take len.toNat))))
      | _ => w
  | some ⟨cs,[]⟩,.read .proc => w.become act.1 (some (readTasks cs))
  | some ⟨cs,[]⟩,.shutdown => w.become act.1 (some ⟨cs,cleanupTasks ++ [.exit]⟩)
  | some _,.crash => w.become act.1 none
  | some ⟨_,.exit :: _⟩,.go _ _ => w.become act.1 none
  | some ⟨cs,task :: rest⟩,.go answer scan =>
    let out := turn ⟨w.disk,cs⟩ answer scan rest task
    ⟨out.machine.disk,Function.update w.procs act.1 (some ⟨out.machine.cs,out.tasks⟩),w.log ++ out.effects.map (act.1,·)⟩
  | _,_ => w

def Shared.start (P : Type) (disk : List File) : Shared P := ⟨disk,fun _ => none,[]⟩

def Given (given : Name → Prop) (act : P × Act) : Prop :=
  match act.2 with
  | .go (.created suffix) _ => given suffix
  | _ => True

def Effect.Touches (file : Name) : Effect → Prop
  | .created _ => False
  | .loaded other => other = file
  | .deleted other => other = file

/- Nothing that `p` loads from or deletes has been created by `q`. -/
def Private (p q : P) (log : List (P × Effect)) : Prop :=
  ∀ before after effect file, log = before ++ (p,effect) :: after → effect.Touches file → (q,.created file) ∉ before

end

/- A file that is created for the second name can pass for one of the first. -/
def Covers (given : Name → Prop) (first second : Name) : Prop :=
  ∃ i j suffix, given suffix ∧ csPrefix first i <+: csPrefix second j ++ suffix

def Ours (name file : Name) : Prop := ∃ i, belongs name i file = true

def Made (given : Name → Prop) (name file : Name) : Prop := ∃ i suffix, given suffix ∧ file = csPrefix name i ++ suffix

def Task.Sound (name : Name) : Task → Prop
  | .entry _ file => Ours name file
  | .unlink file => Ours name file
  | .write _ file _ _ => Ours name file
  | .undo _ file => Ours name file
  | _ => True

def Effect.Sound (given : Name → Prop) (name : Name) : Effect → Prop
  | .created file => Made given name file
  | .loaded file => Ours name file
  | .deleted file => Ours name file

structure Turn.Sound (given : Name → Prop) (name : Name) (out : Turn) : Prop where
  named : out.machine.cs.name = name
  tasks : ∀ task ∈ out.tasks, task.Sound name
  effects : ∀ effect ∈ out.effects, effect.Sound given name

section
variable {given : Name → Prop} {name file : Name} {machine : Machine} {rest : List Task} {i : Replica}

theorem Made.ours (made : Made given name file) : Ours name file := by
  obtain ⟨i,suffix,-,rfl⟩ := made
  exact ⟨i,belongsCreated name i suffix⟩

theorem loadTasksSound : ∀ task ∈ loadTasks, task.Sound name := by
  intro task member
  simp only [loadTasks,List.mem_cons,List.not_mem_nil,or_false] at member
  rcases member with rfl | rfl | rfl <;> trivial

theorem cleanupTasksSound : ∀ task ∈ cleanupTasks, task.Sound name := by
  intro task member
  simp only [cleanupTasks,List.mem_cons,List.not_mem_nil,or_false] at member
  rcases member with rfl | rfl <;> trivial

theorem failWriteSound (named : machine.cs.name = name) (sound : ∀ task ∈ rest, task.Sound name) {effects : List Effect}
    (seen : ∀ effect ∈ effects, effect.Sound given name) : (failWrite machine i rest effects).Sound given name := by
  unfold failWrite
  split
  · exact ⟨named,nofun,seen⟩
  · exact ⟨named,sound,seen⟩

theorem noEffects : ∀ effect ∈ ([] : List Effect), effect.Sound given name := nofun

theorem oneEffect {effect : Effect} {c : Prop} [Decidable c] (sound : effect.Sound given name) :
    ∀ other ∈ (if c then [effect] else []), other.Sound given name := by
  intro other member
  split at member
  · rw [List.mem_singleton.mp member]
    exact sound
  · cases member

theorem turnSound (named : machine.cs.name = name) (sound : ∀ task ∈ rest, task.Sound name) {task : Task} (own : task.Sound name)
    {answer : Answer} (scan : Scan) (may : ∀ suffix, answer = .created suffix → given suffix) :
    (turn machine answer scan rest task).Sound given name := by
  have quiet : ∀ after : Machine, after.cs.name = name → (⟨after,rest,[]⟩ : Turn).Sound given name :=
    fun after kept => ⟨kept,sound,noEffects⟩
  cases task with
  | openLoad i =>
    cases answer with
    | order names =>
      refine ⟨named,fun task member => ?_,noEffects⟩
      rcases List.mem_append.mp member with entry | old
      · obtain ⟨file,listed,rfl⟩ := List.mem_map.mp entry
        rw [named] at listed
        exact ⟨i,(List.mem_filter.mp listed).2⟩
      · exact sound task old
    | _ => exact quiet machine named
  | entry i file =>
    rw [turn]
    split
    · exact quiet machine named
    · rename_i f found
      refine ⟨(loadEntryFrame i machine.cs (f,scan)).1.trans named,sound,fun effect member => ?_⟩
      split at member
      · cases member
      · rw [List.mem_singleton.mp member]
        exact own
  | loaded => exact quiet _ named
  | check =>
    rw [turn]
    split
    · exact quiet machine named
    · exact ⟨named,fun task member => (List.mem_append.mp member).elim (loadTasksSound task) (sound task),noEffects⟩
  | openCleanup i =>
    rw [turn]
    split
    · exact quiet machine named
    · rename_i curr _
      cases answer with
      | order names =>
        refine ⟨named,fun task member => ?_,noEffects⟩
        rcases List.mem_append.mp member with gone | old
        · obtain ⟨file,listed,rfl⟩ := List.mem_map.mp gone
          have kept := (List.mem_filter.mp (List.mem_reverse.mp listed)).2
          rw [named, Bool.and_eq_true] at kept
          exact ⟨i,kept.1⟩
        · rcases List.mem_cons.mp old with rfl | old
          · trivial
          · exact sound task old
      | _ => exact quiet machine named
  | unlink file =>
    have gone : Effect.Sound given name (.deleted file) := own
    exact ⟨named,sound,oneEffect gone⟩
  | cleaned i => exact quiet _ named
  | mkstemp i ent =>
    cases answer with
    | created suffix =>
      have made : Made given name (csPrefix machine.cs.name i ++ suffix) := ⟨i,suffix,may suffix rfl,by rw [named]⟩
      rw [turn]
      split
      · exact failWriteSound named sound noEffects
      · refine ⟨named,fun task member => ?_,fun effect member => ?_⟩
        · rcases List.mem_cons.mp member with rfl | old
          · exact made.ours
          · exact sound task old
        · rw [List.mem_singleton.mp member]
          exact made
    | _ => exact failWriteSound named sound noEffects
  | write i file ent left =>
    cases left with
    | zero =>
      refine ⟨named,fun task member => ?_,noEffects⟩
      rw [turn] at member
      dsimp only at member
      split at member
      · rcases List.mem_cons.mp member with rfl | old
        · trivial
        · exact sound task old
      · exact sound task member
    | succ left =>
      cases answer with
      | wrote count =>
        refine ⟨named,fun task member => ?_,noEffects⟩
        rcases List.mem_cons.mp member with rfl | old
        · split
          · exact own
          · exact own
        · exact sound task old
      | _ =>
        refine ⟨named,fun task member => ?_,noEffects⟩
        rcases List.mem_cons.mp member with rfl | old
        · exact own
        · exact sound task old
  | undo i file =>
    have gone : Effect.Sound given name (.deleted file) := own
    have without : (machine.without file).cs.name = name := named
    rw [turn]
    exact failWriteSound without sound (oneEffect gone)
  | cache body => exact quiet _ named
  | exit => exact quiet _ named

end

section
variable {P : Type} {given : Name → Prop} {names : P → Name} {w : Shared P}

structure Proc.Sound (name : Name) (proc : Proc) : Prop where
  named : proc.cs.name = name
  tasks : ∀ task ∈ proc.tasks, task.Sound name

structure Sound (given : Name → Prop) (names : P → Name) (w : Shared P) : Prop where
  procs : ∀ p proc, w.procs p = some proc → proc.Sound (names p)
  log : ∀ entry ∈ w.log, entry.2.Sound given (names entry.1)

theorem Sound.become [DecidableEq P] (sound : Sound given names w) (p : P) {next : Option Proc}
    (fine : ∀ proc, next = some proc → proc.Sound (names p)) : Sound given names (w.become p next) := by
  refine ⟨fun other proc is => ?_,sound.log⟩
  have is : Function.update w.procs p next other = some proc := is
  by_cases own : other = p
  · subst own
    rw [Function.update_self] at is
    exact fine proc is
  · rw [Function.update_of_ne own] at is
    exact sound.procs other proc is

theorem stepSound [DecidableEq P] (w : Shared P) (act : P × Act) (sound : Sound given names w) (may : Given given act) :
    Sound given names (step names w act) := by
  have own := sound.procs act.1
  unfold step
  split
  · refine sound.become act.1 ?_
    rintro _ ⟨⟩
    exact ⟨rfl,fun task member => (List.mem_append.mp member).elim (loadTasksSound task) (cleanupTasksSound task)⟩
  · rename_i cs handle data len is _
    split
    · exact sound
    split
    · refine sound.become act.1 ?_
      rintro _ ⟨⟩
      refine ⟨(own _ is).named,fun task member => ?_⟩
      simp only [saveTasks,List.mem_cons,List.not_mem_nil,or_false] at member
      rcases member with rfl | rfl | rfl <;> trivial
    · exact sound
  · rename_i cs is _
    refine sound.become act.1 ?_
    rintro _ ⟨⟩
    unfold readTasks
    split
    · refine ⟨(own _ is).named,fun task member => (List.mem_append.mp member).elim (loadTasksSound task) fun last => ?_⟩
      rw [List.mem_singleton.mp last]
      trivial
    · refine ⟨(own _ is).named,fun task member => ?_⟩
      rw [List.mem_singleton.mp member]
      trivial
  · rename_i cs is _
    refine sound.become act.1 ?_
    rintro _ ⟨⟩
    refine ⟨(own _ is).named,fun task member => (List.mem_append.mp member).elim (cleanupTasksSound task) fun last => ?_⟩
    rw [List.mem_singleton.mp last]
    trivial
  · exact sound.become act.1 nofun
  · exact sound.become act.1 nofun
  · rename_i cs task rest answer scan _ is went
    obtain ⟨named,tasks⟩ := own _ is
    have out : (turn ⟨w.disk,cs⟩ answer scan rest task).Sound given (names act.1) := by
      refine turnSound named (fun other member => tasks other (List.mem_cons_of_mem _ member)) (tasks task List.mem_cons_self) scan ?_
      rintro suffix rfl
      unfold Given at may
      rw [went] at may
      exact may
    refine ⟨fun other proc there => ?_,fun entry member => ?_⟩
    · dsimp only at there
      by_cases same : other = act.1
      · subst same
        rw [Function.update_self] at there
        cases there
        exact ⟨out.named,out.tasks⟩
      · rw [Function.update_of_ne same] at there
        exact sound.procs other proc there
    · rcases List.mem_append.mp member with old | new
      · exact sound.log entry old
      · obtain ⟨effect,done,rfl⟩ := List.mem_map.mp new
        exact out.effects effect done
  · exact sound

theorem startSound (disk : List File) : Sound given names (.start P disk) := ⟨nofun,nofun⟩

theorem oursCovers {first second file : Name} (ours : Ours first file) (made : Made given second file) : Covers given first second := by
  obtain ⟨i,belong⟩ := ours
  obtain ⟨j,suffix,may,rfl⟩ := made
  simp only [belongs,Bool.and_eq_true,List.isPrefixOf_iff_prefix] at belong
  exact ⟨i,j,suffix,may,belong.2⟩

theorem Sound.private_ (sound : Sound given names w) {p q : P} (apart : ¬Covers given (names p) (names q)) :
    Private p q w.log := by
  intro before after effect file split touches created
  have made := sound.log (q,.created file) (by rw [split]; exact List.mem_append_left _ created)
  have touched := sound.log (p,effect) (by rw [split]; simp)
  refine apart (oursCovers ?_ made)
  cases effect with
  | created other => cases touches
  | loaded other =>
    cases touches
    exact touched
  | deleted other =>
    cases touches
    exact touched

end

def savedOnce {P : Type} (q : P) (suffix : Name) : List (P × Act) :=
  [(q,.boot),(q,.go .failed .whole),(q,.go .failed .whole),(q,.go .failed .whole),(q,.go .failed .whole),(q,.go .failed .whole),
    (q,.save .proc [0] 1),(q,.go (.created suffix) .whole),(q,.go (.wrote entryLen) .whole),(q,.go (.wrote entryLen) .whole),
    (q,.go (.wrote entryLen) .whole),(q,.go (.wrote entryLen) .whole),(q,.go .done .whole),(q,.go (.created suffix) .whole),
    (q,.go (.wrote entryLen) .whole)]

def loadedFrom {P : Type} (p : P) (file : Name) : Replica → List (P × Act)
  | .a => [(p,.boot),(p,.go (.order [file]) .whole),(p,.go .done .whole)]
  | .b => [(p,.boot),(p,.go .failed .whole),(p,.go (.order [file]) .whole),(p,.go .done .whole)]

section
variable {P : Type} [DecidableEq P] {names : P → Name} {disk : List File} {procs : P → Option Proc} {log : List (P × Effect)} {p q : P}

theorem goAt {cs : CSState} {task : Task} (rest : List Task) (stays : task ≠ .exit) (answer : Answer) (scan : Scan) :
    step names ⟨disk,Function.update procs q (some ⟨cs,task :: rest⟩),log⟩ (q,.go answer scan) =
      ⟨(turn ⟨disk,cs⟩ answer scan rest task).machine.disk,
        Function.update procs q (some ⟨(turn ⟨disk,cs⟩ answer scan rest task).machine.cs,(turn ⟨disk,cs⟩ answer scan rest task).tasks⟩),
        log ++ (turn ⟨disk,cs⟩ answer scan rest task).effects.map (q,·)⟩ := by
  unfold step
  dsimp only
  rw [Function.update_self]
  cases task with
  | exit => exact absurd rfl stays
  | _ =>
    dsimp only
    rw [Function.update_idem]

theorem bootAt (out : procs p = none) :
    step names ⟨disk,procs,log⟩ (p,.boot) =
      ⟨disk,Function.update procs p (some ⟨freshState (names p),loadTasks ++ cleanupTasks⟩),log⟩ := by
  unfold step
  dsimp only
  rw [out]
  rfl

theorem saveAt (cs : CSState) :
    step names ⟨disk,Function.update procs q (some ⟨cs,[]⟩),log⟩ (q,.save .proc [0] 1) =
      ⟨disk,Function.update procs q (some (saveTasks cs (zeroFilled [0]))),log⟩ := by
  unfold step
  dsimp only
  rw [Function.update_self]
  dsimp only [Shared.become]
  rw [Function.update_idem, if_neg (by decide)]
  rfl

def zeroEntry : Bytes := entryBytes 1 (zeroFilled [0])

theorem zeroEntryLength : zeroEntry.length = entryLen := by
  refine entryLength ?_
  rw [zeroFilled, List.length_append, List.length_replicate]
  rfl

theorem appendLast {names' : List File} {file : Name} (fresh : file ∉ names'.map File.name) (cs : CSState) (bytes : Bytes) :
    (⟨names' ++ [⟨file,bytes⟩],cs⟩ : Machine).append file (zeroEntry.take entryLen) =
      ⟨names' ++ [⟨file,bytes ++ zeroEntry⟩],cs⟩ := by
  have others : names'.map (fun f => if f.name = file then { f with bytes := f.bytes ++ zeroEntry } else f) = names' := by
    refine (List.map_congr_left fun f inside => if_neg ?_).trans (List.map_id _)
    exact fun same => fresh (List.mem_map.mpr ⟨f,inside,same⟩)
  rw [List.take_of_length_le zeroEntryLength.le]
  simp only [Machine.append,List.map_append,others,List.map_cons,List.map_nil,if_true]

theorem copyTurn {names' : List File} {file : Name} (fresh : file ∉ names'.map File.name) (cs : CSState) (bytes : Bytes) (scan : Scan)
    (rest : List Task) (i : Replica) (left : Nat) :
    turn ⟨names' ++ [⟨file,bytes⟩],cs⟩ (.wrote entryLen) scan rest (.write i file zeroEntry (left + 1)) =
      ⟨⟨names' ++ [⟨file,bytes ++ zeroEntry⟩],cs⟩,.write i file zeroEntry left :: rest,[]⟩ := by
  rw [turn, appendLast fresh, if_pos zeroEntryLength.le]

theorem createTurn {disk : List File} {cs : CSState} {suffix : Name} (i : Replica) (fresh : csPrefix cs.name i ++ suffix ∉ disk.map File.name)
    (scan : Scan) (rest : List Task) :
    turn ⟨disk,cs⟩ (.created suffix) scan rest (.mkstemp i zeroEntry) =
      ⟨⟨disk ++ [⟨csPrefix cs.name i ++ suffix,[]⟩],cs⟩,.write i (csPrefix cs.name i ++ suffix) zeroEntry numCopies :: rest,
        [.created (csPrefix cs.name i ++ suffix)]⟩ := if_neg fresh

theorem publishTurn (disk : List File) {cs : CSState} {i : Replica} (young : (cs.files i).generation = 0) (file : Name) (ent : Bytes)
    (answer : Answer) (scan : Scan) (rest : List Task) :
    ∃ after, after.name = cs.name ∧ turn ⟨disk,cs⟩ answer scan rest (.write i file ent 0) = ⟨⟨disk,after⟩,rest,[]⟩ := by
  have generation : ((Machine.publish ⟨disk,cs⟩ i file).cs.files i).generation = 1 := by
    simp [Machine.publish,Machine.setGeneration,CSState.setCurr,young]
  refine ⟨((⟨disk,cs⟩ : Machine).publish i file).cs,rfl,?_⟩
  rw [turn, generation, if_neg (by decide)]
  rfl

def savedDisk (name suffix : Name) : List File :=
  [⟨csPrefix name .a ++ suffix,zeroEntry ++ zeroEntry ++ zeroEntry ++ zeroEntry⟩,⟨csPrefix name .b ++ suffix,zeroEntry⟩]

theorem savedOnceState (q : P) (suffix : Name) :
    ∃ proc, exec (step names) (.start P []) (savedOnce q suffix) =
      ⟨savedDisk (names q) suffix,Function.update (fun _ => none) q (some proc),
        [(q,.created (csPrefix (names q) .a ++ suffix)),(q,.created (csPrefix (names q) .b ++ suffix))]⟩ := by
  have first : csPrefix (names q) .a ++ suffix ∉ ([] : List File).map File.name := nofun
  have booted : exec (step names) (.start P []) ((savedOnce q suffix).take 6) =
      ⟨[],Function.update (fun _ => none) q (some ⟨freshState (names q),[]⟩),[]⟩ := by
    simp only [savedOnce,List.take,exec,Shared.start]
    rw [bootAt rfl]
    simp only [loadTasks,cleanupTasks,List.cons_append,List.nil_append,goAt,turn,freshState,ne_eq,reduceCtorEq,not_false_eq_true,
      List.map_nil]
  rw [show savedOnce q suffix = (savedOnce q suffix).take 6 ++ (savedOnce q suffix).drop 6 from rfl, Runs.execAppend, booted]
  simp only [savedOnce,List.drop,exec,saveAt]
  obtain ⟨cs,saving,named,young⟩ : ∃ cs, saveTasks (freshState (names q)) (zeroFilled [0]) =
      ⟨cs,[.mkstemp .a zeroEntry,.mkstemp .b zeroEntry,.cache (zeroFilled [0])]⟩ ∧ cs.name = names q ∧ (cs.files .a).generation = 0 :=
    ⟨_,rfl,rfl,rfl⟩
  rw [← named] at first
  obtain ⟨after,kept,published⟩ := publishTurn ([] ++ [⟨csPrefix cs.name .a ++ suffix,[] ++ zeroEntry ++ zeroEntry ++ zeroEntry ++ zeroEntry⟩])
    young (csPrefix cs.name .a ++ suffix) zeroEntry .done .whole [.mkstemp .b zeroEntry,.cache (zeroFilled [0])]
  have second : ∀ bytes, csPrefix after.name .b ++ suffix ∉
      ([] ++ [(⟨csPrefix cs.name .a ++ suffix,bytes⟩ : File)]).map File.name := by
    intro bytes member
    rw [kept] at member
    cases csPrefixInjective (List.append_cancel_right (List.mem_singleton.mp member))
  simp only [saving,goAt,createTurn .a first,copyTurn first,numCopies,published,createTurn .b (second _),copyTurn (second _),
    ne_eq,reduceCtorEq,not_false_eq_true]
  exact ⟨_,by rw [kept, named]; rfl⟩

theorem zeroAccepted (name : Name) (more : Bytes) :
    (processChunks (freshState name) (scanned (zeroEntry ++ more) .whole)).2 ≠ 0 := by
  have parsed : parseEntry zeroEntry = some (1,zeroFilled [0]) := by
    refine parseEntryBytes 1 ?_
    rw [zeroFilled, List.length_append, List.length_replicate]
    rfl
  have fresh : (freshState name).stateVersion = 0 := rfl
  have one : (processCriticalEntry (freshState name) zeroEntry).2 = 1 := by
    unfold processCriticalEntry
    rw [parsed]
    dsimp only
    rw [fresh, if_neg (by decide), if_neg (by decide)]
  have taken : (processChunk (freshState name,0) zeroEntry).2 = 1 := by
    rw [processChunk]
    dsimp only
    rw [one, if_pos (by decide)]
  rw [scanned, chunksCons zeroEntryLength, processChunks, List.foldl_cons]
  have positive := chunksPositive (processChunk (freshState name,0) zeroEntry) (chunks more) (by rw [taken]; decide)
  exact positive.ne'

theorem openTurn {disk : List File} {cs : CSState} {i : Replica} {file : Name} (belong : belongs cs.name i file = true) (scan : Scan)
    (rest : List Task) :
    turn ⟨disk,cs⟩ (.order [file]) scan rest (.openLoad i) = ⟨⟨disk,cs⟩,.entry i file :: rest,[]⟩ := by
  rw [turn, List.filter_cons_of_pos belong]
  rfl

theorem loadedFromLog {file : Name} {bytes : Bytes} {i : Replica} (out : procs p = none) (belong : belongs (names p) i file = true)
    (there : disk.find? (fun f => f.name = file) = some ⟨file,zeroEntry ++ bytes⟩) :
    (exec (step names) ⟨disk,procs,log⟩ (loadedFrom p file i)).log = log ++ [(p,.loaded file)] := by
  have accepted : ∀ rest, (turn ⟨disk,freshState (names p)⟩ .done .whole rest (.entry i file)).effects = [.loaded file] := by
    intro rest
    rw [turn, there]
    exact if_neg (zeroAccepted (names p) bytes)
  have opened : ∀ rest, turn ⟨disk,freshState (names p)⟩ (.order [file]) .whole rest (.openLoad i) =
      ⟨⟨disk,freshState (names p)⟩,.entry i file :: rest,[]⟩ := fun rest => openTurn belong .whole rest
  have unopened : ∀ rest, turn ⟨disk,freshState (names p)⟩ .failed .whole rest (.openLoad .a) = ⟨⟨disk,freshState (names p)⟩,rest,[]⟩ :=
    fun _ => rfl
  cases i <;> simp only [loadedFrom,exec,bootAt out,loadTasks,cleanupTasks,List.cons_append,List.nil_append,goAt,opened,unopened,accepted,
    ne_eq,reduceCtorEq,not_false_eq_true,List.map_nil,List.map_cons,List.append_nil]

theorem savedFound (name suffix : Name) (j : Replica) :
    ∃ more, (savedDisk name suffix).find? (fun f => f.name = csPrefix name j ++ suffix) = some ⟨csPrefix name j ++ suffix,zeroEntry ++ more⟩ := by
  unfold savedDisk
  cases j with
  | a => exact ⟨zeroEntry ++ (zeroEntry ++ zeroEntry),by rw [List.find?_cons_of_pos (by simp), List.append_assoc, List.append_assoc]⟩
  | b =>
    have differ : csPrefix name .a ++ suffix ≠ csPrefix name .b ++ suffix :=
      fun same => by cases csPrefixInjective (List.append_cancel_right same)
    refine ⟨[],?_⟩
    rw [List.find?_cons_of_neg (by simpa using differ), List.find?_cons_of_pos (by simp), List.append_nil]

theorem coveredLoads (apart : p ≠ q) {i j : Replica} {suffix : Name} (covers : csPrefix (names p) i <+: csPrefix (names q) j ++ suffix) :
    ¬Private p q (exec (step names) (.start P []) (savedOnce q suffix ++ loadedFrom p (csPrefix (names q) j ++ suffix) i)).log := by
  obtain ⟨proc,saved⟩ := @savedOnceState P _ names q suffix
  have belong : belongs (names p) i (csPrefix (names q) j ++ suffix) = true := by
    simp only [belongs,Bool.and_eq_true,List.isPrefixOf_iff_prefix]
    exact ⟨rfl,covers⟩
  have out : Function.update (fun _ : P => none) q (some proc) p = none := Function.update_of_ne apart _ _
  obtain ⟨more,there⟩ := savedFound (names q) suffix j
  rw [Runs.execAppend, saved, loadedFromLog out belong there]
  intro sound
  refine sound _ [] _ _ rfl rfl ?_
  cases j
  · exact List.mem_cons_self
  · exact List.mem_cons_of_mem _ List.mem_cons_self

end

theorem savedGiven {P : Type} {given : Name → Prop} {suffix : Name} (may : given suffix) (q : P) : ∀ act ∈ savedOnce q suffix, Given given act := by
  intro act member
  simp only [savedOnce,List.mem_cons,List.not_mem_nil,or_false] at member
  rcases member with rfl | rfl | rfl | rfl | rfl | rfl | rfl | rfl | rfl | rfl | rfl | rfl | rfl | rfl | rfl <;> first | exact may | trivial

theorem loadedGiven {P : Type} (given : Name → Prop) (p : P) (file : Name) (i : Replica) : ∀ act ∈ loadedFrom p file i, Given given act := by
  intro act member
  cases i <;> simp only [loadedFrom,List.mem_cons,List.not_mem_nil,or_false] at member
  · rcases member with rfl | rfl | rfl <;> trivial
  · rcases member with rfl | rfl | rfl | rfl <;> trivial

/- Files of the one process are taken for the other's just where mkstemp can complete the names to that. -/
theorem privateIff {P : Type} [DecidableEq P] (given : Name → Prop) (names : P → Name) {p q : P} (apart : p ≠ q) :
    (∀ disk acts, (∀ act ∈ acts, Given given act) →
      Private p q (exec (step names) (.start P disk) acts).log ∧ Private q p (exec (step names) (.start P disk) acts).log) ↔
    ¬Covers given (names p) (names q) ∧ ¬Covers given (names q) (names p) := by
  constructor
  · intro every
    have given' : ∀ (p q : P) (i j : Replica) (suffix : Name), given suffix →
        ∀ act ∈ savedOnce q suffix ++ loadedFrom p (csPrefix (names q) j ++ suffix) i, Given given act :=
      fun p q i j suffix may act member => (List.mem_append.mp member).elim (savedGiven may q act) (loadedGiven given p _ i act)
    refine ⟨?_,?_⟩
    · rintro ⟨i,j,suffix,may,covers⟩
      exact coveredLoads apart covers (every [] _ (given' p q i j suffix may)).1
    · rintro ⟨i,j,suffix,may,covers⟩
      exact coveredLoads apart.symm covers (every [] _ (given' q p i j suffix may)).2
  · rintro ⟨first,second⟩ disk acts may
    have sound : Sound given names (exec (step names) (.start P disk) acts) :=
      (Along.ofAll may _).invariant stepSound (startSound disk)
    exact ⟨sound.private_ first,sound.private_ second⟩

theorem prefixTails {first second suffix : Name} {i j : Replica} :
    csPrefix first i <+: csPrefix second j ++ suffix ↔ first ++ ['.',i.letter,'.'] <+: second ++ ['.',j.letter,'.'] ++ suffix := by
  simp only [csPrefix,List.append_assoc,List.prefix_append_right_inj]

theorem dottedWithin {first second suffix : Name} {i j : Replica} (dotless : '.' ∉ suffix) (distinct : first ≠ second)
    (covers : first ++ ['.',i.letter,'.'] <+: second ++ ['.',j.letter,'.'] ++ suffix) :
    first ++ ['.',i.letter,'.'] <+: second ++ ['.'] := by
  have whole : second ++ ['.',j.letter,'.'] <+: second ++ ['.',j.letter,'.'] ++ suffix := List.prefix_append _ _
  have start : second ++ ['.'] <+: second ++ ['.',j.letter,'.'] ++ suffix := ⟨[j.letter,'.'] ++ suffix,by simp⟩
  rcases Nat.lt_trichotomy first.length second.length with shorter | same | longer
  · by_cases last : first.length + 1 = second.length
    · have inside : first ++ ['.',i.letter,'.'] <+: second ++ ['.',j.letter] := by
        refine List.prefix_of_prefix_length_le covers ⟨['.'] ++ suffix,by simp⟩ ?_
        simp only [List.length_append,List.length_cons,List.length_nil]
        omega
      have equal := inside.eq_of_length (by simp only [List.length_append,List.length_cons,List.length_nil]; omega)
      have ends := congrArg List.getLast? equal
      simp only [List.getLast?_append,List.getLast?_cons_cons,List.getLast?_singleton,Option.some_or] at ends
      cases j <;> cases ends
    · refine List.prefix_of_prefix_length_le covers start ?_
      simp only [List.length_append,List.length_cons,List.length_nil]
      omega
  · have begins : first <+: second := by
      have left : first <+: second ++ ['.',j.letter,'.'] ++ suffix := (List.prefix_append _ _).trans covers
      have right : second <+: second ++ ['.',j.letter,'.'] ++ suffix := (List.prefix_append _ _).trans whole
      exact List.prefix_of_prefix_length_le left right same.le
    exact absurd (begins.eq_of_length same) distinct
  · obtain ⟨more,is⟩ := List.prefix_of_prefix_length_le whole covers (by simp only [List.length_append,List.length_cons,List.length_nil]; omega)
    have extra : more <+: suffix := by
      rw [← is] at covers
      exact (List.prefix_append_right_inj _).mp covers
    have filled : more ≠ [] := by
      rintro rfl
      have lengths := congrArg List.length is
      simp only [List.length_append,List.length_cons,List.length_nil] at lengths
      omega
    have ends := congrArg List.getLast? is
    rw [List.getLast?_append_of_ne_nil _ filled] at ends
    simp only [List.getLast?_append,List.getLast?_cons_cons,List.getLast?_singleton,Option.some_or] at ends
    exact absurd (extra.subset (List.mem_of_getLast? ends)) dotless

theorem coversDotless {given : Name → Prop} (dotless : ∀ suffix, given suffix → '.' ∉ suffix) (some_ : ∃ suffix, given suffix)
    {first second : Name} (distinct : first ≠ second) :
    Covers given first second ↔ ∃ i : Replica, first ++ ['.',i.letter,'.'] <+: second ++ ['.'] := by
  constructor
  · rintro ⟨i,j,suffix,may,covers⟩
    exact ⟨i,dottedWithin (dotless suffix may) distinct (prefixTails.mp covers)⟩
  · rintro ⟨i,within⟩
    obtain ⟨suffix,may⟩ := some_
    refine ⟨i,.a,suffix,may,prefixTails.mpr (within.trans ⟨[Replica.a.letter,'.'] ++ suffix,by simp⟩)⟩

def sixLetters (suffix : Name) : Prop := suffix.length = 6 ∧ suffix.all Char.isAlphanum = true

theorem sixLettersDotless (suffix : Name) (may : sixLetters suffix) : '.' ∉ suffix := by
  intro member
  have letter := List.all_eq_true.mp may.2 '.' member
  revert letter
  decide

def twoNames (which : Bool) : Name := if which then ['a','d','c','s'] else ['c','o','m','m']

theorem twoNamesPrivate :
    (¬Covers sixLetters (twoNames true) (twoNames false) ∧ ¬Covers sixLetters (twoNames false) (twoNames true)) ∧
      ∀ disk acts, (∀ act ∈ acts, Given sixLetters act) →
        Private true false (exec (step twoNames) (.start Bool disk) acts).log ∧
          Private false true (exec (step twoNames) (.start Bool disk) acts).log := by
  have some_ : ∃ suffix, sixLetters suffix := ⟨['X','X','X','X','X','X'],rfl,by decide⟩
  have apart : ¬Covers sixLetters (twoNames true) (twoNames false) ∧ ¬Covers sixLetters (twoNames false) (twoNames true) := by
    constructor
    · rw [coversDotless sixLettersDotless some_ (by decide)]
      rintro ⟨i,within⟩
      revert within
      cases i <;> decide
    · rw [coversDotless sixLettersDotless some_ (by decide)]
      rintro ⟨i,within⟩
      revert within
      cases i <;> decide
  exact ⟨apart,(privateIff sixLetters twoNames (p := true) (q := false) (by decide)).mpr apart⟩

def longerName (which : Bool) : Name := if which then ['p'] else ['p','.','a','.','q']

def foreignFile : Name := csPrefix (longerName false) .a ++ ['X','X','X','X','X','X']

theorem longerNameLoads :
    (∀ act ∈ savedOnce false ['X','X','X','X','X','X'] ++ loadedFrom true foreignFile .a, Given sixLetters act) ∧
      ¬Private true false (exec (step longerName) (.start Bool [])
        (savedOnce false ['X','X','X','X','X','X'] ++ loadedFrom true foreignFile .a)).log := by
  refine ⟨fun act member => (List.mem_append.mp member).elim (savedGiven ?_ false act) (loadedGiven sixLetters true foreignFile .a act),?_⟩
  · exact ⟨rfl,by decide⟩
  · exact coveredLoads (by decide) (by decide)

end LibProc.CriticalShared
