import LibProc.CrashLogic
import LibProc.Md5
import LibProc.Runs

/-! The critical state of critical.c: a process keeps 224 bytes in memory and in files, two
replicas of four copies each, and every save writes new files under a higher version. The
file operations of a save and of a cleanup are answered one by one, and the process may
die before any of them; a load only reads, so its faults come with the listing it sees. -/
namespace LibProc.Critical
open XdrBytes Md5 CrashLogic

abbrev Bytes := List Byte
abbrev Name := List Char

def numCopies : Nat := 4
def cleanupInterval : Nat := 6
def criticalStateMaxLen : Nat := 224
def entryLen : Nat := 256

inductive Replica where
  | a
  | b
  deriving DecidableEq, Repr

def Replica.all : List Replica := [.a,.b]

def Replica.letter : Replica → Char
  | .a => 'a'
  | .b => 'b'

structure File where
  name : Name
  bytes : Bytes
  deriving DecidableEq, Repr

def csPrefix (name : Name) (i : Replica) : Name :=
  ['c','r','i','t','-','s','t','a','t','e','-'] ++ name ++ ['.',i.letter,'.']

def dotName (file : Name) : Bool := file.head?.all (· == '.')

def belongs (name : Name) (i : Replica) (file : Name) : Bool :=
  !dotName file && (csPrefix name i).isPrefixOf file

structure CSFileState where
  currFile : Option Name
  generation : Nat
  deriving DecidableEq, Repr

structure CSState where
  stateVersion : BitVec 64
  name : Name
  dirty : Bool
  files : Replica → CSFileState
  state : Bytes
  md5 : Bytes

def entryHead (version : BitVec 64) (state : Bytes) : Bytes :=
  beBytes64 version ++ List.replicate 8 0 ++ state

def entryBytes (version : BitVec 64) (state : Bytes) : Bytes :=
  entryHead version state ++ Md5.md5 (entryHead version state)

def parseEntry (chunk : Bytes) : Option (BitVec 64 × Bytes) :=
  if Md5.md5 (chunk.take 240) = chunk.drop 240 then
    some (join (beWord (chunk.take 4)) (beWord ((chunk.drop 4).take 4)),(chunk.drop 16).take criticalStateMaxLen)
  else none

def processCriticalEntry (cs : CSState) (chunk : Bytes) : CSState × Int :=
  match parseEntry chunk with
  | none => (cs,0)
  | some (seq,state) =>
    if seq < cs.stateVersion then (cs,0)
    else if seq = cs.stateVersion then (cs,1)
    else ({ cs with stateVersion := seq, state := state, md5 := Md5.md5 state },1)

/- What the reads of a file return before the short one or the end. -/
def chunkAt (bytes : Bytes) (k : Nat) : Bytes := (bytes.drop (entryLen * k)).take entryLen

def chunks (bytes : Bytes) : List Bytes := (List.range (bytes.length / entryLen)).map (chunkAt bytes)

def processChunk (acc : CSState × Int) (chunk : Bytes) : CSState × Int :=
  let out := processCriticalEntry acc.1 chunk
  (out.1,if out.2 ≠ 0 then 1 else acc.2)

def processChunks (cs : CSState) (list : List Bytes) : CSState × Int := list.foldl processChunk (cs,0)

inductive Scan where
  | whole
  | noOpen
  | error (reads errno : Nat)
  deriving DecidableEq, Repr

def loadCriticalStateFile (cs : CSState) (bytes : Bytes) : Scan → CSState × Int
  | .whole => processChunks cs (chunks bytes)
  | .noOpen => (cs,-1)
  | .error reads errno => ((processChunks cs ((chunks bytes).take reads)).1,-(errno : Int))

abbrev Listing := Option (List (File × Scan))

def listed (disk : List File) : Listing → List (File × Scan)
  | none => []
  | some order => if (order.map Prod.fst).isPerm disk then order else []

def CSState.setCurr (cs : CSState) (i : Replica) (file : Name) : CSState :=
  { cs with files := Function.update cs.files i { cs.files i with currFile := some file } }

def loadEntry (i : Replica) (cs : CSState) (entry : File × Scan) : CSState :=
  if belongs cs.name i entry.1.name then
    let out := loadCriticalStateFile cs entry.1.bytes entry.2
    if 0 < out.2 then out.1.setCurr i entry.1.name else out.1
  else cs

def loadCriticalStateDirectory (disk : List File) (listings : Replica → Listing) (cs : CSState) (i : Replica) :
    CSState :=
  (listed disk (listings i)).foldl (loadEntry i) cs

/- Whatever the directories do, this returns 0 in the source. -/
def loadCriticalState (disk : List File) (listings : Replica → Listing) (cs : CSState) : CSState :=
  { Replica.all.foldl (loadCriticalStateDirectory disk listings) { cs with stateVersion := 0 } with dirty := false }

inductive Answer where
  | created (suffix : Name)
  | wrote (count : Nat)
  | order (names : List Name)
  | failed
  | done
  deriving DecidableEq, Repr

structure Machine where
  disk : List File
  cs : CSState

abbrev Op := Prog Answer Machine

def Machine.names (machine : Machine) : List Name := machine.disk.map File.name

def Machine.without (machine : Machine) (file : Name) : Machine :=
  { machine with disk := machine.disk.filter fun f => f.name ≠ file }

def unlink (file : Name) : Op Unit := do
  let _ ← answer
  change fun machine => machine.without file

def unlinkAll : List Name → Op Unit
  | [] => pure ()
  | file :: rest => do
    unlink file
    unlinkAll rest

def Machine.setGeneration (machine : Machine) (i : Replica) (generation : Nat) : Machine :=
  { machine with cs := { machine.cs with
      files := Function.update machine.cs.files i { machine.cs.files i with generation := generation } } }

/- The list is built head first, so the last file listed goes first. -/
def cleanupOldState (i : Replica) : Op Unit := do
  let machine ← state
  match (machine.cs.files i).currFile with
  | none => pure ()
  | some curr =>
    match ← answer with
    | .order names =>
      if names.isPerm machine.names then do
        unlinkAll (names.filter fun file => belongs machine.cs.name i file && file ≠ curr).reverse
        change fun machine => machine.setGeneration i 0
      else pure ()
    | _ => pure ()

def Machine.append (machine : Machine) (file : Name) (bytes : Bytes) : Machine :=
  { machine with disk := machine.disk.map fun f =>
      if f.name = file then { f with bytes := f.bytes ++ bytes } else f }

def writeCopies (file : Name) (ent : Bytes) : Nat → Op Bool
  | 0 => pure true
  | left + 1 => do
    match ← answer with
    | .wrote count =>
      change fun machine => machine.append file (ent.take count)
      if ent.length ≤ count then writeCopies file ent left else pure false
    | _ => pure false

def Machine.create (machine : Machine) (file : Name) : Machine :=
  { machine with disk := machine.disk ++ [⟨file,[]⟩] }

def Machine.publish (machine : Machine) (i : Replica) (file : Name) : Machine :=
  let published := { machine with cs := machine.cs.setCurr i file }
  published.setGeneration i ((published.cs.files i).generation + 1)

def finishFile (i : Replica) (file : Name) : Op Int := do
  change fun machine => machine.publish i file
  let machine ← state
  if cleanupInterval < (machine.cs.files i).generation then
    cleanupOldState i
    pure 0
  else pure 0

def fillFile (i : Replica) (file : Name) (ent : Bytes) : Op Int := do
  change fun machine => machine.create file
  if ← writeCopies file ent numCopies then finishFile i file
  else do
    unlink file
    pure (-2)

def writeCsFile (i : Replica) (ent : Bytes) : Op Int := do
  match ← answer with
  | .created suffix =>
    let machine ← state
    let file := csPrefix machine.cs.name i ++ suffix
    if file ∈ machine.names then pure (-1) else fillFile i file ent
  | _ => pure (-1)

inductive Handle where
  | null
  | notSat
  | proc
  deriving DecidableEq, Repr

def zeroFilled (bytes : Bytes) : Bytes := bytes ++ List.replicate (criticalStateMaxLen - bytes.length) 0

def CSState.cache (cs : CSState) (state : Bytes) : CSState := { cs with state := state, md5 := Md5.md5 state }

def writeReplicas (ent : Bytes) : List Replica → Op Bool
  | [] => pure true
  | i :: rest => do
    if (← writeCsFile i ent) < 0 then
      if i = .a then pure false
      else do
        change fun machine => { machine with cs := { machine.cs with dirty := true } }
        writeReplicas ent rest
    else writeReplicas ent rest

def storeState (body : Bytes) (len : Int) : Op Int := do
  change fun machine => { machine with cs := { machine.cs with stateVersion := machine.cs.stateVersion + 1 } }
  let machine ← state
  if ← writeReplicas (entryBytes machine.cs.stateVersion body) Replica.all then
    change fun machine => { machine with cs := machine.cs.cache body }
    pure len
  else pure (-3)

def procSaveCriticalState (handle : Handle) (data : Bytes) (len : Int) : Op Int :=
  if len ≤ 0 ∨ criticalStateMaxLen < len then pure (-1)
  else
    match handle with
    | .null => pure (-2)
    | .notSat => pure (-10)
    | .proc => storeState (zeroFilled (data.take len.toNat)) len

def procReadCriticalState (handle : Handle) (disk : List File) (first second : Replica → Listing) (cs : CSState)
    (len : Nat) : CSState × Int × Bytes :=
  match handle with
  | .null => (cs,-10,[])
  | .notSat => (cs,-10,[])
  | .proc =>
    let fresh := if cs.dirty then loadCriticalState disk first cs else cs
    if fresh.dirty then (fresh,-2,[])
    else
      let checked := if Md5.md5 fresh.state ≠ fresh.md5 then loadCriticalState disk second fresh else fresh
      if Md5.md5 checked.state ≠ checked.md5 then (checked,-4,[])
      else
        let count := min len criticalStateMaxLen
        (checked,count,checked.state.take count)

def freshState (name : Name) : CSState :=
  ⟨0,name,false,fun _ => ⟨none,0⟩,List.replicate criticalStateMaxLen 0,List.replicate 16 0⟩

def criticalStateInit (name : Name) (listings : Replica → Listing) : Op Unit := do
  change fun machine => { machine with cs := loadCriticalState machine.disk listings (freshState name) }
  cleanupOldState .a
  cleanupOldState .b

def criticalStateCleanup : Op Unit := do
  cleanupOldState .a
  cleanupOldState .b

/- A run: one process name, the directory, and the memory of the process while it lives.
`committed` is what the last successful save stored or the last recovery found, `underway`
the save that was running when the process died. -/
inductive Observation where
  | saved (result : Int) (before after : Int × Bytes)
  | readBack (handle : Handle) (result : Int) (bytes : Bytes) (len : Nat) (committed : Option Bytes)
  | recovered (state : Bytes) (committed underway : Option Bytes)
  deriving DecidableEq, Repr

structure World where
  disk : List File
  cs : Option CSState
  committed : Option Bytes
  underway : Option Bytes
  log : List Observation

inductive Event where
  | boot (listings : Replica → Listing) (script : List Answer)
  | save (handle : Handle) (data : Bytes) (len : Int) (script : List Answer)
  | read (handle : Handle) (first second : Replica → Listing) (len : Nat)
  | shutdown (script : List Answer)
  | crash

def faultless (disk : List File) : Replica → Listing := fun _ => some (disk.map fun file => (file,.whole))

def whatReadReturns (disk : List File) (cs : CSState) : Int × Bytes :=
  (procReadCriticalState .proc disk (faultless disk) (faultless disk) cs criticalStateMaxLen).2

def boot (name : Name) (world : World) (listings : Replica → Listing) (script : List Answer) : World :=
  let out := criticalStateInit name listings ⟨world.disk,freshState name⟩ script
  match out.2 with
  | none => { world with disk := out.1.disk }
  | some _ =>
    { disk := out.1.disk, cs := some out.1.cs
      committed := if out.1.cs.stateVersion = 0 then world.committed else some out.1.cs.state
      underway := none
      log := .recovered out.1.cs.state world.committed world.underway :: world.log }

def save (world : World) (cs : CSState) (handle : Handle) (data : Bytes) (len : Int) (script : List Answer) :
    World :=
  let out := procSaveCriticalState handle data len ⟨world.disk,cs⟩ script
  let body := zeroFilled (data.take len.toNat)
  match out.2 with
  | none => { world with disk := out.1.disk, cs := none, underway := some body }
  | some (result,_) =>
    { world with
      disk := out.1.disk, cs := some out.1.cs
      committed := if 0 ≤ result then some body else world.committed
      log := .saved result (whatReadReturns world.disk cs) (whatReadReturns out.1.disk out.1.cs) :: world.log }

def read (world : World) (cs : CSState) (handle : Handle) (first second : Replica → Listing) (len : Nat) :
    World :=
  let out := procReadCriticalState handle world.disk first second cs len
  { world with
    cs := some out.1, log := .readBack handle out.2.1 out.2.2 len world.committed :: world.log }

def step (name : Name) (world : World) (event : Event) : World :=
  match world.cs,event with
  | none,.boot listings script => boot name world listings script
  | some cs,.save handle data len script => save world cs handle data len script
  | some cs,.read handle first second len => read world cs handle first second len
  | some cs,.shutdown script =>
    { world with disk := (criticalStateCleanup ⟨world.disk,cs⟩ script).1.disk, cs := none }
  | some _,.crash => { world with cs := none }
  | _,_ => world

end LibProc.Critical
