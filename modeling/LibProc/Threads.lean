import LibProc.Runs
import Mathlib.Data.List.Nodup
import Mathlib.Logic.Function.Basic

/-! thread_function of proclib.c: a function runs in a thread of its own, and a byte in a pipe tells the
event loop to join the thread and to call back with what the function has returned. The threads and the
loop take their steps in any order, and a callback may start further threads. -/
namespace LibProc.Threads
open Runs

inductive Place where
  | working | writing | exiting | ended
  deriving DecidableEq

structure ThreadData where
  writeFd : Int
  readFd : Int
  cbFcn : Nat
  cbArg : Nat
  retval : Option Int
  place : Place

inductive End where
  | read (pipe : Nat)
  | write (pipe : Nat)
  deriving DecidableEq

def End.pipe : End → Nat
  | .read n => n
  | .write n => n

inductive Loop where
  | idle
  | joining (thread : Nat)
  | calling (thread : Nat)
  deriving DecidableEq

structure Called where
  thread : Nat
  cbFcn : Nat
  cbArg : Nat
  retval : Option Int

/- A thread has the number of its pipe, and none where it could not be started. `full` are the pipes with a
byte in them, `watches` what EVT_fd_add was told; `called` is newest first. -/
structure World where
  count : Nat
  thread : Nat → Option ThreadData
  full : Nat → Bool
  files : Int → Option End
  watches : Int → Option Nat
  loop : Loop
  called : List Called
  freed : List Nat

/- `pipe` is what pipe stores, `attr` and `created` whether the pthread calls succeed; `ret` is what the
function returns. `ready` is an event on a descriptor, `joined` the return of pthread_join and `ret` that of
the callback. -/
inductive Action where
  | create (cbFcn cbArg : Nat) (pipe : Option (Int × Int)) (attr created : Bool)
  | run (thread : Nat) (retval : Int)
  | ready (fd : Int)
  | joined
  | ret

/- The descriptors stay open where the thread is not created. -/
def threadFunction (w : World) (cbFcn cbArg : Nat) (pipe : Option (Int × Int)) (attr created : Bool) : World :=
  match pipe with
  | none => w
  | some (readFd,writeFd) =>
    let w' := {w with
      count := w.count + 1, files := Function.update (Function.update w.files readFd (some (.read w.count))) writeFd (some (.write w.count))}
    if attr && created then
      {w' with
        thread := Function.update w.thread w.count (some ⟨writeFd,readFd,cbFcn,cbArg,none,.working⟩),
        watches := Function.update w.watches readFd (some w.count)}
    else w'

def threadMain (w : World) (n : Nat) (retval : Int) : World :=
  match w.thread n with
  | none => w
  | some data =>
    let goes := fun data => {w with thread := Function.update w.thread n (some data)}
    match data.place with
    | .working => goes {data with retval := some retval, place := .writing}
    | .writing =>
      let w' := goes {data with place := .exiting}
      match w.files data.writeFd with
      | some (.write pipe) => {w' with full := Function.update w.full pipe true}
      | _ => w'
    | .exiting => goes {data with place := .ended}
    | .ended => w

def ready (w : World) (fd : Int) : World :=
  match w.watches fd with
  | none => w
  | some n => {w with loop := .joining n}

def joined (w : World) : World :=
  match w.loop with
  | .joining n => match w.thread n with
    | none => w
    | some data => {w with loop := .calling n, called := ⟨n,data.cbFcn,data.cbArg,data.retval⟩ :: w.called}
  | _ => w

def ret (w : World) : World :=
  match w.loop with
  | .calling n => match w.thread n with
    | none => w
    | some data =>
      {w with
        files := Function.update (Function.update w.files data.readFd none) data.writeFd none,
        watches := Function.update w.watches data.readFd none, loop := .idle, freed := n :: w.freed}
  | _ => w

def step (w : World) : Action → World
  | .create cbFcn cbArg pipe attr created => threadFunction w cbFcn cbArg pipe attr created
  | .run n retval => threadMain w n retval
  | .ready fd => ready w fd
  | .joined => joined w
  | .ret => ret w

def start : World := ⟨0,fun _ => none,fun _ => false,fun _ => none,fun _ => none,.idle,[],[]⟩

def Readable (w : World) (fd : Int) : Prop := ∃ n, w.files fd = some (.read n) ∧ w.full n = true

/- pipe opens descriptors that are not open. The thread of the event loop does nothing else while it is in
pthread_join, and the loop has no other event while it is in a callback. -/
def Legal (w : World) : Action → Prop
  | .create _ _ pipe _ _ => (∀ n, w.loop ≠ .joining n) ∧ ∀ fds ∈ pipe, fds.1 ≠ fds.2 ∧ w.files fds.1 = none ∧ w.files fds.2 = none
  | .run n _ => ∃ data, w.thread n = some data ∧ data.place ≠ .ended
  | .ready fd => w.loop = .idle ∧ w.watches fd ≠ none ∧ Readable w fd
  | .joined => ∃ n data, w.loop = .joining n ∧ w.thread n = some data ∧ data.place = .ended
  | .ret => ∃ n, w.loop = .calling n

/- The callback of each thread is called at most once, with what its function has returned; until then the
thread has its own two descriptors, behind it they are closed, and they are the only ones that are closed.
A thread that is over is not forgotten: its callback has been called, or the loop can go on to it. -/
structure Served (w : World) : Prop where
  once : (w.called.map Called.thread).Nodup
  told : ∀ c ∈ w.called, ∃ data, w.thread c.thread = some data ∧ data.place = .ended ∧ data.retval.isSome = true ∧
    c = ⟨c.thread,data.cbFcn,data.cbArg,data.retval⟩
  held : ∀ n data, w.thread n = some data → n ∉ w.freed →
    w.files data.readFd = some (.read n) ∧ w.files data.writeFd = some (.write n) ∧ w.watches data.readFd = some n
  closed : ∀ n ∈ w.freed, (∃ c ∈ w.called, c.thread = n) ∧ ∀ fd, w.files fd ≠ some (.read n) ∧ w.files fd ≠ some (.write n) ∧
    w.watches fd ≠ some n
  kept : ∀ n < w.count, w.thread n = none → ∃ readFd writeFd, w.files readFd = some (.read n) ∧ w.files writeFd = some (.write n)
  pending : ∀ n data, w.thread n = some data → data.place = .ended → (∀ c ∈ w.called, c.thread ≠ n) →
    w.loop = .idle → Legal w (.ready data.readFd)

structure Inv (w : World) : Prop where
  born : ∀ n data, w.thread n = some data → n < w.count
  unfilled : ∀ n, w.count ≤ n → w.full n = false
  filled : ∀ n data, w.thread n = some data → data.place = .exiting ∨ data.place = .ended → w.full n = true
  retval : ∀ n data, w.thread n = some data → data.place ≠ .working → data.retval.isSome = true
  held : ∀ n data, w.thread n = some data → n ∉ w.freed →
    w.files data.readFd = some (.read n) ∧ w.files data.writeFd = some (.write n) ∧ w.watches data.readFd = some n
  files : ∀ fd e, w.files fd = some e → e.pipe < w.count ∧ ∀ data, w.thread e.pipe = some data →
    e.pipe ∉ w.freed ∧ (e = .read e.pipe → fd = data.readFd) ∧ (e = .write e.pipe → fd = data.writeFd)
  watches : ∀ fd n, w.watches fd = some n → ∃ data, w.thread n = some data ∧ n ∉ w.freed ∧ data.readFd = fd
  kept : ∀ n < w.count, w.thread n = none → ∃ readFd writeFd, w.files readFd = some (.read n) ∧ w.files writeFd = some (.write n)
  told : ∀ c ∈ w.called, ∃ data, w.thread c.thread = some data ∧ data.place = .ended ∧
    c = ⟨c.thread,data.cbFcn,data.cbArg,data.retval⟩
  once : (w.called.map Called.thread).Nodup
  done : ∀ n, n ∈ w.called.map Called.thread ↔ n ∈ w.freed ∨ w.loop = .calling n
  current : ∀ n, w.loop = .joining n ∨ w.loop = .calling n → (∃ data, w.thread n = some data) ∧ n ∉ w.freed

section Steps
variable {w : World}

theorem startInv : Inv start where
  born := fun _ _ is => nomatch is
  unfilled := fun _ _ => rfl
  filled := fun _ _ is => nomatch is
  retval := fun _ _ is => nomatch is
  held := fun _ _ is => nomatch is
  files := fun _ _ is => nomatch is
  watches := fun _ _ is => nomatch is
  kept := fun _ below => absurd below (Nat.not_lt_zero _)
  told := fun _ member => nomatch member
  once := List.nodup_nil
  done := by
    intro n
    refine iff_of_false (fun member => nomatch member) ?_
    rintro (member | is)
    · cases member
    · cases is
  current := fun _ either => either.elim (fun is => nomatch is) fun is => nomatch is

theorem Inv.ended (inv : Inv w) {n : Nat} (freed : n ∈ w.freed) : ∃ data, w.thread n = some data ∧ data.place = .ended := by
  obtain ⟨c,member,rfl⟩ := List.mem_map.mp ((inv.done n).mpr (.inl freed))
  obtain ⟨data,there,ended,-⟩ := inv.told c member
  exact ⟨data,there,ended⟩

theorem Inv.unborn (inv : Inv w) : w.thread w.count = none := by
  cases there : w.thread w.count with
  | none => rfl
  | some data => exact absurd (inv.born _ _ there) (Nat.lt_irrefl _)

theorem Inv.unfreed (inv : Inv w) : w.count ∉ w.freed := by
  intro freed
  obtain ⟨data,there,-⟩ := inv.ended freed
  cases inv.unborn.symm.trans there

section Pipe
variable {readFd writeFd : Int} (apart : readFd ≠ writeFd) (readFree : w.files readFd = none) (writeFree : w.files writeFd = none)

def piped (w : World) (readFd writeFd : Int) : Int → Option End :=
  Function.update (Function.update w.files readFd (some (.read w.count))) writeFd (some (.write w.count))

theorem pipedWrite (w : World) (readFd writeFd : Int) : piped w readFd writeFd writeFd = some (.write w.count) := Function.update_self ..

include apart in
theorem pipedRead : piped w readFd writeFd readFd = some (.read w.count) := by
  rw [piped, Function.update_of_ne apart, Function.update_self]

include readFree writeFree in
theorem pipedKeeps {fd : Int} {e : End} (opened : w.files fd = some e) : piped w readFd writeFd fd = some e := by
  have notRead : fd ≠ readFd := by
    rintro rfl
    cases readFree.symm.trans opened
  have notWrite : fd ≠ writeFd := by
    rintro rfl
    cases writeFree.symm.trans opened
  rw [piped, Function.update_of_ne notWrite, Function.update_of_ne notRead]
  exact opened

theorem pipedIs {fd : Int} {e : End} (opened : piped w readFd writeFd fd = some e) :
    (fd = writeFd ∧ e = .write w.count) ∨ (fd = readFd ∧ e = .read w.count) ∨ w.files fd = some e := by
  by_cases write : fd = writeFd
  · subst write
    cases (pipedWrite w readFd fd).symm.trans opened
    exact .inl ⟨rfl,rfl⟩
  rw [piped, Function.update_of_ne write] at opened
  by_cases read : fd = readFd
  · subst read
    rw [Function.update_self] at opened
    cases opened
    exact .inr (.inl ⟨rfl,rfl⟩)
  · rw [Function.update_of_ne read] at opened
    exact .inr (.inr opened)

include apart readFree writeFree in
theorem Inv.leaks (inv : Inv w) : Inv {w with count := w.count + 1, files := piped w readFd writeFd} where
  born := fun n data there => Nat.lt_succ_of_lt (inv.born n data there)
  unfilled := fun n above => inv.unfilled n (Nat.le_of_succ_le above)
  filled := inv.filled
  retval := inv.retval
  held := by
    intro n data there live
    obtain ⟨read,write,watch⟩ := inv.held n data there live
    exact ⟨pipedKeeps readFree writeFree read,pipedKeeps readFree writeFree write,watch⟩
  files := by
    intro fd e opened
    have fresh : ∀ data, w.thread w.count = some data → False := fun data there => by cases inv.unborn.symm.trans there
    rcases pipedIs opened with ⟨-,rfl⟩ | ⟨-,rfl⟩ | before
    · exact ⟨Nat.lt_succ_self _,fun data there => (fresh data there).elim⟩
    · exact ⟨Nat.lt_succ_self _,fun data there => (fresh data there).elim⟩
    · obtain ⟨below,own⟩ := inv.files fd e before
      exact ⟨Nat.lt_succ_of_lt below,own⟩
  watches := inv.watches
  kept := by
    intro n below none_
    rcases Nat.lt_succ_iff_lt_or_eq.mp below with before | rfl
    · obtain ⟨read,write,isRead,isWrite⟩ := inv.kept n before none_
      exact ⟨read,write,pipedKeeps readFree writeFree isRead,pipedKeeps readFree writeFree isWrite⟩
    · exact ⟨readFd,writeFd,pipedRead apart,pipedWrite w readFd writeFd⟩
  told := inv.told
  once := inv.once
  done := inv.done
  current := inv.current

include apart readFree writeFree in
theorem Inv.starts (inv : Inv w) (cbFcn cbArg : Nat) : Inv {w with
    count := w.count + 1, files := piped w readFd writeFd,
    thread := Function.update w.thread w.count (some ⟨writeFd,readFd,cbFcn,cbArg,none,.working⟩),
    watches := Function.update w.watches readFd (some w.count)} := by
  let data : ThreadData := ⟨writeFd,readFd,cbFcn,cbArg,none,.working⟩
  have leaked := inv.leaks apart readFree writeFree
  have threads : ∀ n d, Function.update w.thread w.count (some data) n = some d → (n = w.count ∧ d = data) ∨ w.thread n = some d := by
    intro n d there
    by_cases same : n = w.count
    · subst same
      rw [Function.update_self] at there
      cases there
      exact .inl ⟨rfl,rfl⟩
    · rw [Function.update_of_ne same] at there
      exact .inr there
  have older : ∀ n d, w.thread n = some d → Function.update w.thread w.count (some data) n = some d := by
    intro n d there
    rw [Function.update_of_ne (Nat.ne_of_lt (inv.born n d there))]
    exact there
  have unwatched : ∀ n, w.watches readFd ≠ some n := by
    intro n watch
    obtain ⟨d,there,live,rfl⟩ := inv.watches readFd n watch
    cases readFree.symm.trans (inv.held n d there live).1
  refine ⟨?_,leaked.unfilled,?_,?_,?_,?_,?_,?_,?_,inv.once,inv.done,?_⟩
  · intro n d there
    rcases threads n d there with ⟨rfl,-⟩ | before
    · exact Nat.lt_succ_self _
    · exact leaked.born n d before
  · intro n d there exits
    rcases threads n d there with ⟨-,rfl⟩ | before
    · exact exits.elim (fun is => nomatch is) fun is => nomatch is
    · exact inv.filled n d before exits
  · intro n d there behind
    rcases threads n d there with ⟨-,rfl⟩ | before
    · exact absurd rfl behind
    · exact inv.retval n d before behind
  · intro n d there live
    rcases threads n d there with ⟨rfl,rfl⟩ | before
    · exact ⟨pipedRead apart,pipedWrite w readFd writeFd,Function.update_self ..⟩
    · obtain ⟨read,write,watch⟩ := leaked.held n d before live
      have other : d.readFd ≠ readFd := fun same => unwatched n (same ▸ watch)
      exact ⟨read,write,(Function.update_of_ne other ..).trans watch⟩
  · intro fd e opened
    obtain ⟨below,own⟩ := leaked.files fd e opened
    refine ⟨below,fun d there => ?_⟩
    rcases threads e.pipe d there with ⟨same,rfl⟩ | before
    · rw [same]
      refine ⟨inv.unfreed,?_⟩
      rcases pipedIs opened with ⟨rfl,rfl⟩ | ⟨rfl,rfl⟩ | earlier
      · exact ⟨(fun is => nomatch is),fun _ => rfl⟩
      · exact ⟨fun _ => rfl,fun is => nomatch is⟩
      · exact absurd (inv.files fd e earlier).1 (by omega)
    · exact own d before
  · intro fd n watch
    dsimp only at watch
    by_cases same : fd = readFd
    · subst same
      rw [Function.update_self] at watch
      cases watch
      exact ⟨data,Function.update_self ..,inv.unfreed,rfl⟩
    · rw [Function.update_of_ne same] at watch
      obtain ⟨d,there,live,is⟩ := inv.watches fd n watch
      exact ⟨d,older n d there,live,is⟩
  · intro n below none_
    dsimp only at none_
    refine leaked.kept n below ?_
    by_cases same : n = w.count
    · rw [same]
      exact inv.unborn
    · rw [Function.update_of_ne same] at none_
      exact none_
  · intro c member
    obtain ⟨d,there,told⟩ := inv.told c member
    exact ⟨d,older _ d there,told⟩
  · intro n current
    obtain ⟨⟨d,there⟩,live⟩ := inv.current n current
    exact ⟨⟨d,older n d there⟩,live⟩

end Pipe

theorem createKeeps (inv : Inv w) {cbFcn cbArg : Nat} {pipe : Option (Int × Int)} {attr created : Bool}
    (legal : Legal w (.create cbFcn cbArg pipe attr created)) : Inv (threadFunction w cbFcn cbArg pipe attr created) := by
  cases pipe with
  | none => exact inv
  | some fds =>
    obtain ⟨apart,readFree,writeFree⟩ := legal.2 fds rfl
    unfold threadFunction
    dsimp only
    split
    · exact inv.starts apart readFree writeFree cbFcn cbArg
    · exact inv.leaks apart readFree writeFree

theorem Inv.moves (inv : Inv w) {n : Nat} {data data' : ThreadData} (there : w.thread n = some data) (alive : data.place ≠ .ended)
    {full : Nat → Bool} (fds : data'.readFd = data.readFd ∧ data'.writeFd = data.writeFd)
    (result : data'.place ≠ .working → data'.retval.isSome = true)
    (fills : data'.place = .exiting ∨ data'.place = .ended → full n = true)
    (more : ∀ m, w.full m = true → full m = true) (only : ∀ m, full m = true → w.full m = true ∨ m = n) :
    Inv {w with thread := Function.update w.thread n (some data'), full := full} := by
  have threads : ∀ m d, Function.update w.thread n (some data') m = some d → (m = n ∧ d = data') ∨ m ≠ n ∧ w.thread m = some d := by
    intro m d is
    by_cases same : m = n
    · subst same
      rw [Function.update_self] at is
      cases is
      exact .inl ⟨rfl,rfl⟩
    · rw [Function.update_of_ne same] at is
      exact .inr ⟨same,is⟩
  have others : ∀ m d, w.thread m = some d → d.place = .ended → Function.update w.thread n (some data') m = some d := by
    intro m d is ended
    by_cases same : m = n
    · subst same
      cases there.symm.trans is
      exact absurd ended alive
    · rw [Function.update_of_ne same]
      exact is
  have some_ : ∀ m, (∃ d, w.thread m = some d) → ∃ d, Function.update w.thread n (some data') m = some d := by
    intro m is
    by_cases same : m = n
    · subst same
      exact ⟨_,Function.update_self ..⟩
    · rw [Function.update_of_ne same]
      exact is
  have below := inv.born n data there
  refine ⟨?_,?_,?_,?_,?_,?_,?_,?_,?_,inv.once,inv.done,?_⟩
  · intro m d is
    rcases threads m d is with ⟨rfl,-⟩ | ⟨-,before⟩
    · exact below
    · exact inv.born m d before
  · intro m above
    rw [Bool.eq_false_iff]
    intro full_
    rcases only m full_ with before | rfl
    · cases (inv.unfilled m above).symm.trans before
    · exact absurd below (Nat.not_lt.mpr above)
  · intro m d is exits
    rcases threads m d is with ⟨rfl,rfl⟩ | ⟨-,before⟩
    · exact fills exits
    · exact more m (inv.filled m d before exits)
  · intro m d is behind
    rcases threads m d is with ⟨-,rfl⟩ | ⟨-,before⟩
    · exact result behind
    · exact inv.retval m d before behind
  · intro m d is live
    rcases threads m d is with ⟨rfl,rfl⟩ | ⟨-,before⟩
    · dsimp only
      rw [fds.1, fds.2]
      exact inv.held m data there live
    · exact inv.held m d before live
  · intro fd e opened
    obtain ⟨inside,own⟩ := inv.files fd e opened
    refine ⟨inside,fun d is => ?_⟩
    rcases threads e.pipe d is with ⟨same,rfl⟩ | ⟨-,before⟩
    · rw [fds.1, fds.2]
      exact own data (same ▸ there)
    · exact own d before
  · intro fd m watch
    obtain ⟨d,is,live,readFd⟩ := inv.watches fd m watch
    by_cases same : m = n
    · subst same
      cases there.symm.trans is
      exact ⟨data',Function.update_self ..,live,fds.1.trans readFd⟩
    · exact ⟨d,(Function.update_of_ne same ..).trans is,live,readFd⟩
  · intro m inside none_
    refine inv.kept m inside ?_
    cases is : w.thread m with
    | none => rfl
    | some d =>
      obtain ⟨d',is'⟩ := some_ m ⟨d,is⟩
      cases none_.symm.trans is'
  · intro c member
    obtain ⟨d,is,ended,told⟩ := inv.told c member
    exact ⟨d,others c.thread d is ended,ended,told⟩
  · intro m current
    obtain ⟨is,live⟩ := inv.current m current
    exact ⟨some_ m is,live⟩

theorem runKeeps (inv : Inv w) {n : Nat} {retval : Int} (legal : Legal w (.run n retval)) : Inv (threadMain w n retval) := by
  obtain ⟨data,there,alive⟩ := legal
  have full : ∀ m, w.full m = true → w.full m = true ∨ m = n := fun m is => .inl is
  unfold threadMain
  rw [there]
  dsimp only
  cases place : data.place with
  | working =>
    exact inv.moves there alive ⟨rfl,rfl⟩ (fun _ => rfl) (fun exits => exits.elim (fun is => nomatch is) fun is => nomatch is) (fun _ is => is) full
  | writing =>
    have live : n ∉ w.freed := by
      intro freed
      obtain ⟨d,is,ended⟩ := inv.ended freed
      cases there.symm.trans is
      exact alive ended
    have result := inv.retval n data there (by rw [place]; exact Place.noConfusion)
    rw [(inv.held n data there live).2.1]
    refine inv.moves there alive ⟨rfl,rfl⟩ (fun _ => result) (fun _ => Function.update_self ..) (fun m is => ?_) fun m is => ?_
    · by_cases same : m = n
      · rw [same, Function.update_self]
      · rw [Function.update_of_ne same]
        exact is
    · by_cases same : m = n
      · exact .inr same
      · rw [Function.update_of_ne same] at is
        exact .inl is
  | exiting =>
    have result := inv.retval n data there (by rw [place]; exact Place.noConfusion)
    exact inv.moves there alive ⟨rfl,rfl⟩ (fun _ => result) (fun _ => inv.filled n data there (.inl place)) (fun _ is => is) full
  | ended => exact absurd place alive

theorem readyKeeps (inv : Inv w) {fd : Int} (legal : Legal w (.ready fd)) : Inv (ready w fd) := by
  obtain ⟨idle,watched,-⟩ := legal
  unfold ready
  cases watch : w.watches fd with
  | none => exact absurd watch watched
  | some n =>
    obtain ⟨data,there,live,-⟩ := inv.watches fd n watch
    refine {inv with done := fun m => ?_, current := fun m current => ?_}
    · rw [inv.done m, idle]
      exact or_congr_right (iff_of_false (fun is => nomatch is) fun is => nomatch is)
    · rcases current with is | is
      · cases is
        exact ⟨⟨data,there⟩,live⟩
      · cases is

theorem joinedKeeps (inv : Inv w) (legal : Legal w .joined) : Inv (joined w) := by
  obtain ⟨n,data,joins,there,ended⟩ := legal
  have live := (inv.current n (.inl joins)).2
  unfold joined
  rw [joins]
  dsimp only
  rw [there]
  dsimp only
  have fresh : n ∉ w.called.map Called.thread := by
    rw [inv.done n, joins]
    exact fun either => either.elim live fun is => nomatch is
  refine {inv with told := fun c member => ?_, once := ?_, done := fun m => ?_, current := fun m current => ?_}
  · rcases List.mem_cons.mp member with rfl | before
    · exact ⟨data,there,ended,rfl⟩
    · exact inv.told c before
  · rw [List.map_cons]
    exact List.nodup_cons.mpr ⟨fresh,inv.once⟩
  · rw [List.map_cons, List.mem_cons, inv.done m, joins]
    constructor
    · rintro (rfl | freed | is)
      · exact .inr rfl
      · exact .inl freed
      · cases is
    · rintro (freed | is)
      · exact .inr (.inl freed)
      · cases is
        exact .inl rfl
  · rcases current with is | is
    · cases is
    · cases is
      exact ⟨⟨data,there⟩,live⟩

theorem retKeeps (inv : Inv w) (legal : Legal w .ret) : Inv (ret w) := by
  obtain ⟨n,calls⟩ := legal
  obtain ⟨⟨data,there⟩,live⟩ := inv.current n (.inr calls)
  obtain ⟨read,write,watch⟩ := inv.held n data there live
  unfold ret
  rw [calls]
  dsimp only
  rw [there]
  dsimp only
  have closes : ∀ fd e, Function.update (Function.update w.files data.readFd none) data.writeFd none fd = some e →
      w.files fd = some e ∧ fd ≠ data.readFd ∧ fd ≠ data.writeFd := by
    intro fd e opened
    have notWrite : fd ≠ data.writeFd := by
      rintro rfl
      rw [Function.update_self] at opened
      cases opened
    rw [Function.update_of_ne notWrite] at opened
    have notRead : fd ≠ data.readFd := by
      rintro rfl
      rw [Function.update_self] at opened
      cases opened
    rw [Function.update_of_ne notRead] at opened
    exact ⟨opened,notRead,notWrite⟩
  have stays : ∀ fd e, w.files fd = some e → e ≠ .read n → e ≠ .write n →
      Function.update (Function.update w.files data.readFd none) data.writeFd none fd = some e := by
    intro fd e opened notRead notWrite
    rw [Function.update_of_ne, Function.update_of_ne]
    · exact opened
    · rintro rfl
      exact notRead (Option.some.inj (opened.symm.trans read))
    · rintro rfl
      exact notWrite (Option.some.inj (opened.symm.trans write))
  have other : ∀ m d, w.thread m = some d → m ∉ n :: w.freed → m ≠ n ∧ m ∉ w.freed := by
    intro m d _ live'
    exact ⟨fun same => live' (same ▸ List.mem_cons_self),fun freed => live' (List.mem_cons_of_mem _ freed)⟩
  have apart : ∀ m d, w.thread m = some d → m ≠ n → m ∉ w.freed → d.readFd ≠ data.readFd := by
    intro m d is ne live' same
    have watch' := (inv.held m d is live').2.2
    rw [same, watch] at watch'
    exact ne (Option.some.inj watch').symm
  refine ⟨inv.born,inv.unfilled,inv.filled,inv.retval,?_,?_,?_,?_,inv.told,inv.once,?_,?_⟩
  · intro m d is live'
    obtain ⟨ne,live'⟩ := other m d is live'
    obtain ⟨read',write',watch'⟩ := inv.held m d is live'
    refine ⟨stays _ _ read' ?_ (fun is => nomatch is),stays _ _ write' (fun is => nomatch is) ?_,?_⟩
    · rintro ⟨⟩
      exact ne rfl
    · rintro ⟨⟩
      exact ne rfl
    · exact (Function.update_of_ne (apart m d is ne live') ..).trans watch'
  · intro fd e opened
    obtain ⟨before,notRead,notWrite⟩ := closes fd e opened
    obtain ⟨below,own⟩ := inv.files fd e before
    refine ⟨below,fun d is => ?_⟩
    obtain ⟨live',ends⟩ := own d is
    refine ⟨?_,ends⟩
    rw [List.mem_cons]
    rintro (same | freed)
    · have is : data = d := Option.some.inj (there.symm.trans (same ▸ is))
      subst is
      cases e with
      | read m => exact notRead (ends.1 rfl)
      | write m => exact notWrite (ends.2 rfl)
    · exact live' freed
  · intro fd m watch'
    dsimp only at watch'
    have notRead : fd ≠ data.readFd := by
      rintro rfl
      rw [Function.update_self] at watch'
      cases watch'
    rw [Function.update_of_ne notRead] at watch'
    obtain ⟨d,is,live',readFd⟩ := inv.watches fd m watch'
    refine ⟨d,is,?_,readFd⟩
    rw [List.mem_cons]
    rintro (rfl | freed)
    · cases there.symm.trans is
      exact notRead readFd.symm
    · exact live' freed
  · intro m below none_
    obtain ⟨readFd,writeFd,isRead,isWrite⟩ := inv.kept m below none_
    have ne : m ≠ n := by
      rintro rfl
      cases none_.symm.trans there
    refine ⟨readFd,writeFd,stays _ _ isRead ?_ (fun is => nomatch is),stays _ _ isWrite (fun is => nomatch is) ?_⟩
    · rintro ⟨⟩
      exact ne rfl
    · rintro ⟨⟩
      exact ne rfl
  · intro m
    rw [inv.done m, calls, List.mem_cons]
    constructor
    · rintro (freed | is)
      · exact .inl (.inr freed)
      · cases is
        exact .inl (.inl rfl)
    · rintro ((rfl | freed) | is)
      · exact .inr rfl
      · exact .inl freed
      · cases is
  · rintro m (is | is)
    · cases is
    · cases is

theorem stepKeeps (inv : Inv w) {a : Action} (legal : Legal w a) : Inv (step w a) := by
  cases a with
  | create => exact createKeeps inv legal
  | run => exact runKeeps inv legal
  | ready => exact readyKeeps inv legal
  | joined => exact joinedKeeps inv legal
  | ret => exact retKeeps inv legal

theorem Inv.shut (inv : Inv w) {n : Nat} (freed : n ∈ w.freed) (fd : Int) :
    w.files fd ≠ some (.read n) ∧ w.files fd ≠ some (.write n) ∧ w.watches fd ≠ some n := by
  obtain ⟨data,there,-⟩ := inv.ended freed
  refine ⟨fun opened => ?_,fun opened => ?_,fun watch => ?_⟩
  · exact ((inv.files fd _ opened).2 data there).1 freed
  · exact ((inv.files fd _ opened).2 data there).1 freed
  · obtain ⟨-,-,live,-⟩ := inv.watches fd n watch
    exact live freed

theorem Inv.serves (inv : Inv w) : Served w where
  once := inv.once
  told := by
    intro c member
    obtain ⟨data,there,ended,is⟩ := inv.told c member
    exact ⟨data,there,ended,inv.retval _ data there (by rw [ended]; exact Place.noConfusion),is⟩
  held := inv.held
  closed := by
    intro n freed
    obtain ⟨c,member,is⟩ := List.mem_map.mp ((inv.done n).mpr (.inl freed))
    exact ⟨⟨c,member,is⟩,inv.shut freed⟩
  kept := inv.kept
  pending := by
    intro n data there ended uncalled idle
    have live : n ∉ w.freed := by
      intro freed
      obtain ⟨c,member,is⟩ := List.mem_map.mp ((inv.done n).mpr (.inl freed))
      exact uncalled c member is
    obtain ⟨read,-,watch⟩ := inv.held n data there live
    refine ⟨idle,?_,n,read,inv.filled n data there (.inr ended)⟩
    rw [watch]
    exact Option.some_ne_none n

end Steps

/- In every order in which the threads and the event loop take their steps, the callback of a thread is called
once, after its function has returned and with what it has returned. -/
theorem threadsServed (acts : List Action) (legal : Along step Legal start acts) : Served (exec step start acts) := by
  have keep : ∀ w a, Inv w → Legal w a → Inv (step w a) := fun w a inv ok => stepKeeps inv ok
  have inv : Inv (exec step start acts) := legal.invariant keep startInv
  exact inv.serves

def sampleActions : List Action :=
  [.create 1 7 (some (3,4)) true true,.create 2 8 (some (5,6)) true true,.run 1 (-1),.run 0 9,.run 1 0,.ready 5,.run 1 0,.joined,
    .create 3 9 (some (7,8)) true true,.create 4 9 (some (9,10)) true false,.ret,
    .create 5 9 (some (5,6)) true true,.run 0 0,.run 0 0,.ready 3,.joined,.ret]

theorem threadsSample : Along step Legal start sampleActions ∧ Served (exec step start sampleActions) := by
  have legal : Along step Legal start sampleActions := by
    simp [sampleActions,Along,Legal,Readable,step,threadFunction,threadMain,ready,joined,ret,start,Function.update]
  exact ⟨legal,threadsServed sampleActions legal⟩

end LibProc.Threads
