import LibProc.KeyValues
import LibProc.Runs
import Mathlib.Logic.Function.Basic

/-! The files that tell which processes there are: `<pid>.proc` has the name of a process, and `<name>.pid` its
number. PROC_init_xdr_hashsize removes what an earlier process of the name has left and writes both, PROC_cleanup
removes them; the processes take these steps in any order, and may crash. -/
namespace LibProc.ProcFiles
open Config (Text)
open KeyValues (natText numeral numeralDigits signedOf)
open ParseCmd (isspace)
open Runs

/- What a process does next: read the .pid file, look at the .proc file of the number in it, unlink that, write
its two files; unlink them. -/
inductive Place where
  | reading
  | checking (old : Nat)
  | unlinking (old : Nat)
  | writingProc
  | writingPid
  | running
  | removingProc
  | removingPid

structure Proc where
  name : Text
  place : Place

/- The texts of the files, and the processes by number. `crashed` is what never reached the end of PROC_cleanup. -/
structure World where
  procFile : Nat → Option Text
  pidFile : Text → Option Text
  alive : Nat → Option Proc
  crashed : List (Nat × Text)

inductive Action where
  | start (pid : Nat) (name : Text)
  | next (pid : Nat)
  | close (pid : Nat)
  | crash (pid : Nat)

def scanPid (content : Text) : Int := ((numeral 10 content).map fun number => (BitVec.ofInt 32 (signedOf number)).toInt).getD (-1)

def scanWord (content : Text) : Text := (content.dropWhile isspace).takeWhile fun c => !isspace c

def World.goes (w : World) (pid : Nat) (name : Text) (place : Place) : World :=
  {w with alive := Function.update w.alive pid (some ⟨name,place⟩)}

def next (w : World) (pid : Nat) : World :=
  match w.alive pid with
  | none => w
  | some ⟨name,place⟩ => match place with
    | .reading => match w.pidFile name with
      | none => w.goes pid name .writingProc
      | some content => w.goes pid name (if 1 < scanPid content then .checking (scanPid content).toNat else .writingProc)
    | .checking old => match w.procFile old with
      | none => w.goes pid name .writingProc
      | some content => w.goes pid name (if scanWord content = name then .unlinking old else .writingProc)
    | .unlinking old => {w.goes pid name .writingProc with procFile := Function.update w.procFile old none}
    | .writingProc => {w.goes pid name .writingPid with procFile := Function.update w.procFile pid (some name)}
    | .writingPid => {w.goes pid name .running with pidFile := Function.update w.pidFile name (some (natText pid))}
    | .running => w
    | .removingProc => {w.goes pid name .removingPid with procFile := Function.update w.procFile pid none}
    | .removingPid => {w with pidFile := Function.update w.pidFile name none, alive := Function.update w.alive pid none}

def step (w : World) : Action → World
  | .start pid name => w.goes pid name .reading
  | .next pid => next w pid
  | .close pid => match w.alive pid with
    | none => w
    | some p => w.goes pid p.name .removingProc
  | .crash pid => match w.alive pid with
    | none => w
    | some p => {w with alive := Function.update w.alive pid none, crashed := (pid,p.name) :: w.crashed}

def start : World := ⟨fun _ => none,fun _ => none,fun _ => none,[]⟩

structure Word (name : Text) : Prop where
  some_ : name ≠ []
  solid : ∀ c ∈ name, isspace c = false
  plain : '/' ∉ name
  short : name.length ≤ 66

def Numbered (pid : Nat) : Prop := 1 < pid ∧ pid < 2 ^ 31

/- A number is given to one process at a time, and to none between the look at its .proc file and its removal;
there is one process of a name at a time, and none crashes between its two files. -/
def Legal (w : World) : Action → Prop
  | .start pid name => Word name ∧ Numbered pid ∧ w.alive pid = none ∧ ∀ q p, w.alive q = some p → p.name ≠ name
  | .next pid => ∀ name old, w.alive pid = some ⟨name,.unlinking old⟩ → w.alive old ≠ none → old = pid
  | .close pid => ∀ p, w.alive pid = some p → p.place = .running
  | .crash pid => ∀ p, w.alive pid = some p → p.place ≠ .writingPid

/- A process that runs has its files, no name has two .proc files, and what no process has is from a crash. -/
structure Registered (w : World) : Prop where
  running : ∀ pid name, w.alive pid = some ⟨name,.running⟩ → w.procFile pid = some name ∧ w.pidFile name = some (natText pid)
  single : ∀ pid pid' name, w.procFile pid = some name → w.procFile pid' = some name → pid = pid'
  procs : ∀ pid name, w.procFile pid = some name → (∃ place, w.alive pid = some ⟨name,place⟩) ∨ (pid,name) ∈ w.crashed
  pids : ∀ name content, w.pidFile name = some content → ∃ pid, content = natText pid ∧
    ((∃ place, w.alive pid = some ⟨name,place⟩) ∨ (pid,name) ∈ w.crashed)

def Stands (w : World) (pid : Nat) (name : Text) : Place → Prop
  | .reading => True
  | .checking old => w.pidFile name = some (natText old)
  | .unlinking old => w.pidFile name = some (natText old)
  | .writingProc => ∀ q, w.procFile q ≠ some name
  | .writingPid => w.procFile pid = some name ∧ ∀ q, w.procFile q = some name → q = pid
  | .running => w.procFile pid = some name ∧ w.pidFile name = some (natText pid)
  | .removingProc => w.procFile pid = some name ∧ w.pidFile name = some (natText pid)
  | .removingPid => w.pidFile name = some (natText pid) ∧ ∀ q, w.procFile q ≠ some name

structure Inv (w : World) : Prop where
  named : ∀ pid p, w.alive pid = some p → Word p.name ∧ Numbered pid
  apart : ∀ pid pid' p p', w.alive pid = some p → w.alive pid' = some p' → p.name = p'.name → pid = pid'
  stands : ∀ pid p, w.alive pid = some p → Stands w pid p.name p.place
  claims : ∀ pid name, w.procFile pid = some name → w.pidFile name = some (natText pid) ∨ w.alive pid = some ⟨name,.writingPid⟩
  procs : ∀ pid name, w.procFile pid = some name → Word name ∧ ((∃ place, w.alive pid = some ⟨name,place⟩) ∨ (pid,name) ∈ w.crashed)
  pids : ∀ name content, w.pidFile name = some content → ∃ pid, content = natText pid ∧ Numbered pid ∧
    ((∃ place, w.alive pid = some ⟨name,place⟩) ∨ (pid,name) ∈ w.crashed)

section Steps
variable {w : World} {pid : Nat} {name : Text} {place place' : Place}

theorem natTextInj {n m : Nat} (same : natText n = natText m) : n = m := by
  have value := congrArg (fun text => Nat.ofDigitChars 10 text 0) same
  simpa [natText] using value

theorem scanNumber (numbered : Numbered pid) : scanPid (natText pid) = pid := by
  obtain ⟨-,high⟩ := numbered
  have value : signedOf (false,pid) = pid := by
    rw [signedOf, if_neg (by simp)]
    omega
  rw [scanPid, numeralDigits (.inr rfl), Option.map_some, value, Option.getD_some, BitVec.ofInt_natCast]
  exact Xdr.lengthWord high

theorem scanName (word : Word name) : scanWord name = name := by
  have solid : ∀ c ∈ name, (!isspace c) = true := fun c inside => by rw [word.solid c inside]; rfl
  obtain ⟨c,rest,is⟩ := List.exists_cons_of_ne_nil word.some_
  have first : name.dropWhile isspace = name := by
    rw [is, List.dropWhile_cons, word.solid c (by rw [is]; exact List.mem_cons_self)]
    rfl
  rw [scanWord, first, List.takeWhile_eq_self_iff.mpr solid]

theorem Stands.frame {w' : World} (stands : Stands w pid name place) (own : w'.procFile pid = w.procFile pid)
    (less : ∀ q, w'.procFile q = some name → w.procFile q = some name) (same : w'.pidFile name = w.pidFile name) :
    Stands w' pid name place := by
  cases place with
  | reading => trivial
  | checking | unlinking => exact same.trans stands
  | writingProc => exact fun q is => stands q (less q is)
  | writingPid => exact ⟨own.trans stands.1,fun q is => stands.2 q (less q is)⟩
  | running | removingProc => exact ⟨own.trans stands.1,same.trans stands.2⟩
  | removingPid => exact ⟨same.trans stands.1,fun q is => stands.2 q (less q is)⟩

theorem Inv.start : Inv start :=
  ⟨(fun _ _ is => nomatch is),(fun _ _ _ _ is => nomatch is),(fun _ _ is => nomatch is),(fun _ _ is => nomatch is),
    (fun _ _ is => nomatch is),fun _ _ is => nomatch is⟩

theorem Inv.moves (inv : Inv w) (is : w.alive pid = some ⟨name,place⟩) {procFile : Nat → Option Text} {pidFile : Text → Option Text}
    (own : ∀ q, q ≠ pid → w.alive q ≠ none → procFile q = w.procFile q)
    (less : ∀ q m, procFile q = some m → w.procFile q = some m ∨ q = pid ∧ m = name)
    (same : ∀ m, m ≠ name → pidFile m = w.pidFile m)
    (mine : ∀ content, pidFile name = some content → w.pidFile name = some content ∨ content = natText pid)
    (stands : Stands ⟨procFile,pidFile,w.alive,w.crashed⟩ pid name place')
    (claims : ∀ q, procFile q = some name → pidFile name = some (natText q) ∨ q = pid ∧ place' = .writingPid) :
    Inv ⟨procFile,pidFile,Function.update w.alive pid (some ⟨name,place'⟩),w.crashed⟩ := by
  have threads : ∀ q p, Function.update w.alive pid (some ⟨name,place'⟩) q = some p →
      (q = pid ∧ p = ⟨name,place'⟩) ∨ q ≠ pid ∧ w.alive q = some p := by
    intro q p there
    by_cases equal : q = pid
    · subst equal
      rw [Function.update_self] at there
      cases there
      exact .inl ⟨rfl,rfl⟩
    · rw [Function.update_of_ne equal] at there
      exact .inr ⟨equal,there⟩
  have stays : ∀ q m, (∃ place, w.alive q = some ⟨m,place⟩) →
      ∃ place, Function.update w.alive pid (some ⟨name,place'⟩) q = some ⟨m,place⟩ := by
    rintro q m ⟨place,there⟩
    by_cases equal : q = pid
    · subst equal
      cases is.symm.trans there
      exact ⟨place',Function.update_self ..⟩
    · exact ⟨place,(Function.update_of_ne equal ..).trans there⟩
  have others : ∀ q p, q ≠ pid → w.alive q = some p → p.name ≠ name := fun q p differs there equal =>
    differs (inv.apart q pid p _ there is equal)
  obtain ⟨word,numbered⟩ := inv.named pid _ is
  refine ⟨?_,?_,?_,?_,?_,?_⟩
  · intro q p there
    rcases threads q p there with ⟨rfl,rfl⟩ | ⟨-,before⟩
    · exact ⟨word,numbered⟩
    · exact inv.named q p before
  · intro q q' p p' there there' equal
    rcases threads q p there with ⟨rfl,rfl⟩ | ⟨differs,before⟩
    · rcases threads q' p' there' with ⟨rfl,rfl⟩ | ⟨differs',before'⟩
      · rfl
      · exact absurd equal.symm (others q' p' differs' before')
    · rcases threads q' p' there' with ⟨rfl,rfl⟩ | ⟨-,before'⟩
      · exact absurd equal (others q p differs before)
      · exact inv.apart q q' p p' before before' equal
  · intro q p there
    rcases threads q p there with ⟨rfl,rfl⟩ | ⟨differs,before⟩
    · exact stands.frame rfl (fun _ is => is) rfl
    · have other := others q p differs before
      refine (inv.stands q p before).frame (own q differs (by rw [before]; exact Option.some_ne_none p)) (fun x named => ?_) (same p.name other)
      exact (less x p.name named).resolve_right fun both => other both.2
  · intro q m named
    by_cases equal : m = name
    · subst equal
      rcases claims q named with file | ⟨rfl,rfl⟩
      · exact .inl file
      · exact .inr (Function.update_self ..)
    · rcases inv.claims q m ((less q m named).resolve_right fun both => equal both.2) with file | writing
      · exact .inl ((same m equal).trans file)
      · have differs : q ≠ pid := by
          rintro rfl
          cases is.symm.trans writing
          exact equal rfl
        exact .inr ((Function.update_of_ne differs ..).trans writing)
  · intro q m named
    rcases less q m named with before | ⟨rfl,rfl⟩
    · obtain ⟨good,either⟩ := inv.procs q m before
      exact ⟨good,either.imp_left (stays q m)⟩
    · exact ⟨word,.inl ⟨place',Function.update_self ..⟩⟩
  · intro m content named
    have before : w.pidFile m = some content ∨ m = name ∧ content = natText pid := by
      by_cases equal : m = name
      · subst equal
        exact (mine content named).imp_right fun here => ⟨rfl,here⟩
      · exact .inl ((same m equal).symm.trans named)
    rcases before with before | ⟨rfl,rfl⟩
    · obtain ⟨q,here,good,either⟩ := inv.pids m content before
      exact ⟨q,here,good,either.imp_left (stays q m)⟩
    · exact ⟨pid,rfl,numbered,.inl ⟨place',Function.update_self ..⟩⟩

theorem Inv.claimed (inv : Inv w) (is : w.alive pid = some ⟨name,place⟩) (settled : place ≠ .writingPid) {q : Nat}
    (named : w.procFile q = some name) : w.pidFile name = some (natText q) := by
  refine (inv.claims q name named).resolve_right fun writing => ?_
  cases inv.apart q pid _ _ writing is rfl
  cases is.symm.trans writing
  exact settled rfl

theorem Inv.turns (inv : Inv w) (is : w.alive pid = some ⟨name,place⟩) (settled : place ≠ .writingPid)
    (stands : Stands w pid name place') : Inv (w.goes pid name place') :=
  inv.moves is (fun _ _ _ => rfl) (fun _ _ named => .inl named) (fun _ _ => rfl) (fun _ file => .inl file)
    (stands.frame rfl (fun _ named => named) rfl) fun _ named => .inl (inv.claimed is settled named)

theorem nextKeeps (inv : Inv w) (legal : Legal w (.next pid)) (running : ∀ name, w.alive pid ≠ some ⟨name,.removingPid⟩) :
    Inv (next w pid) := by
  unfold next
  cases is : w.alive pid with
  | none => exact inv
  | some p =>
    obtain ⟨name,place⟩ := p
    obtain ⟨word,numbered⟩ := inv.named pid _ is
    have stands := inv.stands pid _ is
    dsimp only at word stands ⊢
    cases place with
    | reading =>
      have settled : Place.reading ≠ .writingPid := Place.noConfusion
      dsimp only
      cases file : w.pidFile name with
      | none =>
        refine inv.turns is settled fun q named => ?_
        cases file.symm.trans (inv.claimed is settled named)
      | some content =>
        obtain ⟨old,rfl,good,-⟩ := inv.pids name content file
        have high : 1 < (old : Int) := by exact_mod_cast good.1
        dsimp only
        rw [scanNumber good, if_pos high, Int.toNat_natCast]
        exact inv.turns is settled file
    | checking old =>
      have settled : Place.checking old ≠ .writingPid := Place.noConfusion
      have only : ∀ q, w.procFile q = some name → q = old := fun q named =>
        natTextInj (Option.some.inj ((inv.claimed is settled named).symm.trans stands))
      dsimp only
      cases file : w.procFile old with
      | none =>
        refine inv.turns is settled fun q named => ?_
        cases only q named
        cases file.symm.trans named
      | some content =>
        dsimp only
        rw [scanName (inv.procs old content file).1]
        split
        · exact inv.turns is settled stands
        · next other =>
          refine inv.turns is settled fun q named => ?_
          cases only q named
          exact other (Option.some.inj (file.symm.trans named))
    | unlinking old =>
      have settled : Place.unlinking old ≠ .writingPid := Place.noConfusion
      have gone : ∀ q m, Function.update w.procFile old none q = some m → q ≠ old ∧ w.procFile q = some m := by
        intro q m named
        have differs : q ≠ old := by
          rintro rfl
          rw [Function.update_self] at named
          cases named
        rw [Function.update_of_ne differs] at named
        exact ⟨differs,named⟩
      have nobody : ∀ q, Function.update w.procFile old none q ≠ some name := by
        intro q named
        obtain ⟨differs,before⟩ := gone q name named
        exact differs (natTextInj (Option.some.inj ((inv.claimed is settled before).symm.trans stands)))
      refine inv.moves is (fun q differs there => ?_) (fun q m named => .inl (gone q m named).2) (fun _ _ => rfl) (fun _ file => .inl file)
        nobody fun q named => absurd named (nobody q)
      refine Function.update_of_ne ?_ ..
      rintro rfl
      exact differs (legal name q is there)
    | writingProc =>
      have wrote : ∀ q m, Function.update w.procFile pid (some name) q = some m → w.procFile q = some m ∨ q = pid ∧ m = name := by
        intro q m named
        by_cases equal : q = pid
        · subst equal
          rw [Function.update_self] at named
          exact .inr ⟨rfl,(Option.some.inj named).symm⟩
        · rw [Function.update_of_ne equal] at named
          exact .inl named
      have only : ∀ q, Function.update w.procFile pid (some name) q = some name → q = pid := fun q named =>
        ((wrote q name named).resolve_left (stands q)).1
      exact inv.moves is (fun q differs _ => Function.update_of_ne differs ..) wrote (fun _ _ => rfl) (fun _ file => .inl file)
        ⟨Function.update_self ..,only⟩ fun q named => .inr ⟨only q named,rfl⟩
    | writingPid =>
      refine inv.moves is (fun _ _ _ => rfl) (fun _ _ named => .inl named) (fun m other => Function.update_of_ne other ..) (fun content file => ?_)
        ⟨stands.1,Function.update_self ..⟩ fun q named => .inl ?_
      · rw [Function.update_self] at file
        exact .inr (Option.some.inj file).symm
      · rw [stands.2 q named, Function.update_self]
    | running => exact inv
    | removingProc =>
      have settled : Place.removingProc ≠ .writingPid := Place.noConfusion
      have gone : ∀ q m, Function.update w.procFile pid none q = some m → q ≠ pid ∧ w.procFile q = some m := by
        intro q m named
        have differs : q ≠ pid := by
          rintro rfl
          rw [Function.update_self] at named
          cases named
        rw [Function.update_of_ne differs] at named
        exact ⟨differs,named⟩
      have nobody : ∀ q, Function.update w.procFile pid none q ≠ some name := by
        intro q named
        obtain ⟨differs,before⟩ := gone q name named
        exact differs (natTextInj (Option.some.inj ((inv.claimed is settled before).symm.trans stands.2)))
      exact inv.moves is (fun q differs _ => Function.update_of_ne differs ..) (fun q m named => .inl (gone q m named).2) (fun _ _ => rfl)
        (fun _ file => .inl file) ⟨stands.2,nobody⟩ fun q named => absurd named (nobody q)
    | removingPid => exact absurd is (running name)

theorem Inv.ends (inv : Inv w) (is : w.alive pid = some ⟨name,place⟩) {pidFile : Text → Option Text} {crashed : List (Nat × Text)}
    (same : ∀ m, m ≠ name → pidFile m = w.pidFile m) (mine : ∀ content, pidFile name = some content → w.pidFile name = some content)
    (grows : ∀ entry ∈ w.crashed, entry ∈ crashed) (claims : ∀ q, w.procFile q = some name → pidFile name = some (natText q))
    (leaves : (w.procFile pid = some name ∨ pidFile name ≠ none) → (pid,name) ∈ crashed) :
    Inv ⟨w.procFile,pidFile,Function.update w.alive pid none,crashed⟩ := by
  have threads : ∀ q p, Function.update w.alive pid none q = some p → q ≠ pid ∧ w.alive q = some p := by
    intro q p there
    have differs : q ≠ pid := by
      rintro rfl
      rw [Function.update_self] at there
      cases there
    rw [Function.update_of_ne differs] at there
    exact ⟨differs,there⟩
  have others : ∀ q p, q ≠ pid → w.alive q = some p → p.name ≠ name := fun q p differs there equal =>
    differs (inv.apart q pid p _ there is equal)
  have stays : ∀ q m, (q = pid → m = name → (pid,name) ∈ crashed) → (∃ place, w.alive q = some ⟨m,place⟩) ∨ (q,m) ∈ w.crashed →
      (∃ place, Function.update w.alive pid none q = some ⟨m,place⟩) ∨ (q,m) ∈ crashed := by
    rintro q m own (⟨place',there⟩ | before)
    · by_cases equal : q = pid
      · subst equal
        cases is.symm.trans there
        exact .inr (own rfl rfl)
      · exact .inl ⟨place',(Function.update_of_ne equal ..).trans there⟩
    · exact .inr (grows _ before)
  refine ⟨?_,?_,?_,?_,?_,?_⟩
  · exact fun q p there => inv.named q p (threads q p there).2
  · exact fun q q' p p' there there' => inv.apart q q' p p' (threads q p there).2 (threads q' p' there').2
  · intro q p there
    obtain ⟨differs,before⟩ := threads q p there
    exact (inv.stands q p before).frame rfl (fun _ named => named) (same p.name (others q p differs before))
  · intro q m named
    by_cases equal : m = name
    · subst equal
      exact .inl (claims q named)
    · rcases inv.claims q m named with file | writing
      · exact .inl ((same m equal).trans file)
      · have differs : q ≠ pid := by
          rintro rfl
          cases is.symm.trans writing
          exact equal rfl
        exact .inr ((Function.update_of_ne differs ..).trans writing)
  · intro q m named
    obtain ⟨good,either⟩ := inv.procs q m named
    refine ⟨good,stays q m ?_ either⟩
    rintro rfl rfl
    exact leaves (.inl named)
  · intro m content named
    have before : w.pidFile m = some content := by
      by_cases equal : m = name
      · subst equal
        exact mine content named
      · exact (same m equal).symm.trans named
    obtain ⟨q,here,good,either⟩ := inv.pids m content before
    refine ⟨q,here,good,stays q m ?_ either⟩
    rintro rfl rfl
    exact leaves (.inr fun none_ => Option.some_ne_none content (named.symm.trans none_))

theorem nextEnds (inv : Inv w) (is : w.alive pid = some ⟨name,.removingPid⟩) : Inv (next w pid) := by
  obtain ⟨-,nobody⟩ : Stands w pid name .removingPid := inv.stands pid _ is
  unfold next
  rw [is]
  refine inv.ends is (fun m other => Function.update_of_ne other ..) (fun content file => ?_) (fun _ before => before)
    (fun q named => absurd named (nobody q)) ?_
  · rw [Function.update_self] at file
    cases file
  · rintro (named | file)
    · exact absurd named (nobody pid)
    · exact absurd (Function.update_self ..) file

theorem startKeeps (inv : Inv w) (legal : Legal w (.start pid name)) : Inv (step w (.start pid name)) := by
  obtain ⟨word,numbered,new,unique⟩ := legal
  have threads : ∀ q p, Function.update w.alive pid (some ⟨name,.reading⟩) q = some p →
      (q = pid ∧ p = ⟨name,.reading⟩) ∨ q ≠ pid ∧ w.alive q = some p := by
    intro q p there
    by_cases equal : q = pid
    · subst equal
      rw [Function.update_self] at there
      cases there
      exact .inl ⟨rfl,rfl⟩
    · rw [Function.update_of_ne equal] at there
      exact .inr ⟨equal,there⟩
  have stays : ∀ q m place, w.alive q = some ⟨m,place⟩ →
      Function.update w.alive pid (some ⟨name,.reading⟩) q = some ⟨m,place⟩ := by
    intro q m place there
    refine (Function.update_of_ne ?_ ..).trans there
    rintro rfl
    cases new.symm.trans there
  refine ⟨?_,?_,?_,?_,?_,?_⟩
  · intro q p there
    rcases threads q p there with ⟨rfl,rfl⟩ | ⟨-,before⟩
    · exact ⟨word,numbered⟩
    · exact inv.named q p before
  · intro q q' p p' there there' equal
    rcases threads q p there with ⟨rfl,rfl⟩ | ⟨-,before⟩
    · rcases threads q' p' there' with ⟨rfl,rfl⟩ | ⟨-,before'⟩
      · rfl
      · exact absurd equal.symm (unique q' p' before')
    · rcases threads q' p' there' with ⟨rfl,rfl⟩ | ⟨-,before'⟩
      · exact absurd equal (unique q p before)
      · exact inv.apart q q' p p' before before' equal
  · intro q p there
    rcases threads q p there with ⟨rfl,rfl⟩ | ⟨-,before⟩
    · trivial
    · exact (inv.stands q p before).frame rfl (fun _ named => named) rfl
  · exact fun q m named => (inv.claims q m named).imp_right (stays q m .writingPid)
  · intro q m named
    obtain ⟨good,either⟩ := inv.procs q m named
    exact ⟨good,either.imp_left fun ⟨place,there⟩ => ⟨place,stays q m place there⟩⟩
  · intro m content named
    obtain ⟨q,here,good,either⟩ := inv.pids m content named
    exact ⟨q,here,good,either.imp_left fun ⟨place,there⟩ => ⟨place,stays q m place there⟩⟩

theorem closeKeeps (inv : Inv w) (legal : Legal w (.close pid)) : Inv (step w (.close pid)) := by
  cases is : w.alive pid with
  | none => simpa only [step, is] using inv
  | some p =>
    obtain ⟨name,place⟩ := p
    obtain rfl : place = .running := legal _ is
    have stands : Stands w pid name .removingProc := inv.stands pid _ is
    simpa only [step, is] using inv.turns is Place.noConfusion stands

theorem crashKeeps (inv : Inv w) (legal : Legal w (.crash pid)) : Inv (step w (.crash pid)) := by
  cases is : w.alive pid with
  | none => simpa only [step, is] using inv
  | some p =>
    obtain ⟨name,place⟩ := p
    have settled : place ≠ .writingPid := legal _ is
    simpa only [step, is] using inv.ends is (fun _ _ => rfl) (fun _ file => file) (fun _ before => List.mem_cons_of_mem _ before)
      (fun _ named => inv.claimed is settled named) fun _ => List.mem_cons_self

theorem stepKeeps (inv : Inv w) {a : Action} (legal : Legal w a) : Inv (step w a) := by
  cases a with
  | start pid name => exact startKeeps inv legal
  | close pid => exact closeKeeps inv legal
  | crash pid => exact crashKeeps inv legal
  | next pid =>
    by_cases ends : ∃ name, w.alive pid = some ⟨name,.removingPid⟩
    · obtain ⟨name,is⟩ := ends
      exact nextEnds inv is
    · exact nextKeeps inv legal fun name is => ends ⟨name,is⟩

theorem Inv.registers (inv : Inv w) : Registered w where
  running := fun pid _ is => inv.stands pid _ is
  single := by
    intro pid pid' name named named'
    rcases inv.claims pid name named with file | writing
    · rcases inv.claims pid' name named' with file' | writing'
      · exact natTextInj (Option.some.inj (file.symm.trans file'))
      · have only : Stands w pid' name .writingPid := inv.stands pid' _ writing'
        exact only.2 pid named
    · have only : Stands w pid name .writingPid := inv.stands pid _ writing
      exact (only.2 pid' named').symm
  procs := fun pid name named => (inv.procs pid name named).2
  pids := by
    intro name content file
    obtain ⟨pid,is,-,either⟩ := inv.pids name content file
    exact ⟨pid,is,either⟩

end Steps

/- In every order in which the processes start, go on, close and crash, one that runs is found by its name and by
its number, and nothing else is, but what a crash has left and no later process of the name has removed. -/
theorem filesRegistered (acts : List Action) (legal : Along step Legal start acts) : Registered (exec step start acts) := by
  have keep : ∀ w a, Inv w → Legal w a → Inv (step w a) := fun w a inv ok => stepKeeps inv ok
  have inv : Inv (exec step start acts) := legal.invariant keep Inv.start
  exact inv.registers

def sampleActions : List Action :=
  [.start 5 ['a'],.next 5,.next 5,.next 5,.crash 5,.start 6 ['a'],.next 6,.start 7 ['b'],.next 7,.next 6,.next 6,.next 7,
    .next 6,.next 6,.start 5 ['c'],.next 5,.next 5,.next 7,.close 6,.next 6,.next 5,.next 6]

theorem sampleRegistered : Along step Legal start sampleActions ∧ Registered (exec step start sampleActions) := by
  have scans : scanPid (natText 5) = 5 := scanNumber ⟨by decide,by decide⟩
  have word : ∀ c ∈ ['a','b','c'], Word [c] := by
    have letters : ∀ c ∈ ['a','b','c'], isspace c = false ∧ '/' ≠ c := by simp [ParseCmd.isspace]
    intro c member
    refine ⟨List.cons_ne_nil c [],fun d inside => ?_,fun inside => ?_,by simp⟩
    · rw [List.mem_singleton.mp inside]
      exact (letters c member).1
    · exact (letters c member).2 (List.mem_singleton.mp inside)
  have scanned : scanWord ['a'] = ['a'] := scanName (word 'a' (by decide))
  have legal : Along step Legal start sampleActions := by
    simp [sampleActions,Along,Legal,step,next,World.goes,start,Function.update,scans,scanned,Numbered,word]
    intro q p there
    split_ifs at there <;> cases there <;> decide
  exact ⟨legal,filesRegistered sampleActions legal⟩

end LibProc.ProcFiles
