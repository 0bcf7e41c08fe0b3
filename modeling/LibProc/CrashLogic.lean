import LibProc.Runs

/-! Programs that can be cut short. A program takes the answers of its environment from a
script, one for each operation; where the script ends, the run ends there and the state
stays as the operations before have left it. A triple has a second postcondition for that:
what holds of the state wherever the program is cut. A machine follows a program when it can come to
a state for the one that the program ends in, and to one for any that it is cut in. -/
namespace LibProc.CrashLogic
open Runs (exec execAppend)

def Prog (ε σ α : Type) := σ → List ε → σ × Option (α × List ε)

variable {ε σ α β : Type}

instance : Monad (Prog ε σ) where
  pure a := fun s script => (s,some (a,script))
  bind prog next := fun s script =>
    match prog s script with
    | (s,none) => (s,none)
    | (s,some (a,rest)) => next a s rest

def answer : Prog ε σ ε := fun s script =>
  match script with
  | [] => (s,none)
  | first :: rest => (s,some (first,rest))

def state : Prog ε σ σ := fun s script => (s,some (s,script))

def change (f : σ → σ) : Prog ε σ Unit := fun s script => (f s,some ((),script))

/- `post` holds where the program ends, `cut` wherever it is cut. -/
def Triple (pre : σ → Prop) (prog : Prog ε σ α) (post : α → σ → Prop) (cut : σ → Prop) : Prop :=
  ∀ s script, pre s →
    (∀ a rest, (prog s script).2 = some (a,rest) → post a (prog s script).1) ∧
      ((prog s script).2 = none → cut (prog s script).1)

section
variable {pre pre' : σ → Prop} {post post' : α → σ → Prop} {cut cut' : σ → Prop} {prog : Prog ε σ α}

theorem Triple.pure {a : α} (holds : ∀ s, pre s → post a s) :
    Triple pre (Pure.pure a : Prog ε σ α) post cut := by
  intro s script start
  refine ⟨?_,nofun⟩
  intro b rest is
  cases is
  exact holds s start

theorem Triple.bind {next : α → Prog ε σ β} {middle : α → σ → Prop} {last : β → σ → Prop}
    (first : Triple pre prog middle cut) (second : ∀ a, Triple (middle a) (next a) last cut) :
    Triple pre (prog >>= next) last cut := by
  intro s script start
  obtain ⟨ends,cuts⟩ := first s script start
  cases out : prog s script with
  | mk after result =>
    rw [out] at ends cuts
    cases result with
    | none =>
      have stopped : (prog >>= next) s script = (after,none) := by
        simp only [Bind.bind,out]
      rw [stopped]
      exact ⟨nofun,fun _ => cuts rfl⟩
    | some pair =>
      obtain ⟨a,rest⟩ := pair
      have continued : (prog >>= next) s script = next a after rest := by
        simp only [Bind.bind,out]
      rw [continued]
      exact second a after rest (ends a rest rfl)

theorem Triple.weaken (triple : Triple pre prog post cut) (before : ∀ s, pre' s → pre s)
    (after : ∀ a s, post a s → post' a s) (short : ∀ s, cut s → cut' s) :
    Triple pre' prog post' cut' := by
  intro s script start
  obtain ⟨ends,cuts⟩ := triple s script (before s start)
  exact ⟨fun a rest is => after a _ (ends a rest is),fun is => short _ (cuts is)⟩

theorem Triple.answer (short : ∀ s, pre s → cut s) :
    Triple pre (answer : Prog ε σ ε) (fun _ => pre) cut := by
  intro s script start
  cases script with
  | nil => exact ⟨nofun,fun _ => short s start⟩
  | cons first rest =>
    refine ⟨?_,nofun⟩
    intro a left is
    cases is
    exact start

theorem Triple.state : Triple pre (state : Prog ε σ σ) (fun a s => a = s ∧ pre s) cut := by
  intro s script start
  refine ⟨?_,nofun⟩
  intro a rest is
  cases is
  exact ⟨rfl,start⟩

theorem Triple.change {f : σ → σ} {last : Unit → σ → Prop} (holds : ∀ s, pre s → last () (f s)) :
    Triple pre (change f : Prog ε σ Unit) last cut := by
  intro s script start
  refine ⟨?_,nofun⟩
  intro a rest is
  cases is
  exact holds s start

theorem Triple.each (triples : ∀ s, pre s → Triple (fun start => start = s) prog post cut) :
    Triple pre prog post cut :=
  fun s script start => triples s start s script rfl

end

section
variable {S A : Type} (go : S → A → S) (shows : S → σ → Prop)

def Reaches (s s' : S) : Prop := ∃ acts, exec go s acts = s'

def Follows (s : S) (m : σ) (prog : Prog ε σ α) (ends : α → σ → S) : Prop :=
  ∀ script, match prog m script with
    | (after,some (a,_)) => Reaches go s (ends a after)
    | (after,none) => ∃ s', Reaches go s s' ∧ shows s' after

variable {go shows} {s s' s'' : S} {m : σ} {prog : Prog ε σ α} {ends : α → σ → S}

theorem Reaches.refl (s : S) : Reaches go s s := ⟨[],rfl⟩

theorem Reaches.one (s : S) (act : A) : Reaches go s (go s act) := ⟨[act],rfl⟩

theorem Reaches.trans (first : Reaches go s s') (second : Reaches go s' s'') : Reaches go s s'' := by
  obtain ⟨acts,rfl⟩ := first
  obtain ⟨more,rfl⟩ := second
  exact ⟨acts ++ more,execAppend s acts more⟩

theorem Follows.pure {a : α} (reaches : Reaches go s (ends a m)) : Follows go shows s m (Pure.pure a : Prog ε σ α) ends :=
  fun _ => reaches

theorem Follows.reach (reaches : Reaches go s s') (follows : Follows go shows s' m prog ends) : Follows go shows s m prog ends := by
  intro script
  have later := follows script
  split at later
  · exact reaches.trans later
  · obtain ⟨left,more,shown⟩ := later
    exact ⟨left,reaches.trans more,shown⟩

theorem Follows.bind {next : α → Prog ε σ β} {middle : α → σ → S} {last : β → σ → S} (first : Follows go shows s m prog middle)
    (second : ∀ a after, Follows go shows (middle a after) after (next a) last) : Follows go shows s m (prog >>= next) last := by
  intro script
  have begins := first script
  cases out : prog m script with
  | mk after result =>
    rw [out] at begins
    cases result with
    | none =>
      have stopped : (prog >>= next) m script = (after,none) := by simp only [Bind.bind,out]
      rw [stopped]
      exact begins
    | some pair =>
      have continued : (prog >>= next) m script = next pair.1 after pair.2 := by simp only [Bind.bind,out]
      rw [continued]
      exact Follows.reach begins (second pair.1 after) pair.2

theorem Follows.answer {next : ε → Prog ε σ α} (shown : shows s m) (follows : ∀ answer, Follows go shows s m (next answer) ends) :
    Follows go shows s m (answer >>= next) ends := by
  intro script
  cases script with
  | nil => exact ⟨s,.refl s,shown⟩
  | cons first rest => exact follows first rest

theorem Follows.state {next : σ → Prog ε σ α} (follows : Follows go shows s m (next m) ends) :
    Follows go shows s m (CrashLogic.state >>= next) ends := follows

theorem Follows.change {f : σ → σ} {next : Unit → Prog ε σ α} (follows : Follows go shows s (f m) (next ()) ends) :
    Follows go shows s m (change f >>= next) ends := follows

theorem Follows.last {f : σ → σ} {ends : Unit → σ → S} (reaches : Reaches go s (ends () (f m))) :
    Follows go shows s m (CrashLogic.change f : Prog ε σ Unit) ends :=
  fun _ => reaches

end
end LibProc.CrashLogic
