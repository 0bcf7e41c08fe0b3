/-! Runs of a deterministic machine. `Along` states what holds before each step of
a run; an invariant of the steps is an invariant of every state the run reaches. -/
namespace LibProc.Runs

variable {S A : Type} {step : S → A → S} {P : S → A → Prop} {Inv : S → Prop}

def exec (step : S → A → S) : S → List A → S
  | s,[] => s
  | s,a :: rest => exec step (step s a) rest

def Along (step : S → A → S) (P : S → A → Prop) : S → List A → Prop
  | _,[] => True
  | s,a :: rest => P s a ∧ Along step P (step s a) rest

instance decideAlong (P : S → A → Prop) [∀ s a, Decidable (P s a)] :
    ∀ s acts, Decidable (Along step P s acts)
  | _,[] => inferInstanceAs (Decidable True)
  | s,a :: rest =>
    have := decideAlong P (step s a) rest
    inferInstanceAs (Decidable (_ ∧ _))

theorem execAppend (s : S) (first second : List A) :
    exec step s (first ++ second) = exec step (exec step s first) second := by
  induction first generalizing s with
  | nil => rfl
  | cons a rest ih => exact ih (step s a)

theorem alongAppend {s : S} {first second : List A} :
    Along step P s (first ++ second) ↔ Along step P s first ∧ Along step P (exec step s first) second := by
  induction first generalizing s with
  | nil => exact ⟨fun along => ⟨trivial,along⟩,And.right⟩
  | cons a rest ih => rw [List.cons_append, Along, ih, Along, exec, and_assoc]

theorem Along.weaken {Q : S → A → Prop} (gives : ∀ s a, P s a → Q s a) {s : S} {acts : List A}
    (along : Along step P s acts) : Along step Q s acts := by
  induction acts generalizing s with
  | nil => trivial
  | cons a rest ih => exact ⟨gives s a along.1,ih along.2⟩

theorem Along.ofAll {C : A → Prop} {acts : List A} (all : ∀ a ∈ acts, C a) (s : S) : Along step (fun _ => C) s acts := by
  induction acts generalizing s with
  | nil => trivial
  | cons a rest ih => exact ⟨all a List.mem_cons_self,ih (fun b member => all b (List.mem_cons_of_mem _ member)) (step s a)⟩

theorem Along.invariant (keep : ∀ s a, Inv s → P s a → Inv (step s a)) {s : S} {acts : List A}
    (start : Inv s) (along : Along step P s acts) : Inv (exec step s acts) := by
  induction acts generalizing s with
  | nil => exact start
  | cons a rest ih => exact ih (keep s a start along.1) along.2

theorem Along.given {Q : S → A → Prop} (keep : ∀ s a, Inv s → P s a → Inv (step s a))
    (gives : ∀ s a, Inv s → P s a → Q s a) {s : S} {acts : List A} (start : Inv s) (along : Along step P s acts) :
    Along step Q s acts := by
  induction acts generalizing s with
  | nil => trivial
  | cons a rest ih => exact ⟨gives s a start along.1,ih (keep s a start along.1) along.2⟩

theorem execInvariant (keep : ∀ s a, Inv s → Inv (step s a)) {s : S} (start : Inv s) (acts : List A) :
    Inv (exec step s acts) := by
  induction acts generalizing s with
  | nil => exact start
  | cons a rest ih => exact ih (keep s a start)

theorem alongInvariant {Q : S → A → Prop} (keep : ∀ s a, Inv s → Inv (step s a)) (gives : ∀ s a, Inv s → Q s a) {s : S}
    (start : Inv s) (acts : List A) : Along step Q s acts := by
  induction acts generalizing s with
  | nil => trivial
  | cons a rest ih => exact ⟨gives s a start,ih (keep s a start)⟩

theorem execKeepsIff {G : S → Prop} {C : A → Prop} (inv : ∀ s a, Inv s → Inv (step s a))
    (each : ∀ s a, Inv s → (G (step s a) ↔ G s ∧ C a)) {s : S} (start : Inv s) (acts : List A) :
    G (exec step s acts) ↔ G s ∧ ∀ a ∈ acts, C a := by
  induction acts generalizing s with
  | nil => simp [exec]
  | cons a rest ih =>
    rw [exec, ih (inv s a start), each s a start, List.forall_mem_cons, and_assoc]

theorem everyIff {V C : S → A → Prop} {P : S → Prop} (keep : ∀ s a, Inv s → V s a → Inv (step s a))
    (each : ∀ s a, Inv s → V s a → P s → (P (step s a) ↔ C s a)) {s : S} (start : Inv s) (good : P s) {acts : List A}
    (valid : Along step V s acts) : (∀ first, first <+: acts → P (exec step s first)) ↔ Along step C s acts := by
  induction acts generalizing s with
  | nil =>
    refine iff_of_true (fun first shorter => ?_) trivial
    rw [List.prefix_nil.mp shorter]
    exact good
  | cons a rest ih =>
    have next := each s a start valid.1 good
    constructor
    · intro every
      have now := every [a] ⟨rest,rfl⟩
      exact ⟨next.mp now,(ih (keep s a start valid.1) now valid.2).mp fun first shorter =>
        every (a :: first) (List.cons_prefix_cons.mpr ⟨rfl,shorter⟩)⟩
    · rintro ⟨now,later⟩ first shorter
      cases first with
      | nil => exact good
      | cons a' first =>
        obtain ⟨rfl,within⟩ := List.cons_prefix_cons.mp shorter
        exact (ih (keep s a' start valid.1) (next.mpr now) valid.2).mpr later first within

section Answers
variable {T R : Type} {call : S → A → R × S} {spec : T → A → R × T} {Rel : S → T → Prop}

def answers (call : S → A → R × S) : S → List A → List R × S
  | s,[] => ([],s)
  | s,a :: rest =>
    let now := call s a
    let later := answers call now.2 rest
    (now.1 :: later.1,later.2)

theorem answersAppend (s : S) (first second : List A) :
    (answers call s (first ++ second)).2 = (answers call (answers call s first).2 second).2 := by
  induction first generalizing s with
  | nil => rfl
  | cons a rest ih => exact ih (call s a).2

/- A simulation: calls that answer alike and stay related answer alike for ever. -/
theorem answersSimulate (each : ∀ s t a, Rel s t → (call s a).1 = (spec t a).1 ∧ Rel (call s a).2 (spec t a).2)
    {s : S} {t : T} (start : Rel s t) (acts : List A) :
    (answers call s acts).1 = (answers spec t acts).1 ∧ Rel (answers call s acts).2 (answers spec t acts).2 := by
  induction acts generalizing s t with
  | nil => exact ⟨rfl,start⟩
  | cons a rest ih =>
    obtain ⟨same,kept⟩ := each s t a start
    obtain ⟨later,last⟩ := ih kept
    exact ⟨by rw [answers, answers, same, later],last⟩

end Answers
end LibProc.Runs
