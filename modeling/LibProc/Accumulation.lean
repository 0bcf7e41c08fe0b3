import LibProc.ConfigTree

/-! Lines kept one after the other. The buffer is doubled once at most for a line, and a difference of sizes
that is below zero counts as more than any line: what is kept is the text of the lines exactly as long as
each line is met by a buffer with the room for it. -/
namespace LibProc.Accumulation
open Config ConfigTree

variable {V : Type} {ctx : Context V} {text : Text} {len : Nat}

def grows (used len n : Nat) : Bool := used + 3 ≤ len ∧ len - used - 3 ≤ n

def sizeOf (len : Nat) : Nat := if len = 0 then 1024 else len

def grownSize (used len n : Nat) : Nat := if grows used (sizeOf len) n then sizeOf len * 2 else sizeOf len

def allocates (used len n : Nat) : Bool := len = 0 || grows used (sizeOf len) n

/- `accumulate_line` with the answer of the allocation, without which it writes to NULL. -/
def accumulateWith (memory : Bool) (ctx : Context V) : Option (Context V) :=
  if allocates (ctx.accum.getD []).length (if ctx.accum.isNone then 0 else ctx.len) (cstr ctx.buff 0).length && !memory then none
  else accumulateLine ctx

def accumulateAll (ctx : Context V) : List (Bool × Text) → Option (Context V)
  | [] => some ctx
  | (memory,buff) :: rest => do
    let ctx ← accumulateWith memory { ctx with buff := buff }
    accumulateAll ctx rest

/- What a line of `n` characters must find: a buffer that has room for it with at most one doubling. The second case is a
terminator that falls on the last character. -/
def Fits (memory : Bool) (used len n : Nat) : Prop :=
  (allocates used len n = true → memory = true) ∧
    (used + 3 ≤ sizeOf len ∧ used + n + 2 ≤ sizeOf len * 2 ∨ used + 2 = sizeOf len ∧ n = 0)

instance (memory : Bool) (used len n : Nat) : Decidable (Fits memory used len n) :=
  inferInstanceAs (Decidable ((_ → _) ∧ (_ ∨ _)))

def AllFit : Nat → Nat → List (Bool × Nat) → Prop
  | _,_,[] => True
  | used,len,(memory,n) :: rest => Fits memory used len n ∧ AllFit (used + n + 1) (grownSize used len n) rest

def decAllFit : (used len : Nat) → (lines : List (Bool × Nat)) → Decidable (AllFit used len lines)
  | _,_,[] => .isTrue trivial
  | used,len,(memory,n) :: rest =>
    have := decAllFit (used + n + 1) (grownSize used len n) rest
    inferInstanceAs (Decidable (Fits memory used len n ∧ AllFit (used + n + 1) (grownSize used len n) rest))

instance (used len : Nat) (lines : List (Bool × Nat)) : Decidable (AllFit used len lines) := decAllFit used len lines

def Keeps (ctx : Context V) (text : Text) (len : Nat) : Prop :=
  len = 0 ∧ text = [] ∧ ctx.accum = none ∨ len ≠ 0 ∧ ctx.accum = some text ∧ ctx.len = len

theorem Keeps.accum (keeps : Keeps ctx text len) : ctx.accum.getD [] = text := by
  rcases keeps with ⟨-,rfl,none_⟩ | ⟨-,some_,-⟩
  · rw [none_]; rfl
  · rw [some_]; rfl

theorem Keeps.size (keeps : Keeps ctx text len) : (if ctx.accum.isNone then 0 else ctx.len) = len := by
  rcases keeps with ⟨rfl,-,none_⟩ | ⟨-,some_,same⟩
  · rw [none_]; rfl
  · rw [some_, same]; rfl

theorem accumulateKept (keeps : Keeps ctx text len) : accumulateLine ctx =
    if text.length + (cstr ctx.buff 0).length + 2 ≤ grownSize text.length len (cstr ctx.buff 0).length then
      some { ctx with
        accum := some (text ++ cstr ctx.buff 0 ++ ['\n'])
        len := grownSize text.length len (cstr ctx.buff 0).length }
    else none := by
  rcases keeps with ⟨rfl,rfl,none_⟩ | ⟨begun,some_,same⟩
  · simp [accumulateLine,none_,grownSize,sizeOf,grows]
  · simp [accumulateLine,some_,same,begun,grownSize,sizeOf,grows]

theorem grownFits (used len n : Nat) : used + n + 2 ≤ grownSize used len n ↔
    used + 3 ≤ sizeOf len ∧ used + n + 2 ≤ sizeOf len * 2 ∨ used + 2 = sizeOf len ∧ n = 0 := by
  simp only [grownSize,grows,decide_eq_true_eq]
  split <;> omega

theorem accumulateStep (keeps : Keeps ctx text len) (memory : Bool) (buff : Text) :
    if Fits memory text.length len (cstr buff 0).length then
      ∃ ctx', accumulateWith memory { ctx with buff := buff } = some ctx' ∧
        Keeps ctx' (text ++ cstr buff 0 ++ ['\n']) (grownSize text.length len (cstr buff 0).length)
    else accumulateWith memory { ctx with buff := buff } = none := by
  have keeps' : Keeps { ctx with buff := buff } text len := keeps
  have whole := accumulateKept keeps'
  simp only [accumulateWith,keeps'.accum,keeps'.size,whole,Fits,← grownFits]
  cases alloc : allocates text.length len (cstr buff 0).length && !memory with
  | true =>
    rw [Bool.and_eq_true] at alloc
    rw [if_neg fun fits => by simp [fits.1 alloc.1] at alloc]
    rfl
  | false =>
    have answered : allocates text.length len (cstr buff 0).length = true → memory = true := by
      intro asks
      rwa [asks, Bool.true_and, Bool.not_eq_false'] at alloc
    simp only [Bool.false_eq_true,if_false]
    by_cases room : text.length + (cstr buff 0).length + 2 ≤ grownSize text.length len (cstr buff 0).length
    · rw [if_pos ⟨answered,room⟩, if_pos room]
      exact ⟨_,rfl,.inr ⟨by omega,rfl,rfl⟩⟩
    · rw [if_neg fun fits => room fits.2, if_neg room]

theorem accumulateRun (keeps : Keeps ctx text len) (lines : List (Bool × Text)) :
    if AllFit text.length len (lines.map fun line => (line.1,(cstr line.2 0).length)) then
      ∃ ctx' len', accumulateAll ctx lines = some ctx' ∧ Keeps ctx' (text ++ linesText (lines.map fun line => cstr line.2 0)) len'
    else accumulateAll ctx lines = none := by
  induction lines generalizing ctx text len with
  | nil => exact (if_pos trivial).mpr ⟨ctx,len,rfl,by rwa [List.map_nil, linesText, List.flatMap_nil, List.append_nil]⟩
  | cons line rest ih =>
    obtain ⟨memory,buff⟩ := line
    have step := accumulateStep keeps memory buff
    simp only [List.map_cons,AllFit,accumulateAll]
    by_cases fits : Fits memory text.length len (cstr buff 0).length
    · rw [if_pos fits] at step
      obtain ⟨next,kept,keeps'⟩ := step
      have later := ih keeps'
      have size : (text ++ cstr buff 0 ++ ['\n']).length = text.length + (cstr buff 0).length + 1 := by simp [Nat.add_assoc]
      have joined : linesText (cstr buff 0 :: rest.map fun line => cstr line.2 0) =
          cstr buff 0 ++ ['\n'] ++ linesText (rest.map fun line => cstr line.2 0) := rfl
      rw [size] at later
      simp only [fits,true_and,kept,Option.bind_eq_bind,Option.bind_some,joined]
      rwa [← List.append_assoc, ← List.append_assoc]
    · rw [if_neg fits] at step
      rw [if_neg fun all => fits all.1, step]
      rfl

/- The writes of all lines are inside, and the text of the lines is kept, exactly when each line finds the room. -/
theorem accumulateAllIff (ctx : Context V) (lines : List (Bool × Text)) :
    (∃ ctx', accumulateAll { ctx with accum := none } lines = some ctx' ∧
        ctx'.accum.getD [] = linesText (lines.map fun line => cstr line.2 0)) ↔
      AllFit 0 0 (lines.map fun line => (line.1,(cstr line.2 0).length)) := by
  have run := accumulateRun (show Keeps { ctx with accum := none } [] 0 from .inl ⟨rfl,rfl,rfl⟩) lines
  rw [List.length_nil, List.nil_append] at run
  constructor
  · rintro ⟨ctx',kept,-⟩
    by_contra overflows
    rw [if_neg overflows, kept] at run
    exact Option.some_ne_none _ run
  · intro all
    rw [if_pos all] at run
    obtain ⟨ctx',len',kept,keeps⟩ := run
    exact ⟨ctx',kept,keeps.accum⟩

/- A first line of 2047 characters: the buffer is doubled to 2048, and the terminator is written behind it. -/
theorem accumulateOverflows : ¬∃ ctx', accumulateAll sampleContext [(true,List.replicate 2047 'a' ++ [nul])] = some ctx' := by
  have clean : nul ∉ List.replicate 2047 'a' := fun member => absurd (List.eq_of_mem_replicate member) (by decide)
  have read : (cstr (List.replicate 2047 'a' ++ [nul]) 0).length = 2047 := by
    rw [cstrTerminated _ [] clean, List.length_replicate]
  generalize List.replicate 2047 'a' ++ [nul] = buff at read ⊢
  have step := accumulateStep (show Keeps sampleContext [] 0 from .inl ⟨rfl,rfl,rfl⟩) true buff
  have full : ¬Fits true ([] : Text).length 0 (cstr buff 0).length := by
    rw [read]
    decide
  rw [if_neg full] at step
  rw [accumulateAll, step]
  exact fun ⟨_,kept⟩ => absurd kept (Option.some_ne_none _).symm

end LibProc.Accumulation
