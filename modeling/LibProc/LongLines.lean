import LibProc.ConfigTree

/-! Lines that do not fit the buffer. The file is read in pieces, and a flag that each dropped piece turns over says
whether the next one is dropped. The lines that the reader gives are set against the lines of the file, each with
what follows it in the file, so that a fragment never passes for a line that stands elsewhere. -/
namespace LibProc.LongLines
open Config ConfigTree

variable {file piece body rest acc : Text} {skipFlag start : Bool}

def completeLines (acc : Text) : Text → List (Text × Text)
  | [] => []
  | c :: rest => if c = '\n' then (acc,rest) :: completeLines [] rest else completeLines (acc ++ [c]) rest

def wanted (line : Text) : Bool := line.length ≤ buffSize - 2 && !isSkipped (stripLine line)

def selected (lines : List (Text × Text)) : List (Text × Text) :=
  (lines.filter fun line => wanted line.1).map fun line => (stripLine line.1,line.2)

def shortLines (file : Text) : List (Text × Text) :=
  selected (completeLines [] file)

def readAll : Nat → Source → Text → List (Text × Text)
  | 0,_,_ => []
  | turns + 1,source,buff =>
    match source.nextLine buff with
    | (false,_,_) => []
    | (true,buff,source) => (cstr buff 0,source.file) :: readAll turns source buff

section Pieces

theorem takeBefore {after : Text} (whole : '\n' ∉ body) (next : after.head? = some '\n' ∨ after = []) :
    (body ++ after).takeWhile (· ≠ '\n') = body := by
  have kept : ∀ c ∈ body, decide (c ≠ '\n') = true := by
    intro c inside
    exact decide_eq_true fun same => whole (same ▸ inside)
  rw [List.takeWhile_append_of_pos kept]
  rcases next with next | rfl
  · obtain ⟨tail,rfl⟩ := List.head?_eq_some_iff.mp next
    simp
  · simp

theorem fgetsLine (whole : '\n' ∉ body) (short : body.length ≤ buffSize - 2) (rest : Text) :
    fgets (body ++ '\n' :: rest) = (body ++ ['\n'],rest) := by
  obtain ⟨room,enough⟩ : ∃ room, buffSize - 1 = body.length + (room + 1) := ⟨buffSize - 2 - body.length,by simp [buffSize] at *; omega⟩
  have window : (body ++ '\n' :: rest).take (buffSize - 1) = body ++ '\n' :: rest.take room := by
    rw [enough, List.take_length_add_append, List.take_succ_cons]
  have front : (body ++ '\n' :: rest.take room).takeWhile (· ≠ '\n') = body := takeBefore whole (.inl rfl)
  have count : body.length < (body ++ '\n' :: rest.take room).length := by simp
  simp only [fgets,window,front,if_pos count]
  rw [List.take_length_add_append, List.drop_length_add_append]
  rfl

theorem fgetsFull (whole : '\n' ∉ piece) (full : piece.length = buffSize - 1) (rest : Text) : fgets (piece ++ rest) = (piece,rest) := by
  have window : (piece ++ rest).take (buffSize - 1) = piece := by rw [← full, List.take_left]
  have front : piece.takeWhile (· ≠ '\n') = piece := by
    simpa only [List.append_nil] using takeBefore whole (.inr (rfl : ([] : Text) = []))
  simp only [fgets,window,front,Nat.lt_irrefl,if_false,List.take_left,List.drop_left]

theorem fgetsLast (whole : '\n' ∉ piece) (short : piece.length ≤ buffSize - 1) : fgets piece = (piece,[]) := by
  have front : piece.takeWhile (· ≠ '\n') = piece := by
    simpa only [List.append_nil] using takeBefore whole (.inr (rfl : ([] : Text) = []))
  simp only [fgets,List.take_of_length_le short,front,Nat.lt_irrefl,if_false,List.take_length,List.drop_length]

inductive Cut : Text → Text → Text → Prop where
  | line (body rest : Text) (whole : '\n' ∉ body) (short : body.length ≤ buffSize - 2) : Cut (body ++ '\n' :: rest) (body ++ ['\n']) rest
  | full (piece rest : Text) (whole : '\n' ∉ piece) (full : piece.length = buffSize - 1) : Cut (piece ++ rest) piece rest
  | last (piece : Text) (some_ : piece ≠ []) (whole : '\n' ∉ piece) (short : piece.length < buffSize - 1) : Cut piece piece []

theorem fgetsCut (some_ : file ≠ []) : Cut file (fgets file).1 (fgets file).2 := by
  have parts : file.take (buffSize - 1) ++ file.drop (buffSize - 1) = file := List.take_append_drop ..
  by_cases ends : '\n' ∈ file.take (buffSize - 1)
  · obtain ⟨body,tail,split,whole⟩ := List.eq_append_cons_of_mem ends
    have size : (body ++ '\n' :: tail).length ≤ buffSize - 1 := by rw [← split, List.length_take]; exact Nat.min_le_left ..
    have short : body.length ≤ buffSize - 2 := by
      rw [List.length_append, List.length_cons] at size
      omega
    rw [split, List.append_assoc, List.cons_append] at parts
    rw [← parts, fgetsLine whole short]
    exact .line body _ whole short
  · by_cases short : file.length < buffSize - 1
    · rw [List.take_of_length_le (Nat.le_of_lt short)] at ends
      rw [fgetsLast ends (Nat.le_of_lt short)]
      exact .last file some_ ends short
    · have full : (file.take (buffSize - 1)).length = buffSize - 1 := by rw [List.length_take]; omega
      rw [← parts, fgetsFull ends full]
      exact .full _ _ ends full

theorem Cut.shorter (cut : Cut file piece rest) : rest.length < file.length := by
  cases cut with
  | line body rest whole short => simp; omega
  | full piece rest whole full => simp [full,buffSize]
  | last piece some_ whole short => exact List.length_pos_iff.mpr some_

def pieces (file : Text) : List (Text × Text) :=
  if _none : file = [] then [] else fgets file :: pieces (fgets file).2
termination_by file.length
decreasing_by exact (fgetsCut _none).shorter

theorem piecesCut (cut : Cut file piece rest) : pieces file = (piece,rest) :: pieces rest := by
  have read : fgets file = (piece,rest) := by
    cases cut with
    | line body rest whole short => exact fgetsLine whole short rest
    | full piece rest whole full => exact fgetsFull whole full rest
    | last piece some_ whole short => exact fgetsLast whole (Nat.le_of_lt short)
  have some_ : file ≠ [] := by
    rintro rfl
    exact absurd cut.shorter (Nat.not_lt_zero _)
  rw [pieces, dif_neg some_, read]

theorem cutInduct {motive : Text → Prop} (nil : motive []) (cut : ∀ file piece rest, Cut file piece rest → motive rest → motive file)
    (file : Text) : motive file := by
  induction file using pieces.induct with
  | case1 => exact nil
  | case2 file some_ ih => exact cut file _ _ (fgetsCut some_) ih

end Pieces

section Reading

def outputs : Bool → List (Text × Text) → List (Text × Text)
  | _,[] => []
  | skipFlag,(piece,after) :: rest =>
    if (cstr piece 0).isEmpty then outputs skipFlag rest
    else if (cstr piece 0).getLast? ≠ some '\n' || skipFlag then outputs (!skipFlag) rest
    else if isSkipped (stripLine (cstr piece 0)) then outputs skipFlag rest
    else (stripLine (cstr piece 0),after) :: outputs false rest

def Gives (file : Text) (skipFlag : Bool) : Option Text × Text → Prop
  | (none,_) => outputs skipFlag (pieces file) = []
  | (some line,rest) => outputs skipFlag (pieces file) = (line,rest) :: outputs false (pieces rest) ∧
      rest.length < file.length ∧ nul ∉ line

theorem Gives.later {next : Bool} {result : Option Text × Text} (gives : Gives rest next result)
    (same : outputs skipFlag (pieces file) = outputs next (pieces rest)) (shorter : rest.length < file.length) :
    Gives file skipFlag result := by
  obtain ⟨line | line,after⟩ := result
  · exact same.trans gives
  · exact ⟨same.trans gives.1,Nat.lt_trans gives.2.1 shorter,gives.2.2⟩

theorem stripClean {text : Text} (clean : nul ∉ text) : nul ∉ stripLine text := by
  intro member
  exact clean ((List.rdropWhile_prefix _ _).subset ((List.dropWhile_sublist _).subset member))

theorem cstrClean (text : Text) (start : Nat) : nul ∉ cstr text start := by
  intro member
  have differs := List.mem_takeWhile_imp (p := fun c => decide (c ≠ nul)) member
  exact of_decide_eq_true differs rfl

theorem fileLineGives (fuel : Nat) (enough : file.length ≤ fuel) (skipFlag : Bool) :
    Gives file skipFlag (fileLine fuel skipFlag file) := by
  induction fuel generalizing file skipFlag with
  | zero =>
    rw [List.length_eq_zero_iff.mp (Nat.le_zero.mp enough), fileLine, Gives, pieces, dif_pos rfl]
    rfl
  | succ fuel ih =>
    by_cases empty : file = []
    · rw [empty, fileLine, if_pos List.isEmpty_nil, Gives, pieces, dif_pos rfl]
      rfl
    have cut := fgetsCut empty
    have shorter := cut.shorter
    have begins := piecesCut cut
    rw [fileLine, if_neg fun none_ => empty (List.isEmpty_iff.mp none_)]
    dsimp only
    split
    · rename_i none_
      exact (ih (by omega) skipFlag).later (by rw [begins, outputs, if_pos none_]) shorter
    rename_i some_
    split
    · rename_i drops
      exact (ih (by omega) (!skipFlag)).later (by rw [begins, outputs, if_neg some_, if_pos drops]) shorter
    rename_i keeps
    split
    · rename_i skipped
      exact (ih (by omega) skipFlag).later (by rw [begins, outputs, if_neg some_, if_neg keeps, if_pos skipped]) shorter
    · rename_i line
      refine ⟨?_,shorter,stripClean (cstrClean _ 0)⟩
      rw [begins, outputs, if_neg some_, if_neg keeps, if_neg line]

theorem readAllOutputs (turns : Nat) (enough : file.length < turns) (buff : Text) :
    readAll turns ⟨file,none,false⟩ buff = outputs false (pieces file) := by
  induction turns generalizing file buff with
  | zero => omega
  | succ turns ih =>
    have gives := fileLineGives file.length (Nat.le_refl _) false
    rw [readAll]
    simp only [Source.nextLine,Bool.false_eq_true,if_false]
    cases read : fileLine file.length false file with
    | mk line rest =>
      rw [read] at gives
      cases line with
      | none => exact gives.symm
      | some line =>
        obtain ⟨first,shorter,clean⟩ := gives
        dsimp only
        rw [cstrTerminated line [] clean, ih (by omega), first]

end Reading

section Lines

def shorts : Bool → List (Text × Text) → List (Text × Text)
  | _,[] => []
  | start,(piece,after) :: rest =>
    if piece.getLast? = some '\n' then
      if start && !isSkipped (stripLine piece) then (stripLine piece,after) :: shorts true rest else shorts true rest
    else shorts false rest

theorem completeLinesFull (whole : '\n' ∉ piece) (acc rest : Text) : completeLines acc (piece ++ rest) = completeLines (acc ++ piece) rest := by
  induction piece generalizing acc with
  | nil => rw [List.append_nil]; rfl
  | cons c piece ih =>
    rw [List.mem_cons, not_or] at whole
    rw [List.cons_append, completeLines, if_neg (Ne.symm whole.1), ih whole.2, List.append_assoc]
    rfl

theorem completeLinesLine (whole : '\n' ∉ body) (acc rest : Text) :
    completeLines acc (body ++ '\n' :: rest) = (acc ++ body,rest) :: completeLines [] rest := by
  rw [completeLinesFull whole, completeLines, if_pos rfl]

theorem stripEnd (body : Text) : stripLine (body ++ ['\n']) = stripLine body := by
  rw [stripLine, List.rdropWhile_concat_pos _ _ _ (by decide)]
  rfl

theorem selectedLong {line : Text} (long : buffSize - 1 ≤ line.length) (after : Text) (rest : List (Text × Text)) :
    selected ((line,after) :: rest) = selected rest := by
  have not_ : ¬wanted line = true := by
    rw [wanted, Bool.and_eq_true, decide_eq_true_eq]
    exact fun both => absurd both.1 (by simp [buffSize] at *; omega)
  simp [selected,not_]

theorem selectedShort {line : Text} (short : line.length ≤ buffSize - 2) (after : Text) (rest : List (Text × Text)) :
    selected ((line,after) :: rest) =
      if isSkipped (stripLine line) then selected rest else (stripLine line,after) :: selected rest := by
  have same : wanted line = !isSkipped (stripLine line) := by rw [wanted, decide_eq_true short, Bool.true_and]
  cases skips : isSkipped (stripLine line) with
  | true => simp [selected,same,skips]
  | false => simp [selected,same,skips]

/- Whether a piece stands at the start of its line, and if not what has been read of the line. -/
def At (start : Bool) (acc : Text) : Prop := start = true ∧ acc = [] ∨ start = false ∧ buffSize - 1 ≤ acc.length

theorem selectedShorts (at_ : At start acc) : selected (completeLines acc file) = shorts start (pieces file) := by
  induction file using cutInduct generalizing start acc with
  | nil =>
    rw [pieces, dif_pos rfl]
    rfl
  | cut file piece rest cut ih =>
    rw [piecesCut cut, shorts]
    cases cut with
    | line body rest whole short =>
      have ends : (body ++ ['\n']).getLast? = some '\n' := List.getLast?_concat
      rw [completeLinesLine whole, if_pos ends, ← ih (.inl ⟨rfl,rfl⟩)]
      rcases at_ with ⟨rfl,rfl⟩ | ⟨rfl,long⟩
      · rw [List.nil_append, selectedShort short, stripEnd, Bool.true_and]
        cases isSkipped (stripLine body) <;> rfl
      · rw [selectedLong (by rw [List.length_append]; omega)]
        rfl
    | full _ _ whole full =>
      have middle : piece.getLast? ≠ some '\n' := fun last => whole (List.mem_of_getLast? last)
      rw [completeLinesFull whole, if_neg middle]
      exact ih (.inr ⟨rfl,by rw [List.length_append]; omega⟩)
    | last _ some_ whole short =>
      have middle : file.getLast? ≠ some '\n' := fun last => whole (List.mem_of_getLast? last)
      have none_ : completeLines acc (file ++ []) = [] := by rw [completeLinesFull whole]; rfl
      rw [List.append_nil] at none_
      rw [if_neg middle, none_, pieces, dif_pos rfl]
      rfl

end Lines

section Flags

def flagAfter (skipFlag : Bool) (piece : Text) : Bool :=
  if (cstr piece 0).isEmpty then skipFlag else if (cstr piece 0).getLast? ≠ some '\n' || skipFlag then !skipFlag else skipFlag

/- How the flag must stand where a line ends that is not blank and no comment: it is set exactly when pieces of the line have gone
before. A line with a NUL is never given, so that it must not be one that fits. -/
def Sound : Bool → Bool → List (Text × Text) → Prop
  | _,_,[] => True
  | skipFlag,start,(piece,_) :: rest =>
    (piece.getLast? = some '\n' →
      isSkipped (stripLine piece) = true ∨ if nul ∈ piece then start = false else skipFlag = !start) ∧
      Sound (flagAfter skipFlag piece) (piece.getLast? == some '\n') rest

def Given (skipFlag : Bool) (piece : Text) : Prop :=
  piece.getLast? = some '\n' ∧ isSkipped (stripLine piece) = false ∧ nul ∉ piece ∧ skipFlag = false

def Due (start : Bool) (piece : Text) : Prop := piece.getLast? = some '\n' ∧ isSkipped (stripLine piece) = false ∧ start = true

instance (skipFlag : Bool) (piece : Text) : Decidable (Given skipFlag piece) := inferInstanceAs (Decidable (_ ∧ _ ∧ _ ∧ _))

instance (start : Bool) (piece : Text) : Decidable (Due start piece) := inferInstanceAs (Decidable (_ ∧ _ ∧ _))

theorem soundHead : (piece.getLast? = some '\n' → isSkipped (stripLine piece) = true ∨ if nul ∈ piece then start = false else skipFlag = !start) ↔
    (Given skipFlag piece ↔ Due start piece) := by
  simp only [Given,Due]
  by_cases ends : piece.getLast? = some '\n' <;> by_cases null : nul ∈ piece <;> cases isSkipped (stripLine piece) <;>
    cases skipFlag <;> cases start <;> simp [ends,null]

theorem Cut.inside (cut : Cut file piece rest) : '\n' ∉ piece.dropLast := by
  cases cut with
  | line body rest whole short => rwa [List.dropLast_concat]
  | full piece rest whole full => exact fun member => whole (List.dropLast_subset _ member)
  | last piece some_ whole short => exact fun member => whole (List.dropLast_subset _ member)

theorem cstrCut (inside : '\n' ∉ piece.dropLast) (null : nul ∈ piece) : (cstr piece 0).getLast? ≠ some '\n' := by
  intro ends
  obtain ⟨body,tail,split,clean⟩ := List.eq_append_cons_of_mem null
  have read : cstr piece 0 = body := by rw [split]; exact cstrTerminated body tail clean
  rw [read] at ends
  refine inside ?_
  rw [split, List.dropLast_append_cons]
  exact List.mem_append_left _ (List.mem_of_getLast? ends)

theorem outputsStep (inside : '\n' ∉ piece.dropLast) (skipFlag : Bool) (after : Text) (later : List (Text × Text)) :
    outputs skipFlag ((piece,after) :: later) =
      (if Given skipFlag piece then [(stripLine piece,after)] else []) ++ outputs (flagAfter skipFlag piece) later := by
  rw [outputs, flagAfter]
  by_cases null : nul ∈ piece
  · rw [if_neg fun given : Given skipFlag piece => given.2.2.1 null, List.nil_append]
    have cuts := cstrCut inside null
    split
    · rfl
    · rw [if_pos (by simp [cuts]), if_pos (by simp [cuts])]
  rw [cstrWhole null]
  by_cases ends : piece.getLast? = some '\n'
  · have some_ : ¬piece.isEmpty = true := by
      intro none_
      rw [List.isEmpty_iff.mp none_] at ends
      exact absurd ends (by decide)
    simp only [if_neg some_,ends,Given,null]
    cases skipFlag <;> cases isSkipped (stripLine piece) <;> simp
  · rw [if_neg fun given : Given skipFlag piece => ends given.1, List.nil_append]
    split
    · rfl
    · rw [if_pos (by simp [ends]), if_pos (by simp [ends])]

theorem shortsStep (start : Bool) (piece after : Text) (later : List (Text × Text)) :
    shorts start ((piece,after) :: later) =
      (if Due start piece then [(stripLine piece,after)] else []) ++ shorts (piece.getLast? == some '\n') later := by
  rw [shorts]
  by_cases ends : piece.getLast? = some '\n'
  · cases start <;> cases skips : isSkipped (stripLine piece) <;> simp [Due,ends,skips]
  · rw [if_neg ends, if_neg fun due : Due start piece => ends due.1, beq_eq_false_iff_ne.mpr ends]
    rfl

theorem behind (give : Bool → List (Text × Text) → List (Text × Text)) (nil : ∀ flag, give flag [] = [])
    (step : ∀ flag (piece after : Text) later, '\n' ∉ piece.dropLast →
      ∃ here next, give flag ((piece,after) :: later) = here ++ give next later ∧ ∀ line ∈ here, line.2 = after)
    (flag : Bool) : ∀ line ∈ give flag (pieces file), line.2.length < file.length := by
  induction file using cutInduct generalizing flag with
  | nil =>
    rw [pieces, dif_pos rfl, nil]
    exact fun _ member => absurd member List.not_mem_nil
  | cut file piece rest cut ih =>
    obtain ⟨here,next,splits,stands⟩ := step flag piece rest (pieces rest) cut.inside
    rw [piecesCut cut, splits]
    intro line member
    rcases List.mem_append.mp member with first | later
    · rw [stands line first]
      exact cut.shorter
    · exact Nat.lt_trans (ih next line later) cut.shorter

theorem standsAt {p : Prop} [Decidable p] {line given : Text × Text} (member : line ∈ if p then [given] else []) : line.2 = given.2 := by
  split at member
  · rw [List.mem_singleton.mp member]
  · exact absurd member List.not_mem_nil

theorem outputsBehind (skipFlag : Bool) : ∀ line ∈ outputs skipFlag (pieces file), line.2.length < file.length :=
  behind outputs (fun _ => rfl) (fun flag _ after later inside =>
    ⟨_,_,outputsStep inside flag after later,fun _ member => standsAt member⟩) skipFlag

theorem shortsBehind (start : Bool) : ∀ line ∈ shorts start (pieces file), line.2.length < file.length :=
  behind shorts (fun _ => rfl) (fun flag piece after later _ =>
    ⟨_,_,shortsStep flag piece after later,fun _ member => standsAt member⟩) start

theorem soundIff (skipFlag start : Bool) :
    outputs skipFlag (pieces file) = shorts start (pieces file) ↔ Sound skipFlag start (pieces file) := by
  induction file using cutInduct generalizing skipFlag start with
  | nil => simp [pieces,outputs,shorts,Sound]
  | cut file piece rest cut ih =>
    rw [piecesCut cut, outputsStep cut.inside, shortsStep, Sound, soundHead, ← ih]
    by_cases given : Given skipFlag piece <;> by_cases due : Due start piece
    · simp [given,due]
    · simp only [given,due,if_true,if_false,List.nil_append,iff_false,not_true,false_and]
      intro same
      have member : (stripLine piece,rest) ∈ shorts (piece.getLast? == some '\n') (pieces rest) := by
        rw [← same]
        exact List.mem_append_left _ (List.mem_singleton_self _)
      exact Nat.lt_irrefl _ (shortsBehind _ _ member)
    · simp only [given,due,if_true,if_false,List.nil_append,iff_true,false_and,iff_false]
      intro same
      have member : (stripLine piece,rest) ∈ outputs (flagAfter skipFlag piece) (pieces rest) := by
        rw [same]
        exact List.mem_append_left _ (List.mem_singleton_self _)
      exact Nat.lt_irrefl _ (outputsBehind _ _ member)
    · simp [given,due]

theorem flagMiddle (whole : '\n' ∉ piece) (full : piece.length = buffSize - 1) (clean : nul ∉ piece) :
    flagAfter skipFlag piece = !skipFlag := by
  have some_ : ¬piece.isEmpty = true := by
    intro none_
    rw [List.isEmpty_iff.mp none_] at full
    exact absurd full (by decide)
  have middle : piece.getLast? ≠ some '\n' := fun last => whole (List.mem_of_getLast? last)
  rw [flagAfter, cstrWhole clean, if_neg some_, if_pos (by simp [middle])]

def before (line : Text) : Nat := line.length / (buffSize - 1)

/- The last piece of a line is dropped: the flag stands after an odd number of pieces, or it is blank or a comment. -/
def Dropped (line : Text) : Prop :=
  2 ≤ before line → before line % 2 = 0 → isSkipped (stripLine (line.drop ((buffSize - 1) * before line))) = true

theorem soundLines (clean : nul ∉ file) {j : Nat} (size : acc.length = (buffSize - 1) * j) :
    Sound (j % 2 == 1) (j == 0) (pieces file) ↔ ∀ line ∈ completeLines acc file, Dropped line.1 := by
  induction file using cutInduct generalizing acc j with
  | nil => simp [pieces,Sound,completeLines]
  | cut file piece rest cut ih =>
    rw [piecesCut cut, Sound]
    cases cut with
    | line body rest whole short =>
      have parts : nul ∉ body ∧ nul ∉ rest := by
        rw [List.mem_append, List.mem_cons, not_or, not_or] at clean
        exact ⟨clean.1,clean.2.2⟩
      have null : nul ∉ body ++ ['\n'] := by
        rw [List.mem_append, not_or]
        exact ⟨parts.1,by decide⟩
      have ends : (body ++ ['\n']).getLast? = some '\n' := List.getLast?_concat
      have some_ : ¬(body ++ ['\n']).isEmpty = true := by simp
      have flag : flagAfter (j % 2 == 1) (body ++ ['\n']) = false := by
        rw [flagAfter, cstrWhole null, if_neg some_, ends]
        cases j % 2 == 1 <;> rfl
      have count : before (acc ++ body) = j := by
        rw [before, List.length_append, size]
        simp only [buffSize] at *
        omega
      have later := ih parts.2 (show ([] : Text).length = (buffSize - 1) * 0 from rfl)
      rw [flag, ends, if_neg null, completeLinesLine whole, List.forall_mem_cons, ← later]
      refine and_congr ?_ Iff.rfl
      rw [Dropped, count, ← size, List.drop_left, stripEnd]
      cases isSkipped (stripLine body) with
      | true => simp
      | false =>
        simp only [forall_const,Bool.false_eq_true,false_or,imp_false]
        rw [Bool.eq_iff_iff]
        simp
        omega
    | full _ _ whole full =>
      rw [List.mem_append, not_or] at clean
      have middle : piece.getLast? ≠ some '\n' := fun last => whole (List.mem_of_getLast? last)
      have flag : flagAfter (j % 2 == 1) piece = ((j + 1) % 2 == 1) := by
        rw [flagMiddle whole full clean.1]
        rcases Nat.mod_two_eq_zero_or_one j with even | odd
        · simp [even,Nat.add_mod]
        · simp [odd,Nat.add_mod]
      have size' : (acc ++ piece).length = (buffSize - 1) * (j + 1) := by rw [List.length_append, size, full, Nat.mul_succ]
      rw [flag, beq_eq_false_iff_ne.mpr middle, completeLinesFull whole, ← ih clean.2 size']
      exact ⟨And.right,fun later => ⟨fun ends => absurd ends middle,later⟩⟩
    | last _ some_ whole short =>
      have middle : file.getLast? ≠ some '\n' := fun last => whole (List.mem_of_getLast? last)
      have none_ : completeLines acc (file ++ []) = [] := by rw [completeLinesFull whole]; rfl
      rw [List.append_nil] at none_
      rw [none_, pieces, dif_pos rfl]
      exact iff_of_true ⟨fun ends => absurd ends middle,trivial⟩ (fun _ member => absurd member List.not_mem_nil)

/- The reader gives the lines that fit, each where it stands, exactly when the flag stands right wherever a line ends. In a file
without NUL this is so for all lines but those of which an even number of pieces, not none, goes before the last. -/
theorem readsShortLinesIff (file : Text) :
    (readAll (file.length + 1) ⟨file,none,false⟩ [] = shortLines file ↔ Sound false true (pieces file)) ∧
      (nul ∉ file → (Sound false true (pieces file) ↔ ∀ line ∈ completeLines [] file, Dropped line.1)) := by
  refine ⟨?_,fun clean => soundLines clean (j := 0) rfl⟩
  rw [readAllOutputs _ (Nat.lt_succ_self _), shortLines, selectedShorts (.inl ⟨rfl,rfl⟩), soundIff]

theorem readsShortFile : readAll 5 ⟨['x', '=', '1', '\n'],none,false⟩ [] = shortLines ['x', '=', '1', '\n'] := by
  have reads := readsShortLinesIff ['x', '=', '1', '\n']
  refine reads.1.mpr ((reads.2 (by decide)).mpr fun line member => ?_)
  rw [show completeLines [] ['x', '=', '1', '\n'] = [(['x', '=', '1'],[])] by decide] at member
  rw [List.mem_singleton.mp member]
  exact fun long => absurd long (by decide)

/- The end of a line of 8191 characters is given as a line. -/
theorem readsFragment : readAll 8193 ⟨List.replicate 8190 'a' ++ ['b', '\n'],none,false⟩ [] = [(['b'],[])] ∧
    shortLines (List.replicate 8190 'a' ++ ['b', '\n']) = [] := by
  have plain : ∀ c, c ≠ 'a' → c ∉ List.replicate 4095 'a' := fun c differs member => differs (List.eq_of_mem_replicate member)
  have full : (List.replicate 4095 'a').length = buffSize - 1 := List.length_replicate
  have parts : List.replicate 8190 'a' ++ ['b', '\n'] = List.replicate 4095 'a' ++ (List.replicate 4095 'a' ++ (['b'] ++ '\n' :: [])) := by
    rw [← List.append_assoc, List.replicate_append_replicate]
    rfl
  have short : (List.replicate 8190 'a' ++ ['b', '\n']).length < 8193 := by
    rw [List.length_append, List.length_replicate]
    decide
  generalize List.replicate 4095 'a' = piece at plain full parts
  have whole := plain '\n' (by decide)
  have clean := plain nul (by decide)
  have dropped : ∀ flag, Given flag piece ↔ False := fun flag => iff_false_intro fun given => whole (List.mem_of_getLast? given.1)
  have cut : pieces (List.replicate 8190 'a' ++ ['b', '\n']) = [(piece,piece ++ ['b', '\n']),(piece,['b', '\n']),(['b', '\n'],[])] := by
    rw [parts, piecesCut (.full piece _ whole full), piecesCut (.full piece _ whole full),
      piecesCut (.line ['b'] [] (by decide) (by decide)), pieces, dif_pos rfl]
    rfl
  have inside : '\n' ∉ piece.dropLast := fun member => whole (List.dropLast_subset _ member)
  constructor
  · rw [readAllOutputs _ short, cut, outputsStep inside, outputsStep inside, if_neg (dropped _).mp, if_neg (dropped _).mp,
      flagMiddle whole full clean, flagMiddle whole full clean]
    decide
  · have middle : piece.getLast? ≠ some '\n' := fun last => whole (List.mem_of_getLast? last)
    rw [shortLines, selectedShorts (.inl ⟨rfl,rfl⟩), cut, shorts, if_neg middle, shorts, if_neg middle]
    decide

end Flags
end LibProc.LongLines
