import LibProc.Config
import LibProc.XdrOpaque

/-! XDR_array_field_scanner: a text cut at its commas. The commas are counted first, and the
text is then cut in place, one piece at a time, with the comma put back before the next piece is
looked for. The scanner of the elements gets the piece and the zeroed element; what it may
keep elsewhere is its state. -/
namespace LibProc.ArrayScanner
open Config (Text nul cstr cstrAfter setAfter)
open Xdr (lengthWord)

def comma : Char := ','

def strchr (c : Char) : Text → Nat → Option Nat
  | [],_ => none
  | b :: rest,p => if b = c then some p else if b = nul then none else strchr c rest (p + 1)

def findComma (mem : Text) (p : Nat) : Option Nat := strchr comma (mem.drop p) p

theorem strchrRange {c : Char} {text : Text} {p q : Nat} (found : strchr c text p = some q) : p ≤ q ∧ q < p + text.length := by
  induction text generalizing p with
  | nil => cases found
  | cons b rest ih =>
    rw [strchr] at found
    rw [List.length_cons]
    split at found
    · cases found
      omega
    split at found
    · cases found
    · have := ih found
      omega

theorem findRange {mem : Text} {p q : Nat} (found : findComma mem p = some q) : p ≤ q ∧ q < mem.length := by
  have range := strchrRange found
  rw [List.length_drop] at range
  omega

def countSeps (mem : Text) (p : Nat) : Nat :=
  match _ : findComma mem p with
  | none => 0
  | some q => countSeps mem (q + 1) + 1
termination_by mem.length - p
decreasing_by
  have := findRange (by assumption)
  omega

section
variable {σ D : Type}

abbrev Scan (σ D : Type) := σ → Text → D → σ × D

structure Progress (σ D : Type) where
  mem : Text
  array : List D
  state : σ

def scanInto (scan : Scan σ D) (zero : D) (mem : Text) (first i : Nat) (array : List D) (state : σ) : Option (List D × σ) :=
  if i < array.length then
    let scanned := scan state (cstr mem first) (array.getD i zero)
    some (array.set i scanned.2,scanned.1)
  else none

def scanElements (scan : Scan σ D) (zero : D) (len : Int) (mem : Text) (array : List D) (state : σ) (sep : Int) (i : Nat) :
    Option (Progress σ D) :=
  let first := (sep + 1).toNat
  match findComma mem first with
  | none => (scanInto scan zero mem first i array state).map fun done => ⟨mem,done.1,done.2⟩
  | some q =>
    (scanInto scan zero (mem.set q nul) first i array state).bind fun done =>
      let restored := (mem.set q nul).set q comma
      if ((i + 1 : Nat) : Int) < len then scanElements scan zero len restored done.1 done.2 q (i + 1)
      else some ⟨restored,done.1,done.2⟩
termination_by (len - i).toNat

/- How many elements there are in a block of `(*len) * increment` bytes, a product of size_t. -/
def elements (len : Int) (increment : Nat) : Nat := (len * increment % 2 ^ 64).toNat / increment

inductive Outcome (σ D : Type) where
  | untouched
  | stored (len : Int) (dst : Option (List D)) (mem : Text) (state : σ)
  | outside

/- `dst` and `len` say whether the two places to store to are given. Memory that is not given
is set to zero all the same: that is a write through NULL. -/
def xdrArrayFieldScanner (malloc dst len : Bool) (input : Option Text) (scan : Option (Scan σ D)) (increment : Nat)
    (zero : D) (state : σ) : Outcome σ D :=
  match input,scan with
  | some mem,some scan =>
    if dst = false ∨ len = false ∨ increment = 0 then .untouched
    else if mem.head? = some nul then .stored 0 none mem state
    else
      let count := (BitVec.ofNat 32 (countSeps mem 0 + 1)).toInt
      if malloc = false then .outside
      else
        match scanElements scan zero count mem (List.replicate (elements count increment) zero) state (-1) 0 with
        | none => .outside
        | some done => .stored count (some done.array) done.mem done.state
  | _,_ => .untouched

def scanAll (scan : Scan σ D) (zero : D) : σ → List Text → List D × σ
  | state,[] => ([],state)
  | state,piece :: rest =>
    let scanned := scan state piece zero
    let later := scanAll scan zero scanned.1 rest
    (scanned.2 :: later.1,later.2)

theorem scanAllLength (scan : Scan σ D) (zero : D) (state : σ) (pieces : List Text) :
    (scanAll scan zero state pieces).1.length = pieces.length := by
  induction pieces generalizing state with
  | nil => rfl
  | cons piece rest ih => rw [scanAll, List.length_cons, List.length_cons, ih]

theorem scanAllAt (scan : Scan σ D) (zero : D) (state : σ) {pieces : List Text} {i : Nat} {piece : Text}
    (here : pieces[i]? = some piece) :
    (scanAll scan zero state pieces).1[i]? = some (scan (scanAll scan zero state (pieces.take i)).2 piece zero).2 := by
  induction pieces generalizing state i with
  | nil => cases here
  | cons head rest ih =>
    cases i with
    | zero =>
      cases here
      rfl
    | succ i => exact ih _ here

end

theorem strchrAbsent {c : Char} {text : Text} (absent : c ∉ text) (other : c ≠ nul) (after : Text) (p : Nat) :
    strchr c (text ++ nul :: after) p = none := by
  induction text generalizing p with
  | nil => rw [List.nil_append, strchr, if_neg other.symm, if_pos rfl]
  | cons b rest ih =>
    obtain ⟨differs,later⟩ := not_or.mp (mt List.mem_cons.mpr absent)
    rw [List.cons_append, strchr, if_neg (Ne.symm differs)]
    split
    · rfl
    · exact ih later (p + 1)

theorem strchrFirst {c : Char} {text : Text} (absent : c ∉ text) (clean : nul ∉ text) (after : Text) (p : Nat) :
    strchr c (text ++ c :: after) p = some (p + text.length) := by
  induction text generalizing p with
  | nil => rw [List.nil_append, strchr, if_pos rfl, List.length_nil, Nat.add_zero]
  | cons b rest ih =>
    obtain ⟨differs,later⟩ := not_or.mp (mt List.mem_cons.mpr absent)
    obtain ⟨inner,clean'⟩ := not_or.mp (mt List.mem_cons.mpr clean)
    rw [List.cons_append, strchr, if_neg (Ne.symm differs), if_neg (Ne.symm inner), ih later clean', List.length_cons]
    congr 1
    omega

theorem pieceInduct {motive : Text → Prop} (last : ∀ text, comma ∉ text → motive text)
    (piece : ∀ piece rest, comma ∉ piece → motive rest → motive (piece ++ comma :: rest)) (text : Text) : motive text := by
  induction size : text.length using Nat.strong_induction_on generalizing text with
  | _ n ih =>
    by_cases inside : comma ∈ text
    · obtain ⟨first,rest,rfl,absent⟩ := List.eq_append_cons_of_mem inside
      have shorter : rest.length < n := by
        simp only [List.length_append,List.length_cons] at size
        omega
      exact piece first rest absent (ih rest.length shorter rest rfl)
    · exact last text inside

theorem countCons {piece : Text} (absent : comma ∉ piece) (rest : Text) :
    (piece ++ comma :: rest).count comma = rest.count comma + 1 := by
  rw [List.count_append, List.count_eq_zero.mpr absent, List.count_cons_self, Nat.zero_add]

theorem findLast {rest : Text} (absent : comma ∉ rest) (before after : Text) :
    findComma (before ++ (rest ++ nul :: after)) before.length = none := by
  rw [findComma, List.drop_left]
  exact strchrAbsent absent (by decide) after _

theorem findFirst {piece : Text} (absent : comma ∉ piece) (clean : nul ∉ piece) (before after : Text) :
    findComma (before ++ (piece ++ comma :: after)) before.length = some (before.length + piece.length) := by
  rw [findComma, List.drop_left]
  exact strchrFirst absent clean after _

theorem countSepsStop {mem : Text} {p : Nat} (last : findComma mem p = none) : countSeps mem p = 0 := by
  rw [countSeps]
  split
  · rfl
  · rename_i found
    cases last.symm.trans found

theorem countSepsNext {mem : Text} {p q : Nat} (next : findComma mem p = some q) : countSeps mem p = countSeps mem (q + 1) + 1 := by
  rw [countSeps]
  split
  · rename_i found
    cases next.symm.trans found
  · rename_i found
    cases next.symm.trans found
    rfl

theorem countSepsCounts {text : Text} (clean : nul ∉ text) (before after : Text) :
    countSeps (before ++ (text ++ nul :: after)) before.length = text.count comma := by
  induction text using pieceInduct generalizing before with
  | last text absent => rw [countSepsStop (findLast absent before after), List.count_eq_zero.mpr absent]
  | piece piece rest absent ih =>
    simp only [List.mem_append,List.mem_cons,not_or] at clean
    have place : before.length + piece.length + 1 = (before ++ (piece ++ [comma])).length := by
      simp only [List.length_append,List.length_singleton]
      omega
    have same : before ++ (piece ++ comma :: rest ++ nul :: after) =
        before ++ (piece ++ [comma]) ++ (rest ++ nul :: after) := by simp
    have found : findComma (before ++ (piece ++ comma :: rest ++ nul :: after)) before.length =
        some (before.length + piece.length) := by
      rw [List.append_assoc piece, List.cons_append]
      exact findFirst absent clean.1 before _
    rw [countSepsNext found, same, place, ih clean.2.2 (before ++ (piece ++ [comma])), countCons absent]

section
variable {σ D : Type}

theorem scanIntoNext (scan : Scan σ D) (zero : D) (finished rest : List D) (state : σ) {mem piece : Text} {first i : Nat}
    (string : cstr mem first = piece) (place : i = finished.length) :
    scanInto scan zero mem first i (finished ++ zero :: rest) state =
      some (finished ++ (scan state piece zero).2 :: rest,(scan state piece zero).1) := by
  subst place
  have inside : finished.length < (finished ++ zero :: rest).length := by
    rw [List.length_append, List.length_cons]
    omega
  have old : (finished ++ zero :: rest).getD finished.length zero = zero := by simp
  rw [scanInto, if_pos inside]
  simp only [old,string]
  rw [List.set_append_right _ _ (Nat.le_refl _), Nat.sub_self, List.set_cons_zero]

theorem scanElementsAll (scan : Scan σ D) (zero : D) {text : Text} (clean : nul ∉ text) (before after : Text) (finished : List D)
    (state : σ) :
    scanElements scan zero ((finished.length + text.count comma + 1 : Nat) : Int) (before ++ (text ++ nul :: after))
        (finished ++ List.replicate (text.count comma + 1) zero) state ((before.length : Int) - 1) finished.length =
      some ⟨before ++ (text ++ nul :: after),finished ++ (scanAll scan zero state (text.splitOn comma)).1,
        (scanAll scan zero state (text.splitOn comma)).2⟩ := by
  induction text using pieceInduct generalizing before finished state with
  | last text absent =>
    have first : ((before.length : Int) - 1 + 1).toNat = before.length := by omega
    have string := cstrAfter before text after clean rfl
    rw [scanElements]
    simp only [first,findLast absent before after]
    rw [List.replicate_succ, scanIntoNext scan zero finished _ state string rfl, List.count_eq_zero.mpr absent,
      List.splitOn_eq_singleton absent]
    rfl
  | piece piece rest absent ih =>
    have first : ((before.length : Int) - 1 + 1).toNat = before.length := by omega
    simp only [List.mem_append,List.mem_cons,not_or] at clean
    have whole : before ++ (piece ++ comma :: rest ++ nul :: after) = before ++ (piece ++ comma :: (rest ++ nul :: after)) := by
      rw [List.append_assoc piece, List.cons_append]
    have cut : (before ++ (piece ++ comma :: (rest ++ nul :: after))).set (before.length + piece.length) nul =
        before ++ (piece ++ nul :: (rest ++ nul :: after)) := by
      rw [← List.append_assoc before, ← List.append_assoc before]
      exact setAfter (before ++ piece) _ comma nul (List.length_append).symm
    have restored : (before ++ (piece ++ nul :: (rest ++ nul :: after))).set (before.length + piece.length) comma =
        before ++ (piece ++ comma :: (rest ++ nul :: after)) := by
      rw [← List.append_assoc before, ← List.append_assoc before]
      exact setAfter (before ++ piece) _ nul comma (List.length_append).symm
    have string := cstrAfter before piece (rest ++ nul :: after) clean.1 rfl
    have more : ((finished.length + 1 : Nat) : Int) < ((finished.length + (rest.count comma + 1) + 1 : Nat) : Int) := by omega
    have later := ih clean.2.2 (before ++ (piece ++ [comma])) (finished ++ [(scan state piece zero).2])
      (scan state piece zero).1
    have ahead : ((before ++ (piece ++ [comma])).length : Int) - 1 = ((before.length + piece.length : Nat) : Int) := by
      simp only [List.length_append,List.length_singleton]
      omega
    have same : before ++ (piece ++ [comma]) ++ (rest ++ nul :: after) = before ++ (piece ++ comma :: (rest ++ nul :: after)) := by
      simp only [List.append_assoc,List.cons_append,List.nil_append]
    have count : (finished ++ [(scan state piece zero).2]).length + rest.count comma + 1 =
        finished.length + (rest.count comma + 1) + 1 := by
      rw [List.length_append, List.length_singleton]
      omega
    rw [ahead, same, count, List.length_append, List.length_singleton, List.append_assoc, List.append_assoc,
      List.singleton_append, List.singleton_append] at later
    rw [scanElements, countCons absent]
    simp only [first,whole,findFirst absent clean.1 before (rest ++ nul :: after),cut]
    rw [List.replicate_succ, scanIntoNext scan zero finished _ state string rfl, Option.bind_some]
    simp only [restored,if_pos more]
    rw [later, List.splitOn_append_cons_self_of_not_mem absent]
    rfl

theorem splitLength (text : Text) : (text.splitOn comma).length = text.count comma + 1 := by
  induction text using pieceInduct with
  | last text absent =>
    rw [List.splitOn_eq_singleton absent, List.count_eq_zero.mpr absent]
    rfl
  | piece piece rest absent ih =>
    rw [List.splitOn_append_cons_self_of_not_mem absent, List.length_cons, ih, countCons absent]

theorem elementsFit {len increment : Nat} (positive : increment ≠ 0) (fits : len * increment < 2 ^ 64) :
    elements len increment = len := by
  have whole : (((len : Int) * increment) % 2 ^ 64).toNat = len * increment := by
    rw [← Int.natCast_mul]
    omega
  rw [elements, whole, Nat.mul_div_cancel _ (Nat.pos_of_ne_zero positive)]

theorem headClean {text : Text} (some_ : text ≠ []) (clean : nul ∉ text) (after : Text) :
    (text ++ nul :: after).head? ≠ some nul := by
  obtain ⟨c,rest,rfl⟩ := List.exists_cons_of_ne_nil some_
  rw [List.cons_append, List.head?_cons]
  rintro same
  cases same
  exact clean List.mem_cons_self

/- Any text, and any scanner that leaves its text alone: there is an element for each piece, and
the text is as it was. -/
theorem arrayScanned (scan : Scan σ D) (zero : D) (state : σ) {text : Text} (clean : nul ∉ text) (some_ : text ≠ [])
    (counted : text.count comma + 1 < 2 ^ 31) {increment : Nat} (positive : increment ≠ 0)
    (fits : (text.count comma + 1) * increment < 2 ^ 64) (after : Text) :
    xdrArrayFieldScanner true true true (some (text ++ nul :: after)) (some scan) increment zero state =
        .stored ((text.count comma + 1 : Nat) : Int) (some (scanAll scan zero state (text.splitOn comma)).1) (text ++ nul :: after)
          (scanAll scan zero state (text.splitOn comma)).2 ∧
      (scanAll scan zero state (text.splitOn comma)).1.length = text.count comma + 1 ∧
      ∀ i piece, (text.splitOn comma)[i]? = some piece → (scanAll scan zero state (text.splitOn comma)).1[i]? =
        some (scan (scanAll scan zero state ((text.splitOn comma).take i)).2 piece zero).2 := by
  refine ⟨?_,by rw [scanAllLength, splitLength],fun i piece here => scanAllAt scan zero state here⟩
  have seps : countSeps (text ++ nul :: after) 0 = text.count comma := countSepsCounts clean [] after
  have all := scanElementsAll scan zero clean [] after [] state
  simp only [List.nil_append,List.length_nil,Nat.zero_add] at all
  have start : ((0 : Nat) : Int) - 1 = -1 := rfl
  rw [start] at all
  simp only [xdrArrayFieldScanner,seps,lengthWord counted,elementsFit positive fits,all]
  rw [if_neg (by simp [positive]), if_neg (headClean some_ clean after), if_neg (by simp)]

def scanSize : Scan Unit Nat := fun _ piece _ => ((),piece.length)

theorem trailingScanned : xdrArrayFieldScanner true true true (some (['a','b',','] ++ nul :: [])) (some scanSize) 8 0 () =
    .stored 2 (some [2,0]) ['a','b',',',nul] () :=
  (arrayScanned scanSize 0 () (by decide) (by decide) (by decide) (by decide) (by decide) []).1

theorem storedLength {malloc : Bool} {mem mem' : Text} {scan : Scan σ D} {increment : Nat} {zero : D} {state state' : σ} {len : Int}
    {dst : Option (List D)} (some_ : mem.head? ≠ some nul)
    (stored : xdrArrayFieldScanner malloc true true (some mem) (some scan) increment zero state = .stored len dst mem' state') :
    len = (BitVec.ofNat 32 (countSeps mem 0 + 1)).toInt := by
  simp only [xdrArrayFieldScanner,some_,if_false] at stored
  split at stored
  · cases stored
  split at stored
  · cases stored
  split at stored
  · cases stored
  · cases stored
    rfl

theorem hugeArrayMiscounted : ¬∃ dst mem' state',
    xdrArrayFieldScanner true true true (some (List.replicate (2 ^ 31 - 1) comma ++ nul :: [])) (some scanSize) 8 0 () =
      .stored (((List.replicate (2 ^ 31 - 1) comma).count comma + 1 : Nat) : Int) dst mem' state' := by
  rintro ⟨dst,mem',state',stored⟩
  have clean : nul ∉ List.replicate (2 ^ 31 - 1) comma := fun inside => absurd (List.eq_of_mem_replicate inside) (by decide)
  have some_ : List.replicate (2 ^ 31 - 1) comma ≠ [] := by
    intro none_
    have lengths := congrArg List.length none_
    rw [List.length_replicate, List.length_nil] at lengths
    exact absurd lengths (by decide)
  have len := storedLength (headClean some_ clean []) stored
  rw [show countSeps (List.replicate (2 ^ 31 - 1) comma ++ nul :: []) 0 = _ from countSepsCounts clean [] [],
    List.count_replicate_self] at len
  exact absurd len (by decide)

end

end LibProc.ArrayScanner
