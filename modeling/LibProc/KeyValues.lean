import LibProc.ArrayScanner
import LibProc.HexText
import LibProc.JsonGetters
import LibProc.XdrRoundTrip
import Mathlib.Data.List.Nodup

/-! The text of a structure. XDR_print_fields_func prints a line `key=value` for each field in the style
XDR_PRINT_KVP, and the command line takes such texts for the fields of a parameter. -/
namespace LibProc.KeyValues
open Config (Text nul strcaseEq)
open ParseCmd (isspace)
open Json (baseOf digitOf)
open XdrBytes Xdr XdrDict

section Numbers

def natText (n : Nat) : Text := Nat.toDigits 10 n

def intText (i : Int) : Text := if i < 0 then '-' :: natText i.natAbs else natText i.natAbs

def magnitude (base : Nat) (text : Text) : Option Nat :=
  let (base,digits) := baseOf base text
  let digits := digits.takeWhile fun c => digitOf c < base
  if digits = [] then none else some (digits.foldl (fun n c => n * base + digitOf c) 0)

def numeral (base : Nat) (text : Text) : Option (Bool × Nat) :=
  match text.dropWhile isspace with
  | '-' :: rest => (magnitude base rest).map fun n => (true,n)
  | '+' :: rest => (magnitude base rest).map fun n => (false,n)
  | text => (magnitude base text).map fun n => (false,n)

def signedOf (number : Bool × Nat) : Int := max (-2 ^ 63) (min (2 ^ 63 - 1) (if number.1 = true then -number.2 else number.2))

def unsignedOf (number : Bool × Nat) : BitVec 64 :=
  if 2 ^ 64 ≤ number.2 then -1 else BitVec.ofInt 64 (if number.1 = true then -number.2 else number.2)

theorem digitTen {c : Char} (digit : c.isDigit = true) : digitOf c = c.toNat - '0'.toNat ∧ digitOf c < 10 := by
  have range : '0' ≤ c ∧ c ≤ '9' := by
    simpa [Char.isDigit,Char.le_def] using digit
  have most : c.toNat ≤ '9'.toNat := range.2
  rw [digitOf, if_pos range]
  refine ⟨rfl,?_⟩
  have nine : '9'.toNat = 57 := rfl
  have zero : '0'.toNat = 48 := rfl
  omega

theorem digitsOf (n : Nat) : ∀ c ∈ natText n, c.isDigit = true := fun _ inside => Nat.isDigit_of_mem_toDigits (by decide) (by decide) inside

theorem digitsAll (n : Nat) : (natText n).takeWhile (fun c => digitOf c < 10) = natText n := by
  rw [List.takeWhile_eq_self_iff]
  intro c inside
  exact decide_eq_true (digitTen (digitsOf n c inside)).2

theorem digitsValue (n : Nat) : (natText n).foldl (fun n c => n * 10 + digitOf c) 0 = n := by
  have same : ∀ text : Text, (∀ c ∈ text, c.isDigit = true) → ∀ k,
      text.foldl (fun n c => n * 10 + digitOf c) k = Nat.ofDigitChars 10 text k := by
    intro text digits
    induction text with
    | nil => intro k; rfl
    | cons c rest ih =>
      obtain ⟨first,others⟩ := List.forall_mem_cons.mp digits
      intro k
      rw [List.foldl_cons, ih others, Nat.ofDigitChars_cons, (digitTen first).1, Nat.mul_comm]
  rw [same _ (digitsOf n), natText, Nat.ofDigitChars_ten_toDigits]

theorem leadingDigit {n : Nat} (positive : 0 < n) : ∃ c rest, natText n = c :: rest ∧ c ≠ '0' := by
  induction n using Nat.strong_induction_on with
  | _ n ih =>
    rw [natText, Nat.toDigits_eq_if (by decide)]
    split
    · next small =>
      refine ⟨_,[],rfl,fun same => ?_⟩
      have value := Nat.toNat_digitChar_of_lt_ten small
      rw [same] at value
      have zero : '0'.toNat = 48 := rfl
      omega
    · obtain ⟨c,rest,is,other⟩ := ih (n / 10) (by omega) (by omega)
      rw [natText] at is
      exact ⟨c,rest ++ [Nat.digitChar (n % 10)],by rw [is]; rfl,other⟩

theorem baseOfDigits {base : Nat} (ten : base = 0 ∨ base = 10) {n : Nat} (positive : 0 < n) : baseOf base (natText n) = (10,natText n) := by
  obtain ⟨c,rest,is,other⟩ := leadingDigit positive
  rcases ten with rfl | rfl
  · simp [is,baseOf,other]
  · simp [baseOf]

theorem digitHead (n : Nat) : ∃ c rest, natText n = c :: rest ∧ c.isDigit = true := by
  obtain ⟨c,rest,is⟩ := List.exists_cons_of_ne_nil (Nat.toDigits_ne_nil (b := 10) (n := n))
  exact ⟨c,rest,is,digitsOf n c (by rw [natText, is]; exact List.mem_cons_self)⟩

theorem magnitudeDigits {base : Nat} (ten : base = 0 ∨ base = 10) (n : Nat) : magnitude base (natText n) = some n := by
  rcases Nat.eq_zero_or_pos n with rfl | positive
  · rcases ten with rfl | rfl
    · decide
    · decide
  · have some_ : natText n ≠ [] := Nat.toDigits_ne_nil
    simp only [magnitude,baseOfDigits ten positive,digitsAll,digitsValue]
    rw [if_neg some_]

theorem digitPlain {c : Char} (digit : c.isDigit = true) : isspace c = false ∧ c ≠ '-' ∧ c ≠ '+' := by
  have range : '0' ≤ c ∧ c ≤ '9' := by
    simpa [Char.isDigit,Char.le_def] using digit
  have least : '0'.toNat ≤ c.toNat := range.1
  have zero : '0'.toNat = 48 := rfl
  have other : ∀ d : Char, d.toNat < 48 → c ≠ d := by
    rintro d small rfl
    omega
  refine ⟨?_,other '-' (by decide),other '+' (by decide)⟩
  simp only [isspace,List.mem_cons,List.not_mem_nil,or_false,decide_eq_false_iff_not,not_or]
  exact ⟨other _ (by decide),other _ (by decide),other _ (by decide),other _ (by decide),other _ (by decide),other _ (by decide)⟩

theorem numeralDigits {base : Nat} (ten : base = 0 ∨ base = 10) (n : Nat) : numeral base (natText n) = some (false,n) := by
  obtain ⟨c,rest,is,digit⟩ := digitHead n
  obtain ⟨solid,minus,plus⟩ := digitPlain digit
  have whole : (natText n).dropWhile isspace = natText n := by
    rw [is, List.dropWhile_cons, solid]
    rfl
  have value := magnitudeDigits ten n
  rw [is] at whole value
  rw [numeral, is, whole]
  split
  · next same => exact absurd (List.cons.inj same).1 minus
  · next same => exact absurd (List.cons.inj same).1 plus
  · rw [value]
    rfl

theorem numeralMinus {base : Nat} (ten : base = 0 ∨ base = 10) (n : Nat) : numeral base ('-' :: natText n) = some (true,n) := by
  have whole : ('-' :: natText n).dropWhile isspace = '-' :: natText n := rfl
  rw [numeral, whole]
  simp only [magnitudeDigits ten n,Option.map_some]

theorem numeralInt {base : Nat} (ten : base = 0 ∨ base = 10) {i : Int} (least : -2 ^ 63 ≤ i) (most : i < 2 ^ 63) :
    ∃ number, numeral base (intText i) = some number ∧ signedOf number = i := by
  rw [intText]
  split
  · refine ⟨_,numeralMinus ten _,?_⟩
    rw [signedOf, if_pos rfl]
    omega
  · refine ⟨_,numeralDigits ten _,?_⟩
    rw [signedOf, if_neg (by simp)]
    omega

end Numbers

structure Field where
  funcs : TypeFunctions
  lenOffset : Nat
  structId : Nat
  key : Option Text
  inverseConv : Option Nat

def fieldList : List Field → FieldList
  | [] => .nil
  | f :: rest => .cons f.funcs f.lenOffset f.structId (fieldList rest)

structure Generated where
  printReal : Scalar → Val → Text
  scanReal : Scalar → Option Nat → Text → Val → Val
  printStruct : TypeFunctions → Nat → Text → Val → Option Text
  scanStruct : TypeFunctions → Nat → Option (Text → Val → Val)

def charOf (b : Byte) : Char := Char.ofNat b.toNat
def byteOf (c : Char) : Byte := BitVec.ofNat 8 c.toNat
def textOf (s : List Byte) : Text := s.map charOf
def bytesOf (text : Text) : List Byte := text.map byteOf

section Printing
variable (g : Generated)

def keyLine (name value : Text) : Text := name ++ '=' :: (value ++ ['\n'])

def scalarText : Scalar → Val → Option Text
  | .int32,.word w => some (intText w.toInt)
  | .uint32,.word w => some (natText w.toNat)
  | .int64,.dword d => some (intText d.toInt)
  | .uint64,.dword d => some (natText d.toNat)
  | .float,v => some (g.printReal .float v)
  | .double,v => some (g.printReal .double v)
  | _,_ => none

def printScalar (s : Scalar) (key : Text) (v : Val) : Option Text := (scalarText g s v).map (keyLine key)

def printElements (print : Val → Option Text) (vs : List Val) : Nat → Nat → Option Text
  | 0,_ => some []
  | count + 1,i => do
    let v ← vs[i]?
    let line ← print v
    let rest ← printElements print vs count (i + 1)
    some ((if 0 < i then ',' :: line else line) ++ rest)

/- The key of a field or an entry below that of its parent, in 1024 bytes; without a parent it is copied. -/
def joinedKey (parent key : Text) : Option Text :=
  if parent = [] then if key.length < 1024 then some key else none
  else some ((parent ++ '_' :: key).take 1023)

def printEntries (print : Text → Val → Option Text) (parent : Text) : List (Key × Val) → Option Text
  | [] => some []
  | (key,v) :: rest => do
    let name ← joinedKey parent (textOf key)
    let line ← print name v
    let lines ← printEntries print parent rest
    some (line ++ lines)

def lengthAt (cells : List Val) (lenOffset : Nat) : Option Int :=
  match cells[lenOffset]? with
  | some (.word w) => some w.toInt
  | _ => none

def hasPrinter : TypeFunctions → Bool
  | .union | .unionArr | .dict .union => false
  | _ => true

/- The printers of the tables of xdr.c. Those of the other dictionaries and XDR_print_field_string are
assertions. -/
def printField (f : Field) (key : Text) (cells : List Val) (v : Val) : Option Text :=
  match f.funcs,v with
  | .scalar s,v => printScalar g s key v
  | .uint32Bitfield,v => printScalar g .uint32 key v
  | .int32Bitfield,v => printScalar g .int32 key v
  | .array _,.null => some []
  | .array s,.array vs => do
    let len ← lengthAt cells f.lenOffset
    printElements (printScalar g s key) vs len.toNat 0
  | .stringArr,v => (stringBytes v).map fun s => keyLine key (textOf s)
  | .byteArr,.null => some []
  | .byteArr,.chars s => do
    let len ← lengthAt cells f.lenOffset
    if s.length < len.toNat then none else some (HexText.xdrPrintFieldByteArray (some s) (some len))
  | .dict (.scalar .int32),.dict table => printEntries (printScalar g .int32) key (entries table)
  | .struct fields,v => g.printStruct (.struct fields) f.structId key v
  | .structArr fields,v => g.printStruct (.structArr fields) f.structId key v
  | _,_ => none

def printFields (parent : Text) (cells : List Val) : List Field → Nat → Option Text
  | [],_ => some []
  | f :: rest,i => do
    let line ← match hasPrinter f.funcs,f.key with
      | true,some key => do
        let name ← joinedKey parent key
        let v ← cells[i]?
        printField g f name cells v
      | _,_ => some []
    let lines ← printFields parent cells rest (i + 1)
    some (line ++ lines)

def xdrPrintFieldsFunc (parent : Text) (fields : List Field) (cells : List Val) : Option Text := printFields g parent cells fields 0

end Printing

section Scanning
variable (g : Generated)

def scanScalar (s : Scalar) (conv : Option Nat) (text : Text) (v : Val) : Val :=
  match s,conv with
  | .int32,none | .uint32,none => match numeral 0 text with
    | some number => .word (BitVec.ofInt 32 (signedOf number))
    | none => v
  | .int64,none => match numeral 10 text with
    | some number => .dword (BitVec.ofInt 64 (signedOf number))
    | none => v
  | .uint64,none => match numeral 10 text with
    | some number => .dword (unsignedOf number)
    | none => v
  | s,conv => g.scanReal s conv text v

/- strdup, or strcpy over the string that is there: `none` where it has less room. -/
def scanString (memory : Bool) (text : Text) : Val → Option Val
  | .null => some (if memory = true then .chars (bytesOf text) else .null)
  | .chars s =>
    if text.length ≤ s.length then some (.chars ((bytesOf text ++ 0 :: s.drop (text.length + 1)).take s.length)) else none
  | _ => none

def store (cells : List Val) (i : Nat) (v : Val) : Option (List Val) := if i < cells.length then some (cells.set i v) else none

def storeCounted (cells : List Val) (f : Field) (i : Nat) (len : Int) (v : Val) : Option (List Val) := do
  let cells ← store cells f.lenOffset (.word (BitVec.ofInt 32 len))
  store cells i v

def hasScanner (f : Field) : Bool :=
  match f.funcs with
  | .union | .unionArr | .dict .union => false
  | .struct _ | .structArr _ => (g.scanStruct f.funcs f.structId).isSome
  | _ => true

def scanField (memory : Bool) (f : Field) (text : Text) (cells : List Val) (i : Nat) : Option (List Val) := do
  let v ← cells[i]?
  match f.funcs with
  | .scalar s => store cells i (scanScalar g s f.inverseConv text v)
  | .uint32Bitfield => store cells i (scanScalar g .uint32 f.inverseConv text v)
  | .int32Bitfield => store cells i (scanScalar g .int32 f.inverseConv text v)
  | .string | .stringArr => do
    let v ← scanString memory text v
    store cells i v
  | .byteArr => do
    let (len,s) ← HexText.xdrScanByteArray memory (text ++ [nul])
    storeCounted cells f i len (.chars s)
  | .array s =>
    match ArrayScanner.xdrArrayFieldScanner memory true true (some (text ++ [nul]))
        (some fun _ piece v => ((),scanScalar g s f.inverseConv piece v)) (width s) (zeroOf (.scalar s)) () with
    | .stored len dst _ _ => storeCounted cells f i len ((dst.map Val.array).getD .null)
    | .untouched => some cells
    | .outside => none
  | .struct _ | .structArr _ => match g.scanStruct f.funcs f.structId with
    | some scan => store cells i (scan text v)
    | none => some cells
  | .dict _ => none
  | .union | .unionArr => some cells

def findField (key : Text) : List Field → Nat → Option (Nat × Field)
  | [],_ => none
  | f :: rest,i => if (f.key.any fun own => strcaseEq own key) = true ∧ hasScanner g f = true then some (i,f) else findField key rest (i + 1)

inductive Refusal where
  | help
  | crash
  deriving DecidableEq

def assign (memory : Bool) (fields : List Field) (arg : Text) (cells : List Val) : Except Refusal (List Val) :=
  match arg.dropWhile (· ≠ '=') with
  | [] => .error .help
  | _ :: value => match findField g (arg.takeWhile (· ≠ '=')) fields 0 with
    | none => .error .help
    | some (i,f) => match scanField g memory f value cells i with
      | none => .error .crash
      | some cells => .ok cells

def assignAll (memory : Nat → Bool) (fields : List Field) : List Text → Nat → List Val → Except Refusal (List Val)
  | [],_,cells => .ok cells
  | arg :: rest,n,cells => do
    let cells ← assign g (memory n) fields arg cells
    assignAll memory fields rest (n + 1) cells

end Scanning

inductive Plain : TypeFunctions → Val → Text → Val → Prop where
  | int32 (w : BitVec 32) : Plain (.scalar .int32) (.word w) (intText w.toInt) (.word w)
  | uint32 (w : BitVec 32) : Plain (.scalar .uint32) (.word w) (natText w.toNat) (.word w)
  | int64 (d : BitVec 64) : Plain (.scalar .int64) (.dword d) (intText d.toInt) (.dword d)
  | uint64 (d : BitVec 64) : Plain (.scalar .uint64) (.dword d) (natText d.toNat) (.dword d)
  | int32Bitfield (w : BitVec 32) : Plain .int32Bitfield (.word w) (intText w.toInt) (.word w)
  | uint32Bitfield (w : BitVec 32) : Plain .uint32Bitfield (.word w) (natText w.toNat) (.word w)
  | nullString : Plain .stringArr .null [] (.chars [])
  | string (s : List Byte) (clean : 0 ∉ s) (oneLine : 10 ∉ s) : Plain .stringArr (.chars s) (textOf s) (.chars s)

/- What is printed of a keyed field without a conversion can be scanned; a field without a key or without a
printer is not printed, and has been left as it was allocated. -/
structure Keyed (f : Field) (key : Text) : Prop where
  named : f.key = some key
  unconverted : f.inverseConv = none
  short : key.length < 1024
  noEquals : '=' ∉ key
  oneLine : '\n' ∉ key

inductive Printable (f : Field) (v : Val) : Prop where
  | line {key text : Text} {c : Val} (keyed : Keyed f key) (plain : Plain f.funcs v text c)
  | silent (unseen : f.key = none ∨ hasPrinter f.funcs = false) (zero : v = zeroOf f.funcs)

section Lines
variable {g : Generated} {f : Field} {v c : Val} {text key : Text}

theorem byteOfChar (b : Byte) : byteOf (charOf b) = b := by
  have small : b.toNat < 256 := b.isLt
  have valid : b.toNat.isValidChar := .inl (by omega)
  have back : (Char.ofNat b.toNat).toNat = b.toNat := by
    rw [Char.ofNat, dif_pos valid]
    rfl
  rw [byteOf, charOf, back, BitVec.ofNat_toNat, BitVec.setWidth_eq]

theorem bytesOfText (s : List Byte) : bytesOf (textOf s) = s := by
  rw [bytesOf, textOf, List.map_map]
  exact (List.map_congr_left fun b _ => byteOfChar b).trans (List.map_id s)

theorem digitsOneLine (n : Nat) : '\n' ∉ natText n := fun inside => absurd (digitsOf n _ inside) (by decide)

theorem intOneLine (i : Int) : '\n' ∉ intText i := by
  rw [intText]
  split
  · rw [List.mem_cons, not_or]
    exact ⟨by decide,digitsOneLine _⟩
  · exact digitsOneLine _

theorem Plain.oneLine {funcs : TypeFunctions} (plain : Plain funcs v text c) : '\n' ∉ text := by
  cases plain with
  | int32 | int64 | int32Bitfield => exact intOneLine _
  | uint32 | uint64 | uint32Bitfield => exact digitsOneLine _
  | nullString => exact List.not_mem_nil
  | string s clean oneLine =>
    intro inside
    obtain ⟨b,there,is⟩ := List.mem_map.mp inside
    have same : b = 10 := (byteOfChar b).symm.trans (congrArg byteOf is)
    exact oneLine (same ▸ there)

theorem Plain.equal {funcs : TypeFunctions} (plain : Plain funcs v text c) : Equal v c := by
  cases plain with
  | nullString => exact .nullString
  | _ => exact .refl _

theorem Plain.printer {funcs : TypeFunctions} (plain : Plain funcs v text c) : hasPrinter funcs = true := by
  cases plain <;> rfl

theorem Plain.scanner (plain : Plain f.funcs v text c) : hasScanner g f = true := by
  obtain ⟨funcs,_,_,_,_⟩ := f
  cases plain <;> rfl

theorem Plain.prints (plain : Plain f.funcs v text c) (key : Text) (cells : List Val) :
    printField g f key cells v = some (keyLine key text) := by
  obtain ⟨funcs,_,_,_,_⟩ := f
  cases plain with
  | string s clean =>
    have whole : strlen s = s := by
      rw [strlen, List.takeWhile_eq_self_iff]
      intro b inside
      exact decide_eq_true fun zero => clean (zero ▸ inside)
    simp only [printField,stringBytes,whole]
    rfl
  | _ => rfl

theorem scanWord {s : Scalar} (word : s = .int32 ∨ s = .uint32) {number : Bool × Nat} (reads : numeral 0 text = some number) (v : Val) :
    scanScalar g s none text v = .word (BitVec.ofInt 32 (signedOf number)) := by
  rcases word with rfl | rfl
  · simp only [scanScalar,reads]
  · simp only [scanScalar,reads]

theorem scanInt (w : BitVec 32) {s : Scalar} (word : s = .int32 ∨ s = .uint32) (v : Val) :
    scanScalar g s none (intText w.toInt) v = .word w := by
  have low := BitVec.le_toInt w
  have high := @BitVec.toInt_lt 32 w
  obtain ⟨number,reads,value⟩ := numeralInt (i := w.toInt) (.inl rfl) (by omega) (by omega)
  rw [scanWord word reads, value, BitVec.ofInt_toInt]

theorem scanNat (w : BitVec 32) {s : Scalar} (word : s = .int32 ∨ s = .uint32) (v : Val) :
    scanScalar g s none (natText w.toNat) v = .word w := by
  have high := w.isLt
  have value : signedOf (false,w.toNat) = w.toNat := by
    rw [signedOf, if_neg (by simp)]
    omega
  rw [scanWord word (numeralDigits (.inl rfl) _), value]
  apply congrArg
  apply BitVec.eq_of_toNat_eq
  rw [BitVec.ofInt_natCast, BitVec.toNat_ofNat, Nat.mod_eq_of_lt high]

theorem scanLong (d : BitVec 64) (v : Val) : scanScalar g .int64 none (intText d.toInt) v = .dword d := by
  have low := BitVec.le_toInt d
  have high := @BitVec.toInt_lt 64 d
  obtain ⟨number,reads,value⟩ := numeralInt (i := d.toInt) (.inr rfl) (by omega) (by omega)
  simp only [scanScalar,reads]
  rw [value, BitVec.ofInt_toInt]

theorem scanUnsigned (d : BitVec 64) (v : Val) : scanScalar g .uint64 none (natText d.toNat) v = .dword d := by
  have high := d.isLt
  simp only [scanScalar,numeralDigits (.inr rfl : (10 : Nat) = 0 ∨ 10 = 10)]
  rw [unsignedOf, if_neg (by omega), if_neg (by simp)]
  apply congrArg
  apply BitVec.eq_of_toNat_eq
  rw [BitVec.ofInt_natCast, BitVec.toNat_ofNat, Nat.mod_eq_of_lt high]

theorem Plain.scans (plain : Plain f.funcs v text c) (unconverted : f.inverseConv = none) {cells : List Val} {i : Nat}
    (zero : cells[i]? = some (zeroOf f.funcs)) : scanField g true f text cells i = some (cells.set i c) := by
  obtain ⟨funcs,lenOffset,structId,key,conv⟩ := f
  dsimp only at plain unconverted zero
  subst unconverted
  have stored : ∀ v, store cells i v = some (cells.set i v) := fun v => if_pos (List.getElem?_eq_some_iff.mp zero).1
  unfold scanField
  rw [zero]
  cases plain with
  | int32 w => exact (stored _).trans (by rw [scanInt w (.inl rfl)])
  | uint32 w => exact (stored _).trans (by rw [scanNat w (.inr rfl)])
  | int64 d => exact (stored _).trans (by rw [scanLong d])
  | uint64 d => exact (stored _).trans (by rw [scanUnsigned d])
  | int32Bitfield w => exact (stored _).trans (by rw [scanInt w (.inl rfl)])
  | uint32Bitfield w => exact (stored _).trans (by rw [scanNat w (.inr rfl)])
  | nullString => exact stored _
  | string s => exact (stored _).trans (by rw [bytesOfText, if_pos rfl])

end Lines

structure Row where
  field : Field
  value : Val
  line : Option Text
  cell : Val

inductive Row.Good (r : Row) : Prop where
  | line {key text : Text} (keyed : Keyed r.field key) (plain : Plain r.field.funcs r.value text r.cell) (is : r.line = some (key ++ '=' :: text))
  | silent (unseen : r.field.key = none ∨ hasPrinter r.field.funcs = false) (zero : r.value = zeroOf r.field.funcs)
      (kept : r.cell = r.value) (is : r.line = none)

def scannedKey (g : Generated) (f : Field) : Option Text := if hasScanner g f = true then f.key else none

def Distinct (g : Generated) (fields : List Field) : Prop :=
  fields.Pairwise fun f f' => ∀ key ∈ scannedKey g f, ∀ key' ∈ scannedKey g f', strcaseEq key key' = false

section Table
variable {g : Generated} {rows : List Row}

theorem rowsOf {fields : List Field} {values : List Val} (printable : List.Forall₂ Printable fields values) :
    ∃ rows : List Row, (∀ r ∈ rows, r.Good) ∧ rows.map Row.field = fields ∧ rows.map Row.value = values := by
  induction printable with
  | nil => exact ⟨[],(fun _ member => nomatch member),rfl,rfl⟩
  | @cons f v fields values first _ ih =>
    obtain ⟨rows,good,rfl,rfl⟩ := ih
    obtain ⟨r,goodRow,rfl,rfl⟩ : ∃ r : Row, r.Good ∧ r.field = f ∧ r.value = v := by
      cases first with
      | line keyed plain => exact ⟨⟨f,v,_,_⟩,.line keyed plain rfl,rfl,rfl⟩
      | silent unseen zero => exact ⟨⟨f,v,none,v⟩,.silent unseen zero rfl rfl,rfl,rfl⟩
    exact ⟨r :: rows,List.forall_mem_cons.mpr ⟨goodRow,good⟩,rfl,rfl⟩

theorem Row.Good.equal {r : Row} (good : r.Good) : Equal r.value r.cell := by
  cases good with
  | line _ plain => exact plain.equal
  | silent _ _ kept => rw [kept]; exact .refl _

theorem Row.Good.oneLine {r : Row} (good : r.Good) {line : Text} (is : r.line = some line) : '\n' ∉ line := by
  cases good with
  | line keyed plain there =>
    cases there.symm.trans is
    simp only [List.mem_append,List.mem_cons,not_or]
    exact ⟨keyed.oneLine,by decide,plain.oneLine⟩
  | silent _ _ _ nothing => cases nothing.symm.trans is

theorem rowsPrinted (good : ∀ r ∈ rows, r.Good) (before : List Val) :
    printFields g [] (before ++ rows.map Row.value) (rows.map Row.field) before.length =
      some ((rows.filterMap Row.line).flatMap fun line => line ++ ['\n']) := by
  induction rows generalizing before with
  | nil => rfl
  | cons r rows ih =>
    obtain ⟨first,others⟩ := List.forall_mem_cons.mp good
    have later := ih others (before ++ [r.value])
    rw [List.append_assoc, List.singleton_append, List.length_append, List.length_singleton] at later
    have here : (before ++ r.value :: rows.map Row.value)[before.length]? = some r.value := by simp
    rw [List.map_cons, List.map_cons, printFields, later, here]
    cases first with
    | line keyed plain is =>
      rw [plain.printer, keyed.named, List.filterMap_cons, is]
      simp only [joinedKey,if_pos,if_pos keyed.short,plain.prints,bind,Option.bind,keyLine]
      simp
    | silent unseen zero kept is =>
      rw [List.filterMap_cons, is]
      rcases unseen with unnamed | unprinted
      · rw [unnamed]
        cases hasPrinter r.field.funcs <;> rfl
      · rw [unprinted]
        rfl

def Row.after (done : List Text) (r : Row) : Val :=
  match r.line with
  | some line => if done.contains line = true then r.cell else zeroOf r.field.funcs
  | none => r.cell

theorem afterIn {r : Row} {done : List Text} {line : Text} (is : r.line = some line) (scanned : line ∈ done) : r.after done = r.cell := by
  rw [Row.after, is]
  exact if_pos (List.contains_iff_mem.mpr scanned)

theorem afterOut {r : Row} {done : List Text} {line : Text} (is : r.line = some line) (unscanned : line ∉ done) :
    r.after done = zeroOf r.field.funcs := by
  rw [Row.after, is]
  exact if_neg (mt List.contains_iff_mem.mp unscanned)

theorem afterNone (good : ∀ r ∈ rows, r.Good) : rows.map (Row.after []) = zerosOf (fieldList (rows.map Row.field)) := by
  induction rows with
  | nil => rfl
  | cons r rows ih =>
    obtain ⟨first,others⟩ := List.forall_mem_cons.mp good
    rw [List.map_cons, List.map_cons, fieldList, zerosOf, ih others]
    congr 1
    cases first with
    | line _ _ is => exact afterOut is List.not_mem_nil
    | silent _ zero kept is => rw [Row.after, is, ← zero, ← kept]

theorem afterAll {done : List Text} (all : ∀ line ∈ rows.filterMap Row.line, line ∈ done) : rows.map (Row.after done) = rows.map Row.cell := by
  apply List.map_congr_left
  intro r member
  cases is : r.line with
  | none => rw [Row.after, is]
  | some line => exact afterIn is (all line (List.mem_filterMap.mpr ⟨r,member,is⟩))

theorem keyOfLine {key : Text} (noEquals : '=' ∉ key) (text : Text) :
    (key ++ '=' :: text).takeWhile (· ≠ '=') = key ∧ (key ++ '=' :: text).dropWhile (· ≠ '=') = '=' :: text := by
  have plain : ∀ c ∈ key, decide (c ≠ '=') = true := fun c inside => decide_eq_true fun same => noEquals (same ▸ inside)
  rw [List.takeWhile_append_of_pos plain, List.dropWhile_append_of_pos plain]
  simp

theorem strcaseRefl (key : Text) : strcaseEq key key = true := beq_self_eq_true _

theorem findFieldNext {key : Text} {before after : List Field} {f : Field} (i : Nat)
    (others : ∀ f ∈ before, ∀ own ∈ scannedKey g f, strcaseEq own key = false) (own : f.key = some key) (scans : hasScanner g f = true) :
    findField g key (before ++ f :: after) i = some (i + before.length,f) := by
  induction before generalizing i with
  | nil =>
    rw [List.nil_append, findField, if_pos]
    · rfl
    · rw [own]
      exact ⟨strcaseRefl key,scans⟩
  | cons b before ih =>
    obtain ⟨first,later⟩ := List.forall_mem_cons.mp others
    rw [List.cons_append, findField, if_neg, ih (i + 1) later, List.length_cons]
    · congr 2
      omega
    · rintro ⟨named,scans⟩
      cases is : b.key with
      | none =>
        rw [is] at named
        cases named
      | some own =>
        rw [is] at named
        have differs := first own (by rw [scannedKey, if_pos scans, is]; rfl)
        cases differs.symm.trans named

theorem Row.Good.scannedKey {r : Row} (good : r.Good) {line : Text} (is : r.line = some line) :
    ∃ key text, scannedKey g r.field = some key ∧ '=' ∉ key ∧ line = key ++ '=' :: text := by
  cases good with
  | line keyed plain there =>
    cases there.symm.trans is
    exact ⟨_,_,by rw [KeyValues.scannedKey, if_pos plain.scanner]; exact keyed.named,keyed.noEquals,rfl⟩
  | silent _ _ _ nothing => cases nothing.symm.trans is

theorem linesDiffer {r r' : Row} (good : r.Good) (good' : r'.Good)
    (keys : ∀ key ∈ scannedKey g r.field, ∀ key' ∈ scannedKey g r'.field, strcaseEq key key' = false) {line : Text}
    (is : r.line = some line) : r'.line ≠ some line := by
  intro is'
  obtain ⟨key,text,own,noEquals,rfl⟩ := good.scannedKey (g := g) is
  obtain ⟨key',text',own',noEquals',same⟩ := good'.scannedKey (g := g) is'
  have differs := keys key own key' own'
  have equal : key = key' := by
    have cut := congrArg (List.takeWhile fun c => decide (c ≠ '=')) same
    rwa [(keyOfLine noEquals text).1, (keyOfLine noEquals' text').1] at cut
  rw [equal, strcaseRefl] at differs
  cases differs

theorem assignNext (good : ∀ r ∈ rows, r.Good) (distinct : Distinct g (rows.map Row.field)) {done : List Text} {arg : Text}
    (line : arg ∈ rows.filterMap Row.line) (fresh : arg ∉ done) :
    assign g true (rows.map Row.field) arg (rows.map (Row.after done)) = .ok (rows.map (Row.after (arg :: done))) := by
  obtain ⟨r,member,is⟩ := List.mem_filterMap.mp line
  obtain ⟨before,after,rfl⟩ := List.append_of_mem member
  have goodRow := good r member
  rw [Distinct, List.pairwise_map, List.pairwise_append, List.pairwise_cons] at distinct
  obtain ⟨-,⟨behind,-⟩,ahead⟩ := distinct
  have others : ∀ r' ∈ before ++ after, r'.after (arg :: done) = r'.after done := by
    intro r' member'
    have good' : r'.Good := by
      apply good
      rw [List.mem_append] at member' ⊢
      exact member'.imp_right (List.mem_cons_of_mem r)
    have differs : r'.line ≠ some arg := by
      rcases List.mem_append.mp member' with front | back
      · intro is'
        exact linesDiffer good' goodRow (ahead r' front r List.mem_cons_self) is' is
      · exact linesDiffer goodRow good' (behind r' back) is
    cases is' : r'.line with
    | none => rw [Row.after, Row.after, is']
    | some line' =>
      have other : line' ≠ arg := fun same => differs (is'.trans (congrArg some same))
      by_cases scanned : line' ∈ done
      · rw [afterIn is' scanned, afterIn is' (List.mem_cons_of_mem arg scanned)]
      · rw [afterOut is' scanned, afterOut is' (List.not_mem_cons_of_ne_of_not_mem other scanned)]
  cases goodRow with
  | silent _ _ _ nothing => cases nothing.symm.trans is
  | @line key text keyed plain there =>
    cases there.symm.trans is
    have found : findField g key ((before ++ r :: after).map Row.field) 0 = some (before.length,r.field) := by
      rw [List.map_append, List.map_cons, findFieldNext 0 _ keyed.named plain.scanner, List.length_map, Nat.zero_add]
      intro f member' own scanned
      obtain ⟨r',front,rfl⟩ := List.mem_map.mp member'
      exact ahead r' front r List.mem_cons_self own scanned key (by rw [scannedKey, if_pos plain.scanner]; exact keyed.named)
    have zero : ((before ++ r :: after).map (Row.after done))[before.length]? = some (zeroOf r.field.funcs) := by
      rw [List.map_append, List.map_cons, afterOut is fresh]
      simp
    obtain ⟨name,value⟩ := keyOfLine keyed.noEquals text
    simp only [assign,name,value,found,plain.scans keyed.unconverted zero]
    have now : r.after ((key ++ '=' :: text) :: done) = r.cell := afterIn is List.mem_cons_self
    have front : before.map (Row.after ((key ++ '=' :: text) :: done)) = before.map (Row.after done) :=
      List.map_congr_left fun r' member' => others r' (List.mem_append_left _ member')
    have back : after.map (Row.after ((key ++ '=' :: text) :: done)) = after.map (Row.after done) :=
      List.map_congr_left fun r' member' => others r' (List.mem_append_right _ member')
    rw [List.map_append, List.map_append, List.map_cons, List.map_cons, now, front, back,
      List.set_append_right _ _ (by rw [List.length_map]), List.length_map, Nat.sub_self, List.set_cons_zero]

theorem assignLines (good : ∀ r ∈ rows, r.Good) (distinct : Distinct g (rows.map Row.field)) {memory : Nat → Bool}
    (granted : ∀ n, memory n = true) {args done : List Text} (lines : ∀ arg ∈ args, arg ∈ rows.filterMap Row.line)
    (once : (args ++ done).Nodup) (n : Nat) : ∃ done', (∀ line, line ∈ done' ↔ line ∈ args ∨ line ∈ done) ∧
      assignAll g memory (rows.map Row.field) args n (rows.map (Row.after done)) = .ok (rows.map (Row.after done')) := by
  induction args generalizing done n with
  | nil => exact ⟨done,fun line => by simp,rfl⟩
  | cons arg args ih =>
    obtain ⟨first,others⟩ := List.forall_mem_cons.mp lines
    rw [List.cons_append, List.nodup_cons, List.mem_append, not_or] at once
    obtain ⟨⟨notLater,fresh⟩,rest⟩ := once
    have once' : (args ++ arg :: done).Nodup := by
      rw [List.nodup_middle, List.nodup_cons, List.mem_append, not_or]
      exact ⟨⟨notLater,fresh⟩,rest⟩
    obtain ⟨done',all,is⟩ := ih others once' (n + 1)
    refine ⟨done',fun line => ?_,?_⟩
    · rw [all line, List.mem_cons, List.mem_cons]
      exact or_left_comm.trans (or_assoc.symm)
    · rw [assignAll, granted, assignNext good distinct first fresh]
      exact is

theorem linesOnce (good : ∀ r ∈ rows, r.Good) (distinct : Distinct g (rows.map Row.field)) : (rows.filterMap Row.line).Nodup := by
  rw [Distinct, List.pairwise_map] at distinct
  rw [List.Nodup, List.pairwise_filterMap]
  refine distinct.imp_of_mem ?_
  intro r r' member member' keys line is line' is' same
  subst same
  exact linesDiffer (good r member) (good r' member') keys is is'

theorem rowsAssigned (good : ∀ r ∈ rows, r.Good) (distinct : Distinct g (rows.map Row.field)) {memory : Nat → Bool}
    (granted : ∀ n, memory n = true) {args : List Text} (perm : args.Perm (rows.filterMap Row.line)) :
    assignAll g memory (rows.map Row.field) args 0 (zerosOf (fieldList (rows.map Row.field))) = .ok (rows.map Row.cell) := by
  have once : (args ++ []).Nodup := by
    rw [List.append_nil]
    exact perm.nodup_iff.mpr (linesOnce good distinct)
  obtain ⟨done,all,is⟩ := assignLines good distinct granted (fun arg member => perm.mem_iff.mp member) once 0
  rw [← afterNone good, is, afterAll]
  intro line member
  exact (all line).mpr (.inl (perm.mem_iff.mpr member))

end Table

/- The lines that are printed of a structure, given as parameters in any order, make a structure that is equal
to it: strings at NULL become empty ones. -/
theorem printedAssigned (g : Generated) {fields : List Field} {values : List Val} (printable : List.Forall₂ Printable fields values)
    (distinct : Distinct g fields) {memory : Nat → Bool} (granted : ∀ n, memory n = true) :
    ∃ lines cells, xdrPrintFieldsFunc g [] fields values = some (lines.flatMap fun line => line ++ ['\n']) ∧
      (∀ line ∈ lines, '\n' ∉ line) ∧ List.Forall₂ Equal values cells ∧ ∀ args : List Text, args.Perm lines →
        assignAll g memory fields args 0 (zerosOf (fieldList fields)) = .ok cells := by
  obtain ⟨rows,good,rfl,rfl⟩ := rowsOf printable
  refine ⟨rows.filterMap Row.line,rows.map Row.cell,rowsPrinted good [],?_,?_,?_⟩
  · intro line member
    obtain ⟨r,there,is⟩ := List.mem_filterMap.mp member
    exact (good r there).oneLine is
  · rw [List.forall₂_map_left_iff, List.forall₂_map_right_iff]
    exact List.forall₂_same.mpr fun r member => (good r member).equal
  · exact fun args perm => rowsAssigned good distinct granted perm

def sampleFields : List Field :=
  [⟨.scalar .int32,0,0,some ['d','x'],none⟩,⟨.stringArr,0,0,some ['i','d'],none⟩,⟨.stringArr,0,0,some ['o','p'],none⟩,
    ⟨.scalar .uint64,0,0,none,none⟩]

def sampleValues : List Val := [.word (-3),.chars [97,61],.null,.dword 0]

def sampleGenerated : Generated := ⟨fun _ _ => [],fun _ _ _ v => v,fun _ _ _ _ => some [],fun _ _ => none⟩

example : xdrPrintFieldsFunc sampleGenerated [] sampleFields sampleValues =
    some ['d','x','=','-','3','\n','i','d','=','a','=','\n','o','p','=','\n'] := by decide

theorem samplePrintable : List.Forall₂ Printable sampleFields sampleValues := by
  have keyed : ∀ (funcs : TypeFunctions) (key : Text), key.length < 1024 → '=' ∉ key → '\n' ∉ key →
      Keyed ⟨funcs,0,0,some key,none⟩ key := fun _ _ short noEquals oneLine => ⟨rfl,rfl,short,noEquals,oneLine⟩
  refine .cons ?_ (.cons ?_ (.cons ?_ (.cons ?_ .nil)))
  · exact .line (keyed _ _ (by decide) (by decide) (by decide)) (.int32 _)
  · exact .line (keyed _ _ (by decide) (by decide) (by decide)) (.string _ (by decide) (by decide))
  · exact .line (keyed _ _ (by decide) (by decide) (by decide)) .nullString
  · exact .silent (.inl rfl) rfl

theorem sampleDistinct : Distinct sampleGenerated sampleFields := by
  simp [Distinct,sampleFields,scannedKey,hasScanner,strcaseEq]

theorem sampleAssigned : ∃ lines cells, xdrPrintFieldsFunc sampleGenerated [] sampleFields sampleValues =
      some (lines.flatMap fun line => line ++ ['\n']) ∧
    (∀ line ∈ lines, '\n' ∉ line) ∧ List.Forall₂ Equal sampleValues cells ∧ ∀ args : List Text, args.Perm lines →
      assignAll sampleGenerated (fun _ => true) sampleFields args 0 (zerosOf (fieldList sampleFields)) = .ok cells :=
  printedAssigned sampleGenerated samplePrintable sampleDistinct fun _ => rfl

end LibProc.KeyValues
