import LibProc.Config
import LibProc.XdrOpaque

/-! Opaque data as hexadecimal text: XDR_print_field_byte_array writes two digits a byte and
XDR_scan_byte_array reads them. The number of bytes is an int, found from the length of the
text, which may be any size_t. -/
namespace LibProc.HexText
open Config (Text nul cstr cstrTerminated)
open XdrBytes (Byte)
open Xdr (lengthWord)

def ascii2hex (c : Char) : Nat :=
  (if '0' ≤ c ∧ c ≤ '9' then c.toNat - '0'.toNat
  else if 'A' ≤ c ∧ c ≤ 'F' then c.toNat - 'A'.toNat + 10
  else if 'a' ≤ c ∧ c ≤ 'f' then c.toNat - 'a'.toNat + 10
  else 0) &&& 0xF

def upperDigit (n : Nat) : Char := if n < 10 then Char.ofNat ('0'.toNat + n) else Char.ofNat ('A'.toNat + (n - 10))

def printByte (b : Byte) : Text := [upperDigit (b.toNat / 16),upperDigit (b.toNat % 16)]

def xdrPrintFieldByteArray (data : Option (List Byte)) (len : Option Int) : Text :=
  match len,data with
  | some len,some data => (List.range len.toNat).flatMap fun i => printByte (data.getD i 0)
  | _,_ => []

def scanByte (hi lo : Char) : Byte := BitVec.ofNat 8 (ascii2hex hi <<< 4 ||| ascii2hex lo)

def scannedLen (size : Nat) : Int := (BitVec.ofNat 32 ((size + 1) / 2)).toInt

/- The length and the bytes that are stored in the two places that the caller names. Without
memory the bytes are written through NULL: `none`. -/
def xdrScanByteArray (malloc : Bool) (mem : Text) : Option (Int × List Byte) :=
  let len := scannedLen (cstr mem 0).length
  if 0 < len ∧ malloc = false then none
  else some (len,(List.range len.toNat).map fun i => scanByte (mem.getD (2 * i) nul) (mem.getD (2 * i + 1) nul))

def pairs : Text → List Byte
  | hi :: lo :: rest => scanByte hi lo :: pairs rest
  | _ => []

def hexDigits : List Char := ['0','1','2','3','4','5','6','7','8','9','A','B','C','D','E','F','a','b','c','d','e','f']

theorem digitValue : ∀ n < 16, ascii2hex (upperDigit n) = n := by decide

theorem digitUpper : ∀ c ∈ hexDigits, ascii2hex c < 16 ∧ upperDigit (ascii2hex c) = c.toUpper := by
  have all : hexDigits.all (fun c => ascii2hex c < 16 ∧ upperDigit (ascii2hex c) = c.toUpper) = true := by decide
  intro c inside
  exact of_decide_eq_true (List.all_eq_true.mp all c inside)

theorem digitClean : nul ∉ hexDigits := by decide

theorem nibbles {hi lo : Nat} (high : hi < 16) (low : lo < 16) : (BitVec.ofNat 8 (hi <<< 4 ||| lo)).toNat = 16 * hi + lo := by
  rw [BitVec.toNat_ofNat, ← Nat.shiftLeft_add_eq_or_of_lt (by omega), Nat.shiftLeft_eq]
  omega

theorem upperClean : ∀ n < 16, upperDigit n ≠ nul := by decide

theorem scanPrinted (b : Byte) : scanByte (upperDigit (b.toNat / 16)) (upperDigit (b.toNat % 16)) = b := by
  have high : b.toNat / 16 < 16 := by omega
  have low : b.toNat % 16 < 16 := by omega
  apply BitVec.eq_of_toNat_eq
  rw [scanByte, digitValue _ high, digitValue _ low, nibbles high low]
  omega

theorem printScanned {hi lo : Char} (first : hi ∈ hexDigits) (second : lo ∈ hexDigits) :
    printByte (scanByte hi lo) = [hi.toUpper,lo.toUpper] := by
  obtain ⟨high,upper⟩ := digitUpper hi first
  obtain ⟨low,upper'⟩ := digitUpper lo second
  have value : (scanByte hi lo).toNat = 16 * ascii2hex hi + ascii2hex lo := nibbles high low
  rw [printByte, value, ← upper, ← upper', show (16 * ascii2hex hi + ascii2hex lo) / 16 = ascii2hex hi by omega,
    show (16 * ascii2hex hi + ascii2hex lo) % 16 = ascii2hex lo by omega]

theorem printAll (data : List Byte) : xdrPrintFieldByteArray (some data) (some (data.length : Int)) = data.flatMap printByte := by
  have all : (List.range data.length).map (fun i => data.getD i 0) = data := by
    apply List.ext_getElem
    · rw [List.length_map, List.length_range]
    · intro i _ inside
      rw [List.getElem_map, List.getElem_range, List.getD_eq_getElem?_getD, List.getElem?_eq_getElem inside, Option.getD_some]
  calc (List.range (data.length : Int).toNat).flatMap (fun i => printByte (data.getD i 0))
      = ((List.range data.length).map fun i => data.getD i 0).flatMap printByte := by
        rw [Int.toNat_natCast, List.flatMap_map]
    _ = data.flatMap printByte := by rw [all]

theorem scanPairs (n : Nat) (text after : Text) (size : text.length = 2 * n) :
    ((List.range n).map fun i => scanByte ((text ++ after).getD (2 * i) nul) ((text ++ after).getD (2 * i + 1) nul)) =
      pairs text := by
  induction n generalizing text with
  | zero =>
    rw [List.length_eq_zero_iff.mp size]
    rfl
  | succ n ih =>
    obtain - | ⟨hi,- | ⟨lo,rest⟩⟩ := text
    · simp at size
    · simp only [List.length_cons,List.length_nil] at size
      omega
    · have shorter : rest.length = 2 * n := by
        simp only [List.length_cons] at size
        omega
      rw [List.range_succ_eq_map, List.map_cons, List.map_map, pairs, ← ih rest shorter]
      rfl

theorem pairsPrinted (data : List Byte) : pairs (data.flatMap printByte) = data := by
  induction data with
  | nil => rfl
  | cons b data ih =>
    rw [List.flatMap_cons, printByte, List.cons_append, List.cons_append, List.nil_append, pairs, scanPrinted, ih]

theorem printedSize (data : List Byte) : (data.flatMap printByte).length = 2 * data.length := by
  induction data with
  | nil => rfl
  | cons b data ih =>
    rw [List.flatMap_cons, List.length_append, ih, List.length_cons, printByte, List.length_cons, List.length_singleton]
    omega

theorem printedClean (data : List Byte) : nul ∉ data.flatMap printByte := by
  intro inside
  obtain ⟨b,-,digit⟩ := List.mem_flatMap.mp inside
  rcases List.mem_cons.mp digit with high | low
  · exact upperClean _ (by omega) high.symm
  · exact upperClean _ (by omega) (List.mem_singleton.mp low).symm

theorem scanEven {text : Text} (clean : nul ∉ text) {n : Nat} (size : text.length = 2 * n) (small : n < 2 ^ 31) (after : Text) :
    xdrScanByteArray true (text ++ nul :: after) = some ((n : Int),pairs text) := by
  have len : scannedLen text.length = n := by
    rw [size, scannedLen, show (2 * n + 1) / 2 = n by omega, lengthWord small]
  simp only [xdrScanByteArray,cstrTerminated text after clean,len,Int.toNat_natCast,scanPairs n text _ size]
  rw [if_neg (by simp)]

theorem printPairs {text : Text} (n : Nat) (size : text.length = 2 * n) (digits : ∀ c ∈ text, c ∈ hexDigits) :
    (pairs text).length = n ∧ (pairs text).flatMap printByte = text.map Char.toUpper := by
  induction n generalizing text with
  | zero =>
    rw [List.length_eq_zero_iff.mp size]
    exact ⟨rfl,rfl⟩
  | succ n ih =>
    obtain - | ⟨hi,- | ⟨lo,rest⟩⟩ := text
    · simp at size
    · simp only [List.length_cons,List.length_nil] at size
      omega
    · simp only [List.length_cons] at size
      simp only [List.forall_mem_cons] at digits
      obtain ⟨count,same⟩ := ih (by omega) digits.2.2
      refine ⟨by rw [pairs, List.length_cons, count],?_⟩
      rw [pairs, List.flatMap_cons, printScanned digits.1 digits.2.1, same]
      rfl

/- Both ways: bytes come back from the text they are printed as, and the digits of a text
whose number of bytes is an int come back in upper case. -/
theorem hexRoundTrips :
    (∀ (data : List Byte) (after : Text), data.length < 2 ^ 31 →
      xdrScanByteArray true (xdrPrintFieldByteArray (some data) (some (data.length : Int)) ++ nul :: after) =
        some ((data.length : Int),data)) ∧
    ∀ (text after : Text), (∀ c ∈ text, c ∈ hexDigits) → text.length % 2 = 0 → text.length < 2 ^ 32 →
      ∃ len data, xdrScanByteArray true (text ++ nul :: after) = some (len,data) ∧
        xdrPrintFieldByteArray (some data) (some len) = text.map Char.toUpper := by
  constructor
  · intro data after small
    rw [printAll, scanEven (printedClean data) (printedSize data) small after, pairsPrinted]
  · intro text after digits even small
    have size : text.length = 2 * (text.length / 2) := by omega
    obtain ⟨count,same⟩ := printPairs (text.length / 2) size digits
    refine ⟨_,_,scanEven (fun inside => digitClean (digits nul inside)) size (by omega) after,?_⟩
    rw [← count, printAll, same]

theorem sampleHexRoundTrips : ∃ len data, xdrScanByteArray true (['a','F','0','9'] ++ nul :: []) = some (len,data) ∧
    xdrPrintFieldByteArray (some data) (some len) = ['a','F','0','9'].map Char.toUpper :=
  hexRoundTrips.2 _ _ (by simp [hexDigits]) (by decide) (by decide)

theorem hugeScanned {text : Text} (clean : nul ∉ text) (size : text.length = 2 ^ 32) (after : Text) :
    xdrScanByteArray true (text ++ nul :: after) = some (-2 ^ 31,[]) := by
  have len : scannedLen text.length = -2 ^ 31 := by
    rw [size]
    decide
  simp only [xdrScanByteArray,cstrTerminated text after clean,len]
  rfl

theorem hugeTextIsLost : ¬∃ len data,
    xdrScanByteArray true (List.replicate (2 ^ 32) 'a' ++ nul :: []) = some (len,data) ∧
      xdrPrintFieldByteArray (some data) (some len) = (List.replicate (2 ^ 32) 'a').map Char.toUpper := by
  rintro ⟨len,data,scanned,same⟩
  have clean : nul ∉ List.replicate (2 ^ 32) 'a' := fun inside => absurd (List.eq_of_mem_replicate inside) (by decide)
  rw [hugeScanned clean List.length_replicate []] at scanned
  cases scanned
  have lengths := congrArg List.length same
  rw [List.length_map, List.length_replicate] at lengths
  exact absurd lengths (by decide)

end LibProc.HexText
