import LibProc.XdrRoundTrip

/-! Bitfield structs: XDR_bitfield_struct_encoder packs its fields into one word, and
XDR_bitfield_struct_decoder takes them out of it. A field's bits are a window of the word;
fields that do not overlap do not see each other. -/
namespace LibProc.Xdr
open XdrBytes

section Windows
variable {v w : BitVec 32} {n offset : Nat}

def maskOf (n : Nat) : BitVec 32 := BitVec.ofNat 32 (2 ^ n - 1)

theorem maskBit (n i : Nat) : (maskOf n).getLsbD i = (decide (i < 32) && decide (i < n)) := by
  rw [maskOf, BitVec.getLsbD_ofNat, Nat.testBit_two_pow_sub_one]

def place (w : BitVec 32) (n offset : Nat) : BitVec 32 := (w &&& maskOf n) <<< offset

def window (v : BitVec 32) (n offset : Nat) : BitVec 32 := (v >>> offset) &&& maskOf n

theorem placeBit (i : Nat) (small : i < 32) :
    (place w n offset).getLsbD i = (decide (offset ≤ i ∧ i < offset + n) && w.getLsbD (i - offset)) := by
  simp only [place,BitVec.getLsbD_shiftLeft,BitVec.getLsbD_and,maskBit]
  by_cases below : i < offset
  · simp [below,show ¬offset ≤ i by omega]
  · by_cases within : i < offset + n
    · simp [below,within,small,show offset ≤ i by omega,show i - offset < n by omega,show i - offset < 32 by omega]
    · simp [within,show ¬i - offset < n by omega]

theorem windowBit (i : Nat) : (window v n offset).getLsbD i = (v.getLsbD (offset + i) && (decide (i < 32) && decide (i < n))) := by
  simp only [window,BitVec.getLsbD_and,BitVec.getLsbD_ushiftRight,maskBit]

theorem maskSmall (small : w.toNat < 2 ^ n) : w &&& maskOf n = w := by
  apply BitVec.eq_of_getLsbD_eq
  intro i inside
  rw [BitVec.getLsbD_and, maskBit]
  by_cases low : i < n
  · simp [low,inside]
  · have zero : w.getLsbD i = false :=
      Nat.testBit_lt_two_pow (lt_of_lt_of_le small (Nat.pow_le_pow_right (by decide) (not_lt.mp low)))
    simp [low,zero]

theorem signRepeats (least : -2 ^ n ≤ w.toInt) (most : w.toInt < 2 ^ n) {i : Nat} (above : n ≤ i) (inside : i < 32) :
    w.getLsbD i = decide (w.toInt < 0) := by
  have power : 2 ^ n ≤ 2 ^ i := Nat.pow_le_pow_right (by decide) above
  have cast : ((2 ^ n : Nat) : Int) = 2 ^ n := by norm_num
  have range := w.isLt
  by_cases negative : w.toInt < 0
  · have value : w.toInt = w.toNat - 2 ^ 32 := by
      rw [BitVec.toInt_eq_toNat_cond] at negative ⊢
      split
      · rename_i small
        rw [if_pos small] at negative
        omega
      · rfl
    have complement : (~~~w).toNat < 2 ^ n := by
      rw [BitVec.toNat_not]
      omega
    have zero : (~~~w).getLsbD i = false := Nat.testBit_lt_two_pow (lt_of_lt_of_le complement power)
    rw [BitVec.getLsbD_not] at zero
    simpa [inside,negative] using zero
  · have value : w.toInt = w.toNat := by
      rw [BitVec.toInt_eq_toNat_cond] at negative ⊢
      split
      · rfl
      · rename_i large
        rw [if_neg large] at negative
        omega
    have small : w.toNat < 2 ^ n := by omega
    rw [decide_eq_false negative]
    exact Nat.testBit_lt_two_pow (lt_of_lt_of_le small power)

end Windows

/- An entry of a field list of XDR_bitfield_struct_encoder: `len_offset` is the width, `struct_id` the
place in the word. -/
structure BitField where
  signed : Bool
  width : Nat
  offset : Nat
  positive : 0 < width
  narrow : width ≤ 31
  inside : offset + width ≤ 32

def BitField.functions (f : BitField) : TypeFunctions := if f.signed then .int32Bitfield else .uint32Bitfield

def layout : List BitField → FieldList
  | [] => .nil
  | f :: rest => .cons f.functions f.width f.offset (layout rest)

def BitField.Apart (f g : BitField) : Prop := f.offset + f.width ≤ g.offset ∨ g.offset + g.width ≤ f.offset

def BitField.Holds (f : BitField) (w : BitVec 32) : Prop :=
  if f.signed then -2 ^ (f.width - 1) ≤ w.toInt ∧ w.toInt < 2 ^ (f.width - 1) else w.toNat < 2 ^ f.width

def packed : List (BitField × BitVec 32) → BitVec 32
  | [] => 0
  | (f,w) :: rest => place w f.width f.offset ||| packed rest

def BitField.read (f : BitField) (val : BitVec 32) : BitVec 32 := decodebf f.signed (window val f.width f.offset) f.width

section
variable {f : BitField} {w : BitVec 32} {pairs : List (BitField × BitVec 32)}

theorem packedElsewhere (others : ∀ p ∈ pairs, f.Apart p.1) {i : Nat} (small : i < f.width) :
    (packed pairs).getLsbD (f.offset + i) = false := by
  have inside := f.inside
  induction pairs with
  | nil => exact BitVec.getLsbD_zero
  | cons p rest ih =>
    obtain ⟨g,u⟩ := p
    obtain ⟨apart,away⟩ := List.forall_mem_cons.mp others
    simp only [BitField.Apart] at apart
    rw [packed, BitVec.getLsbD_or, ih away, placeBit _ (by omega), decide_eq_false (by omega)]
    rfl

theorem packedHere (apart : pairs.Pairwise fun p q => p.1.Apart q.1) (member : (f,w) ∈ pairs) {i : Nat} (small : i < f.width) :
    (packed pairs).getLsbD (f.offset + i) = w.getLsbD i := by
  have inside := f.inside
  induction pairs with
  | nil => cases member
  | cons p rest ih =>
    obtain ⟨g,u⟩ := p
    obtain ⟨away,among⟩ := List.pairwise_cons.mp apart
    rw [packed, BitVec.getLsbD_or, placeBit _ (by omega)]
    rcases List.mem_cons.mp member with same | later
    · cases same
      rw [packedElsewhere away small, decide_eq_true (by omega), Nat.add_sub_cancel_left]
      simp
    · have distinct := away (f,w) later
      simp only [BitField.Apart] at distinct
      rw [ih among later, decide_eq_false (by omega), Bool.false_and, Bool.false_or]

theorem packedWindow (apart : pairs.Pairwise fun p q => p.1.Apart q.1) (member : (f,w) ∈ pairs) :
    window (packed pairs) f.width f.offset = w &&& maskOf f.width := by
  apply BitVec.eq_of_getLsbD_eq
  intro i inside
  rw [windowBit, BitVec.getLsbD_and, maskBit]
  by_cases small : i < f.width
  · rw [packedHere apart member small]
  · simp [small]

theorem maskAgain (w : BitVec 32) (n : Nat) : w &&& maskOf n &&& maskOf n = w &&& maskOf n := by
  rw [BitVec.and_assoc, BitVec.and_self]

theorem signTest {n : Nat} (positive : 0 < n) (narrow : n < 32) :
    w &&& maskOf n &&& BitVec.ofNat 32 (2 ^ (n - 1)) ≠ 0 ↔ w.getLsbD (n - 1) = true := by
  have power : BitVec.ofNat 32 (2 ^ (n - 1)) = BitVec.twoPow 32 (n - 1) := by
    apply BitVec.eq_of_toNat_eq
    rw [BitVec.toNat_ofNat, BitVec.toNat_twoPow]
  have top : (w &&& maskOf n).getLsbD (n - 1) = w.getLsbD (n - 1) := by
    rw [BitVec.getLsbD_and, maskBit]
    simp [show n - 1 < 32 by omega,show n - 1 < n by omega]
  have single : BitVec.twoPow 32 (n - 1) ≠ 0 := by
    intro zero
    have bit := BitVec.getLsbD_twoPow (w := 32) (n - 1) (n - 1)
    rw [zero] at bit
    simp [show n - 1 < 32 by omega] at bit
  rw [power, BitVec.and_twoPow, top]
  split
  · rename_i set
    exact iff_of_true single set
  · rename_i clear
    exact iff_of_false (fun apart => apart rfl) clear

theorem unsignedDecode (x : BitVec 32) (n : Nat) : decodebf false x n = x &&& maskOf n := by
  simp only [decodebf,maskOf,Bool.false_eq_true,false_and,if_false]

theorem signedDecode (x : BitVec 32) (n : Nat) : decodebf true x n =
    if x &&& BitVec.ofNat 32 (2 ^ (n - 1)) ≠ 0 then ~~~maskOf n ||| (x &&& maskOf n) else x &&& maskOf n := by
  simp only [decodebf,maskOf,true_and]

theorem signedRead {n : Nat} (positive : 0 < n) (narrow : n < 32) (least : -2 ^ (n - 1) ≤ w.toInt)
    (most : w.toInt < 2 ^ (n - 1)) : decodebf true (w &&& maskOf n) n = w := by
  have above : ∀ i, n - 1 ≤ i → i < 32 → w.getLsbD i = decide (w.toInt < 0) := fun i => signRepeats least most
  have body : decodebf true (w &&& maskOf n) n =
      if w.getLsbD (n - 1) = true then ~~~maskOf n ||| (w &&& maskOf n) else w &&& maskOf n := by
    rw [signedDecode, maskAgain]
    exact if_congr (signTest positive narrow) rfl rfl
  rw [body, above (n - 1) le_rfl (by omega)]
  apply BitVec.eq_of_getLsbD_eq
  intro i inside
  have high : ¬i < n → w.getLsbD i = decide (w.toInt < 0) := fun low => above i (by omega) inside
  split
  · rename_i negative
    rw [BitVec.getLsbD_or, BitVec.getLsbD_not, BitVec.getLsbD_and, maskBit]
    by_cases low : i < n
    · simp only [inside,low,decide_true,Bool.and_true,Bool.and_self,Bool.not_true,Bool.and_false,Bool.false_or]
    · rw [high low, negative]
      simp only [inside,low,decide_true,decide_false,Bool.and_false,Bool.not_false,Bool.and_true,Bool.or_false]
  · rename_i positive
    rw [BitVec.getLsbD_and, maskBit]
    by_cases low : i < n
    · simp only [inside,low,decide_true,Bool.and_true]
    · rw [high low, eq_false_of_ne_true positive, Bool.false_and]

theorem holdsRead (holds : f.Holds w) : decodebf f.signed (w &&& maskOf f.width) f.width = w := by
  have positive := f.positive
  have narrow := f.narrow
  unfold BitField.Holds at holds
  cases sign : f.signed with
  | false =>
    rw [sign, if_neg Bool.false_ne_true] at holds
    rw [unsignedDecode, maskAgain, maskSmall holds]
  | true =>
    rw [sign, if_pos rfl] at holds
    exact signedRead positive (by omega) holds.1 holds.2

theorem fieldReads (apart : pairs.Pairwise fun p q => p.1.Apart q.1) (member : (f,w) ∈ pairs) (holds : f.Holds w) :
    f.read (packed pairs) = w := by
  rw [BitField.read, packedWindow apart member, holdsRead holds]

def cellsOf (pairs : List (BitField × BitVec 32)) : List Val := pairs.map fun p => .word p.2

theorem bitfieldWordPacks (pairs : List (BitField × BitVec 32)) (val : BitVec 32) :
    bitfieldWord (layout (pairs.map Prod.fst)) (cellsOf pairs) val = .ok (val ||| packed pairs) := by
  induction pairs generalizing val with
  | nil =>
    rw [packed]
    exact congrArg Except.ok (BitVec.or_zero).symm
  | cons p rest ih =>
    obtain ⟨f,w⟩ := p
    have inside := f.inside
    have positive := f.positive
    have narrow := f.narrow
    have one : bitfieldWord (layout (((f,w) :: rest).map Prod.fst)) (cellsOf ((f,w) :: rest)) val =
        bitfieldWord (layout (rest.map Prod.fst)) (cellsOf rest) (val ||| place w f.width f.offset) := by
      simp only [List.map_cons,layout,cellsOf,bitfieldWord,BitField.functions]
      rw [if_neg (by omega)]
      cases f.signed <;> rfl
    rw [one, ih, packed, BitVec.or_assoc]

theorem bitfieldCellsRead (fields : List BitField) (cells : List Val) (there : cells.length = fields.length)
    (val : BitVec 32) : bitfieldCells (layout fields) cells val = .ok (fields.map fun f => .word (f.read val)) := by
  induction fields generalizing cells with
  | nil =>
    rw [List.length_eq_zero_iff.mp there]
    rfl
  | cons f rest ih =>
    cases cells with
    | nil => cases there
    | cons v vs =>
      have inside := f.inside
      have positive := f.positive
      have narrow := f.narrow
      have more := ih vs (Nat.succ.inj there)
      simp only [layout,bitfieldCells,BitField.functions]
      rw [if_neg (by omega), List.map_cons, BitField.read]
      cases f.signed with
      | false =>
        simp only [Bool.false_eq_true,if_false]
        rw [more]
        rfl
      | true =>
        simp only [if_true]
        rw [if_neg (by omega), more]
        rfl

end

/- Any fields that do not overlap, signed or not, with values of their widths. -/
theorem bitfieldsRoundTrip (pairs : List (BitField × BitVec 32)) (apart : pairs.Pairwise fun p q => p.1.Apart q.1)
    (holds : ∀ p ∈ pairs, p.1.Holds p.2) (there : List Val) (size : there.length = pairs.length) {pos max : Nat}
    {buf : List Byte} (wide : 4 ≤ max) (bounds : pos + max ≤ buf.length) (used inc : Nat) (len len' : Option (BitVec 32))
    (path : List Nat) :
    ∃ r, bitfieldStructEncoder (layout (pairs.map Prod.fst)) (.struct (cellsOf pairs)) (.at pos) used max len buf = .ok r ∧
      r.res = 0 ∧ r.used = 4 ∧
      bitfieldStructDecoder (layout (pairs.map Prod.fst)) (r.buf.drop pos) (.struct there) inc max len' path =
        .ok ⟨0,4,.struct (cellsOf pairs)⟩ := by
  have word : bitfieldWord (layout (pairs.map Prod.fst)) (cellsOf pairs) 0 = .ok (packed pairs) :=
    (bitfieldWordPacks pairs 0).trans (congrArg _ BitVec.zero_or)
  have same : (pairs.map Prod.fst).map (fun f => Val.word (f.read (packed pairs))) = cellsOf pairs := by
    rw [List.map_map, cellsOf]
    exact List.map_congr_left fun p member => congrArg Val.word (fieldReads apart member (holds p member))
  refine ⟨⟨0,4,splice buf pos (beBytes (packed pairs))⟩,?_,rfl,rfl,?_⟩
  · simp only [bitfieldStructEncoder,word,Except.bind,bind]
    exact encodeWordAt wide (by omega)
  · simp only [bitfieldStructDecoder]
    rw [spliceDrop (by omega), decodeWordReads wide]
    simp only [Except.bind,bind]
    rw [bitfieldCellsRead _ _ (by rw [size, List.length_map]), same]

theorem negativeRoundTrips :
    ∃ r, bitfieldStructEncoder (.cons .int32Bitfield 31 0 (.cons .uint32Bitfield 1 31 .nil))
        (.struct [.word 0xfffffffb,.word 1]) (.at 0) 0 4 none [0,0,0,0] = .ok r ∧ r.res = 0 ∧ r.used = 4 ∧
      bitfieldStructDecoder (.cons .int32Bitfield 31 0 (.cons .uint32Bitfield 1 31 .nil)) (r.buf.drop 0)
        (.struct [.word 0,.word 0]) 0 4 none [] = .ok ⟨0,4,.struct [.word 0xfffffffb,.word 1]⟩ :=
  bitfieldsRoundTrip
    [(⟨true,31,0,by decide,by decide,by decide⟩,0xfffffffb),(⟨false,1,31,by decide,by decide,by decide⟩,1)]
    (by simp [BitField.Apart]) (by simp [BitField.Holds]) [.word 0,.word 0] rfl le_rfl le_rfl 0 0 none none []

end LibProc.Xdr
