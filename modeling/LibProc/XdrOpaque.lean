import LibProc.XdrRoundTrip

/-! Opaque data. Both byte array functions refuse a buffer that ends with the array: they
compare the padded length with `max` by `>=`. So the bytes of a struct whose last
field is opaque are never read back when nothing follows them. -/
namespace LibProc.Xdr
open XdrBytes XdrDict

def paddedSize (n : Nat) : Nat := n + pad n

theorem bytePaddingNat (n : Nat) : bytePadding n = pad n := by
  have inner : Int.tmod (n : Int) 4 = ((n % 4 : Nat) : Int) := by
    rw [Int.tmod_eq_emod_of_nonneg (by omega)]
    omega
  have outer : (4 - ((n % 4 : Nat) : Int)) = ((4 - n % 4 : Nat) : Int) := by omega
  unfold bytePadding pad
  rw [inner, outer, Int.tmod_eq_emod_of_nonneg (by omega)]
  omega

theorem toSizeNat {n : Nat} (small : n < 2 ^ 64) : toSize n = n := by
  unfold toSize
  omega

theorem lengthWord {n : Nat} (small : n < 2 ^ 31) : (BitVec.ofNat 32 n).toInt = n := by
  have whole : (BitVec.ofNat 32 n).toNat = n := by
    rw [BitVec.toNat_ofNat, Nat.mod_eq_of_lt (by omega)]
  rw [BitVec.toInt_eq_toNat_of_lt (by omega), whole]

theorem byteLengths {n : Nat} (small : paddedSize n < 2 ^ 31) :
    (n : Int) + bytePadding n = (paddedSize n : Nat) ∧ toSize ((n : Int) + bytePadding n) = paddedSize n ∧
      toSize n = n ∧ ¬ (2 ^ 31 : Int) ≤ n + bytePadding n := by
  have sum : (n : Int) + bytePadding n = (paddedSize n : Nat) := by
    rw [bytePaddingNat, paddedSize]
    omega
  refine ⟨sum,?_,toSizeNat ?_,?_⟩
  · rw [sum, toSizeNat (by omega)]
  · unfold paddedSize at small
    omega
  · rw [sum]
    omega

theorem encodeByteArrayTight {b buf : List Byte} {len : BitVec 32} {dst : Dst} {used max : Nat}
    (counted : len.toInt = b.length) (small : paddedSize b.length < 2 ^ 31) (tight : max ≤ paddedSize b.length) :
    encodeByteArray (.chars b) dst used max (some len) buf = .ok ⟨-1,paddedSize b.length,buf⟩ := by
  obtain ⟨_,total,_,defined⟩ := byteLengths small
  simp only [encodeByteArray,counted]
  rw [if_neg defined, total, if_pos (.inr tight)]

theorem decodeByteArrayTight {env : Env} {n : Nat} {src : List Byte} {len : BitVec 32} {dst : Val} {inc max : Nat}
    {path : List Nat} (counted : len.toInt = n) (small : paddedSize n < 2 ^ 31) (tight : max ≤ paddedSize n) :
    decodeByteArray env src dst inc max (some len) path = .ok ⟨-1,0,dst⟩ := by
  obtain ⟨_,total,_,defined⟩ := byteLengths small
  simp only [decodeByteArray,counted]
  rw [if_neg defined, total, if_pos tight]

def FieldList.append : FieldList → FieldList → FieldList
  | .nil,last => last
  | .cons funcs lenOffset structId rest,last => .cons funcs lenOffset structId (rest.append last)

theorem decodersAppend (env : Env) (from_ : StructDefinition → Decoder) : ∀ (fields last : FieldList),
    decodersOf env from_ (fields.append last) = decodersOf env from_ fields ++ decodersOf env from_ last
  | .nil,last => by simp only [FieldList.append,decodersOf,List.nil_append]
  | .cons funcs lenOffset structId rest,last => by
    simp only [FieldList.append,decodersOf,List.cons_append]
    rw [decodersAppend env from_ rest last]

structure EndsOpaque (env : Env) (depth : Nat) (fields : FieldList) (lenOffset : Nat) (cells : List Val)
    (b e : List Byte) : Prop where
  value : Value env plainRules depth fields cells e
  counter : ∃ w, cells[lenOffset]? = some (.word w) ∧ w.toInt = b.length
  small : paddedSize b.length < 2 ^ 31

def endingOpaque (fields : FieldList) (lenOffset : Nat) : FieldList :=
  fields.append (.cons .byteArr lenOffset 0 .nil)

theorem opaqueTailRefused {env : Env} (allocates : ∀ p, env.alloc p = true) {depth fuel : Nat} (deep : depth ≤ fuel)
    {fields : FieldList} {lenOffset : Nat} {cells : List Val} {b e : List Byte}
    (ends : EndsOpaque env depth fields lenOffset cells b e) {there : List Val} {last : Val} (fits : FitsAll fields there) :
    ∃ left, xdrStructDecoder env fuel (endingOpaque fields lenOffset) (e ++ (b ++ zeros (pad b.length)))
      (.struct (there ++ [last])) (e ++ (b ++ zeros (pad b.length))).length = .ok ⟨-1,0,left⟩ := by
  have all := fieldsDecode allocates (fun d v e ok inner => objectDecodes allocates deep ok inner)
    fields cells [] cells e rfl ends.value
  obtain ⟨cells',equal,loop⟩ := all [] there [last] .nil fits
  obtain ⟨w,word,counted⟩ := ends.counter
  have known := wordDecoded equal word
  obtain ⟨inside,_⟩ := List.getElem?_eq_some_iff.mp known
  have tail : (b ++ zeros (pad b.length)).length = paddedSize b.length := by
    simp [zeros,paddedSize]
  have size : (e ++ (b ++ zeros (pad b.length))).length = e.length + paddedSize b.length := by
    rw [List.length_append, tail]
  have reach := loop [(decodeByteArray env,lenOffset)] (e ++ (b ++ zeros (pad b.length))) (b ++ zeros (pad b.length))
    (e.length + paddedSize b.length) [] 0 rfl (by omega)
  have left : sizeSub (e.length + paddedSize b.length) e.length = paddedSize b.length := by
    unfold sizeSub
    rw [if_pos (by omega)]
    omega
  rw [size, xdrStructDecoder, endingOpaque, decodersAppend]
  simp only [decodersOf,decoderOf,structDecoder]
  rw [reach]
  simp only [structDecodeLoop,List.nil_append,Nat.zero_add]
  rw [List.getElem?_append_left inside, known, wordAt, left, decodeByteArrayTight counted ends.small le_rfl]
  exact ⟨_,rfl⟩

/- Whatever the array, its own encoding is refused by the encoder, by the decoder, and by
the decoder of every struct it ends. -/
theorem ownEncodingRefused {b : List Byte} (small : b.length < 2 ^ 31 - 4) :
    (∀ buf used, buf.length = paddedSize b.length →
      encodeByteArray (.chars b) (.at 0) used (paddedSize b.length) (some (BitVec.ofNat 32 b.length)) buf =
        .ok ⟨-1,paddedSize b.length,buf⟩) ∧
    (∀ env dst inc path,
      decodeByteArray env (b ++ zeros (pad b.length)) dst inc (paddedSize b.length) (some (BitVec.ofNat 32 b.length)) path =
        .ok ⟨-1,0,dst⟩) ∧
    ∀ env depth fuel fields lenOffset cells e there last, (∀ p, env.alloc p = true) → depth ≤ fuel →
      EndsOpaque env depth fields lenOffset cells b e → FitsAll fields there →
      ∃ left, xdrStructDecoder env fuel (endingOpaque fields lenOffset) (e ++ (b ++ zeros (pad b.length)))
        (.struct (there ++ [last])) (e ++ (b ++ zeros (pad b.length))).length = .ok ⟨-1,0,left⟩ := by
  have width : paddedSize b.length < 2 ^ 31 := by
    have := padSmall b.length
    unfold paddedSize
    omega
  have counted : (BitVec.ofNat 32 b.length).toInt = b.length := lengthWord (by omega)
  refine ⟨?_,?_,?_⟩
  · intro buf used size
    exact encodeByteArrayTight counted width le_rfl
  · intro env dst inc path
    exact decodeByteArrayTight counted width le_rfl
  · intro env depth fuel fields lenOffset cells e there last allocates deep ends fits
    exact opaqueTailRefused allocates deep ends fits

def opaqueStructLength : FieldList := .cons (.scalar .int32) 0 0 .nil
def ipcOpaqueStructFields : FieldList := endingOpaque opaqueStructLength 0

theorem threeBytesEndOpaque : EndsOpaque sampleEnv 0 opaqueStructLength 0 [.word 3] [1,2,3] (beBytes 3 ++ []) where
  value := ⟨_,_,_,_,rfl,rfl,⟨rfl,by simp [hasLength]⟩,.int32 3,rfl,rfl⟩
  counter := ⟨3,rfl,rfl⟩
  small := by decide

theorem threeBytesRefused :
    encodeByteArray (.chars [1,2,3]) (.at 0) 0 4 (some 3) [9,9,9,9] = .ok ⟨-1,4,[9,9,9,9]⟩ ∧
    ∃ left, xdrStructDecoder sampleEnv 0 ipcOpaqueStructFields [0,0,0,3,1,2,3,0] (.struct [.word 0,.null]) 8 =
      .ok ⟨-1,0,left⟩ := by
  obtain ⟨encoder,_,structs⟩ := ownEncodingRefused (show [(1 : Byte),2,3].length < 2 ^ 31 - 4 by decide)
  exact ⟨encoder [9,9,9,9] 0 rfl,
    structs sampleEnv 0 0 opaqueStructLength 0 [.word 3] (beBytes 3 ++ []) [.word 0] .null (fun _ => rfl) le_rfl
      threeBytesEndOpaque ⟨_,_,rfl,trivial,rfl⟩⟩

/- With room to spare the encoder writes eight bytes; from these eight the struct is not
read back, and into eight it is not written. -/
theorem opaqueStructIsLost :
    xdrStructEncoder sampleEnv 0 ipcOpaqueStructFields (.struct [.word 3,.chars [1,2,3]]) (.at 0) 9 (zeros 9) =
      .ok ⟨0,8,[0,0,0,3,1,2,3,0,0]⟩ ∧
    (∃ buf, xdrStructEncoder sampleEnv 0 ipcOpaqueStructFields (.struct [.word 3,.chars [1,2,3]]) (.at 0) 8 (zeros 8) =
      .ok ⟨-1,8,buf⟩) ∧
    ∃ left, xdrStructDecoder sampleEnv 0 ipcOpaqueStructFields [0,0,0,3,1,2,3,0] (.struct [.word 0,.null]) 8 =
      .ok ⟨-1,0,left⟩ :=
  ⟨rfl,⟨_,rfl⟩,⟨_,rfl⟩⟩

/- What the decoder owes its caller for a length: it succeeds only with one that is not negative
and has room for its padding, of which it takes exactly that much, and it returns an error for a
negative one. -/
def LengthValidated (env : Env) (src : List Byte) (dst : Val) (inc max : Nat) (len : BitVec 32) (path : List Nat) : Prop :=
  (∀ r, decodeByteArray env src dst inc max (some len) path = .ok r → r.res = 0 →
    0 ≤ len.toInt ∧ paddedSize len.toInt.toNat ≤ max ∧ r.inc = paddedSize len.toInt.toNat ∧
      len.toInt.toNat ≤ src.length ∧ ∀ bs, r.dst = .chars bs → bs = src.take len.toInt.toNat) ∧
  (len.toInt < 0 → ∃ r, decodeByteArray env src dst inc max (some len) path = .ok r ∧ r.res < 0)

theorem bytePaddingNegative {n : Int} (negative : n < 0) : n + bytePadding n = 4 * Int.tdiv n 4 := by
  obtain ⟨m,rfl⟩ : ∃ m : Nat, n = -m := ⟨n.natAbs,by omega⟩
  have inner : Int.tmod (m : Int) 4 = (m : Int) % 4 := Int.tmod_eq_emod_of_nonneg (by omega)
  have quotient : Int.tdiv (m : Int) 4 = (m : Int) / 4 := Int.tdiv_eq_ediv_of_nonneg (by omega)
  rw [bytePadding, Int.neg_tmod, Int.neg_tdiv, inner, quotient, Int.tmod_eq_emod_of_nonneg (by omega)]
  omega

theorem byteLengthBound (len : BitVec 32) (negative : len.toInt < 0) : ¬ (2 ^ 31 : Int) ≤ len.toInt + bytePadding len.toInt := by
  obtain ⟨m,same⟩ : ∃ m : Nat, len.toInt = -m := ⟨len.toInt.natAbs,by omega⟩
  have quotient : Int.tdiv (m : Int) 4 = (m : Int) / 4 := Int.tdiv_eq_ediv_of_nonneg (by omega)
  rw [bytePaddingNegative negative, same, Int.neg_tdiv, quotient]
  omega

theorem decodeByteArrayPast {env : Env} {src : List Byte} {dst : Val} {inc max : Nat} {len : BitVec 32} {path : List Nat}
    (defined : ¬ (2 ^ 31 : Int) ≤ len.toInt + bytePadding len.toInt)
    (past : ¬ max ≤ toSize (len.toInt + bytePadding len.toInt)) {r : Decoded}
    (done : decodeByteArray env src dst inc max (some len) path = .ok r) :
    r.res = 0 ∧ r.inc = toSize (len.toInt + bytePadding len.toInt) ∧ toSize len.toInt ≤ src.length ∧
      r.dst = if env.alloc path then .chars (src.take (toSize len.toInt)) else .null := by
  simp only [decodeByteArray,if_neg defined,if_neg past,get] at done
  by_cases inside : toSize len.toInt ≤ src.length
  · rw [if_pos inside] at done
    simp only [bind,Except.bind] at done
    split at done
    · cases done
    · cases done
      exact ⟨rfl,rfl,inside,rfl⟩
  · rw [if_neg inside] at done
    cases done

theorem opaqueLengthsValidated (env : Env) (src : List Byte) (dst : Val) (inc max : Nat) (len : BitVec 32)
    (path : List Nat) : LengthValidated env src dst inc max len path ↔
      (len.toInt < 0 → max ≤ toSize (4 * Int.tdiv len.toInt 4)) := by
  by_cases negative : len.toInt < 0
  · have defined := byteLengthBound len negative
    have total := bytePaddingNegative negative
    by_cases refused : max ≤ toSize (len.toInt + bytePadding len.toInt)
    · have fails : decodeByteArray env src dst inc max (some len) path = .ok ⟨-1,0,dst⟩ := by
        simp only [decodeByteArray,if_neg defined,if_pos refused]
      rw [total] at refused
      refine iff_of_true ⟨fun r done zero => ?_,fun _ => ⟨_,fails,neg_one_lt_zero⟩⟩ fun _ => refused
      rw [fails] at done
      cases done
      cases zero
    · refine iff_of_false ?_ fun enough => refused (total ▸ enough negative)
      rintro ⟨-,rejects⟩
      obtain ⟨r,done,failed⟩ := rejects negative
      obtain ⟨zero,-⟩ := decodeByteArrayPast defined refused done
      omega
  · refine iff_of_true ⟨fun r done zero => ?_,fun below => absurd below negative⟩ fun below => absurd below negative
    obtain ⟨n,same⟩ : ∃ n : Nat, len.toInt = n := ⟨len.toInt.toNat,by omega⟩
    have small : n < 2 ^ 31 := by
      have := @BitVec.toInt_lt 32 len
      omega
    have sum : len.toInt + bytePadding len.toInt = (paddedSize n : Nat) := by
      rw [same, bytePaddingNat, paddedSize]
      omega
    have natural : len.toInt.toNat = n := by omega
    have width : paddedSize n < 2 ^ 64 := by
      have := padSmall n
      unfold paddedSize
      omega
    have total : toSize (len.toInt + bytePadding len.toInt) = paddedSize n := by rw [sum, toSizeNat width]
    have count : toSize len.toInt = n := by rw [same, toSizeNat (by omega)]
    rw [natural]
    by_cases defined : (2 ^ 31 : Int) ≤ len.toInt + bytePadding len.toInt
    · simp only [decodeByteArray,if_pos defined] at done
      cases done
    by_cases refused : max ≤ toSize (len.toInt + bytePadding len.toInt)
    · simp only [decodeByteArray,if_neg defined,if_pos refused] at done
      cases done
      cases zero
    obtain ⟨-,consumed,inside,copied⟩ := decodeByteArrayPast defined refused done
    rw [total] at consumed refused
    rw [count] at inside copied
    refine ⟨by omega,by omega,consumed,inside,fun bs is => ?_⟩
    rw [copied] at is
    split at is
    · cases is
      rfl
    · cases is

/- Length -1: with its padding it is 0, less than any room there is, and the copy of 2^64 - 1
bytes runs out of the buffer. -/
theorem minusOneCopied :
    ¬ LengthValidated sampleEnv [0,0,0,0] .null 0 4 (-1) [] ∧
    xdrStructDecoder sampleEnv 0 ipcOpaqueStructFields [255,255,255,255,0,0,0,0] (.struct [.word 0,.null]) 8 =
      .error .oob := by
  refine ⟨fun validated => ?_,rfl⟩
  obtain ⟨r,done,-⟩ := validated.2 (by decide)
  have copied : decodeByteArray sampleEnv [0,0,0,0] .null 0 4 (some (-1)) [] = .error .oob := rfl
  rw [copied] at done
  cases done

end LibProc.Xdr
