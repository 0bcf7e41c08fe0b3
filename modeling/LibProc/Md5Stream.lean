import LibProc.BlockFold
import LibProc.Md5

/-! A message that MD5Update is given in pieces has the digest that rfc1321.txt describes for the
whole of it: the message is padded, its length in bits put behind it, and the blocks of that are
transformed one after the other. -/
namespace LibProc.Md5
open XdrBytes
open BlockFold (blocks left)

/- Sections 3.1 and 3.2: a one bit, zero bits up to 448 modulo 512, and the length modulo 2^64. -/
def paddedMessage (message : List Byte) : List Byte :=
  message ++ (0x80 :: List.replicate (63 - (message.length + 8) % 64) 0 ++ hostBytes64 (BitVec.ofNat 64 (8 * message.length)))

def digest (message : List Byte) : List Byte :=
  let state := blocks md5Transform 64 md5Init.state (paddedMessage message)
  encode [state.a,state.b,state.c,state.d]

def bitCount (total : Nat) : Word × Word := (BitVec.ofNat 32 (8 * total),BitVec.ofNat 32 (8 * total / 2 ^ 32))

structure Holds (ctx : Context) (message : List Byte) : Prop where
  state : ctx.state = blocks md5Transform 64 md5Init.state message
  count : ctx.count = bitCount message.length
  size : ctx.buffer.length = 64
  pending : ctx.buffer.take (message.length % 64) = left 64 message

theorem initHolds : Holds md5Init [] := ⟨rfl,rfl,rfl,rfl⟩

theorem indexIs {ctx : Context} {message : List Byte} (holds : Holds ctx message) : bufferIndex ctx = message.length % 64 := by
  rw [bufferIndex, holds.count, bitCount, BitVec.toNat_and, BitVec.toNat_ushiftRight, BitVec.toNat_ofNat, Nat.shiftRight_eq_div_pow]
  have mask : (0x3F : Word).toNat = 2 ^ 6 - 1 := rfl
  rw [mask, Nat.and_two_pow_sub_one_eq_mod]
  omega

theorem countAdds (total : Nat) {len : Nat} (small : len < 2 ^ 32) :
    addCount (bitCount total) (BitVec.ofNat 32 len) = bitCount (total + len) := by
  have added : (BitVec.ofNat 32 len <<< 3).toNat = 8 * len % 2 ^ 32 := by
    rw [BitVec.toNat_shiftLeft, BitVec.toNat_ofNat, Nat.shiftLeft_eq]
    omega
  have low : (BitVec.ofNat 32 (8 * total) + BitVec.ofNat 32 len <<< 3) = BitVec.ofNat 32 (8 * (total + len)) := by
    apply BitVec.eq_of_toNat_eq
    rw [BitVec.toNat_add, added, BitVec.toNat_ofNat, BitVec.toNat_ofNat]
    omega
  have top : (BitVec.ofNat 32 len >>> 29).toNat = 8 * len / 2 ^ 32 := by
    rw [BitVec.toNat_ushiftRight, BitVec.toNat_ofNat, Nat.shiftRight_eq_div_pow]
    omega
  unfold addCount bitCount
  dsimp only
  rw [low]
  refine Prod.ext rfl (BitVec.eq_of_toNat_eq ?_)
  dsimp only
  rw [BitVec.toNat_add, BitVec.toNat_add, top, BitVec.toNat_ofNat, BitVec.toNat_ofNat]
  by_cases carry : BitVec.ofNat 32 (8 * (total + len)) < BitVec.ofNat 32 len <<< 3
  · have one : ((1 : Nat) : Word).toNat = 1 := rfl
    rw [if_pos carry, one]
    rw [BitVec.lt_def, added, BitVec.toNat_ofNat] at carry
    omega
  · have zero : ((0 : Nat) : Word).toNat = 0 := rfl
    rw [if_neg carry, zero]
    rw [BitVec.lt_def, added, BitVec.toNat_ofNat] at carry
    omega

theorem updateHolds {ctx : Context} {message input : List Byte} (holds : Holds ctx message) (small : input.length < 2 ^ 32) :
    Holds (md5Update ctx input) (message ++ input) := by
  have some_ : 0 < 64 := by decide
  have index := indexIs holds
  have less := Nat.mod_lt message.length some_
  have count : addCount ctx.count (BitVec.ofNat 32 input.length) = bitCount (message ++ input).length := by
    rw [holds.count, countAdds _ small, List.length_append]
  obtain ⟨folded,rest⟩ := BlockFold.pieces (f := md5Transform) some_ message input md5Init.state
  have waiting := BlockFold.leftLength (n := 64) message
  unfold md5Update
  dsimp only
  rw [index, count]
  by_cases full : 64 - message.length % 64 ≤ input.length
  · rw [if_pos full]
    -- the buffer is a block: what waited, and the front of the input
    have part : (input.take (64 - message.length % 64)).length = 64 - message.length % 64 := by
      rw [List.length_take]
      exact Nat.min_eq_left full
    have room : message.length % 64 + (input.take (64 - message.length % 64)).length ≤ ctx.buffer.length := by
      rw [part, holds.size]
      omega
    have size : (splice ctx.buffer (message.length % 64) (input.take (64 - message.length % 64))).length = 64 := by
      rw [spliceLength room, holds.size]
    have block : splice ctx.buffer (message.length % 64) (input.take (64 - message.length % 64)) =
        left 64 message ++ input.take (64 - message.length % 64) := by
      have whole := spliceTake room
      rwa [part, Nat.add_sub_cancel' less.le, holds.pending, List.take_of_length_le size.le] at whole
    have blockSize : (left 64 message ++ input.take (64 - message.length % 64)).length = 64 := by rw [← block, size]
    have cut : left 64 message ++ input =
        (left 64 message ++ input.take (64 - message.length % 64)) ++ input.drop (64 - message.length % 64) := by
      rw [List.append_assoc, List.take_append_drop]
    have length : (input.drop (64 - message.length % 64)).length = input.length - (64 - message.length % 64) := List.length_drop
    have tail : input.drop (64 - message.length % 64 + 64 * ((input.length - (64 - message.length % 64)) / 64)) =
        left 64 (input.drop (64 - message.length % 64)) := by
      rw [left, length, List.drop_drop]
    rw [cut, BlockFold.blocksStep some_ blockSize] at folded
    rw [cut, BlockFold.leftStep some_ blockSize] at rest
    refine ⟨?_,rfl,?_,?_⟩
    · dsimp only
      rw [folded, block, holds.state]
      generalize blocks md5Transform 64 md5Init.state message = before
      rw [blocks, length]
      simp only [List.drop_drop]
    · dsimp only
      rw [tail, block, spliceLength, blockSize]
      rw [blockSize, Nat.zero_add]
      exact (BlockFold.leftLess some_ _).le
    · dsimp only
      have fits : 0 + (left 64 (input.drop (64 - message.length % 64))).length ≤
          (left 64 message ++ input.take (64 - message.length % 64)).length := by
        rw [blockSize, Nat.zero_add]
        exact (BlockFold.leftLess some_ _).le
      have stored := spliceTake fits
      rw [Nat.zero_add, List.take_zero, List.nil_append] at stored
      have many : (message ++ input).length % 64 = (left 64 (input.drop (64 - message.length % 64))).length := by
        rw [← rest, BlockFold.leftLength]
      rw [tail, block, many, stored, rest]
  · rw [if_neg full]
    have room : message.length % 64 + input.length ≤ ctx.buffer.length := by
      rw [holds.size]
      omega
    have short : (left 64 message ++ input).length < 64 := by
      rw [List.length_append, waiting]
      omega
    rw [BlockFold.blocksShort short] at folded
    rw [BlockFold.leftShort short] at rest
    refine ⟨?_,rfl,?_,?_⟩
    · rw [folded]
      exact holds.state
    · rw [spliceLength room, holds.size]
    · have many : (message ++ input).length % 64 = message.length % 64 + input.length := by
        rw [← BlockFold.leftLength, rest, List.length_append, waiting]
      rw [many, spliceTake room, holds.pending, rest]

theorem bitsEncoded (total : Nat) : encode [(bitCount total).1,(bitCount total).2] = hostBytes64 (BitVec.ofNat 64 (8 * total)) := by
  have first : low (BitVec.ofNat 64 (8 * total)) = BitVec.ofNat 32 (8 * total) := by
    apply BitVec.eq_of_toNat_eq
    rw [low, BitVec.extractLsb'_toNat, BitVec.toNat_ofNat, BitVec.toNat_ofNat, Nat.shiftRight_zero]
    omega
  have second : high (BitVec.ofNat 64 (8 * total)) = BitVec.ofNat 32 (8 * total / 2 ^ 32) := by
    apply BitVec.eq_of_toNat_eq
    rw [high, BitVec.extractLsb'_toNat, BitVec.toNat_ofNat, BitVec.toNat_ofNat, Nat.shiftRight_eq_div_pow]
    omega
  rw [hostBytes64, first, second]
  simp [encode,bitCount]

theorem paddingTake {n : Nat} (n_ : 0 < n) (most : n ≤ 64) : padding.take n = 0x80 :: List.replicate (n - 1) 0 := by
  obtain ⟨k,rfl⟩ := Nat.exists_eq_add_of_lt n_
  rw [padding, Nat.zero_add, List.take_succ_cons, List.take_replicate, Nat.min_eq_left (by omega), Nat.add_sub_cancel]

theorem finalDigests {ctx : Context} {message : List Byte} (holds : Holds ctx message) : md5Final ctx = digest message := by
  have index := indexIs holds
  have pads : (if bufferIndex ctx < 56 then 56 - bufferIndex ctx else 120 - bufferIndex ctx) = 63 - (message.length + 8) % 64 + 1 := by
    rw [index]
    split <;> omega
  have most : 63 - (message.length + 8) % 64 + 1 ≤ 64 := by omega
  have filled : Holds (md5Update ctx (padding.take (63 - (message.length + 8) % 64 + 1))) _ := updateHolds holds
    (by rw [List.length_take]; exact lt_of_le_of_lt (Nat.min_le_left _ _) (by omega))
  have eight : (encode [ctx.count.1,ctx.count.2]).length = 8 := rfl
  have done := updateHolds filled (lt_of_eq_of_lt eight (by decide))
  unfold md5Final
  dsimp only
  rw [pads, done.state, holds.count, bitsEncoded, paddingTake (Nat.succ_pos _) most, List.append_assoc]
  rfl

theorem chunksHold {chunks : List (List Byte)} {ctx : Context} {message : List Byte} (holds : Holds ctx message)
    (small : ∀ chunk ∈ chunks, chunk.length ≤ 2 ^ 32 - 64) : Holds (chunks.foldl md5Update ctx) (message ++ chunks.flatten) := by
  induction chunks generalizing ctx message with
  | nil =>
    rw [List.flatten_nil, List.append_nil]
    exact holds
  | cons chunk chunks ih =>
    have first := small chunk List.mem_cons_self
    rw [List.flatten_cons, ← List.append_assoc]
    exact ih (updateHolds holds (by omega)) fun c later => small c (List.mem_cons_of_mem _ later)

/- However a message is cut into pieces, its digest is that of the whole of it. In a piece of more than
2^32 - 64 bytes the counter of the source's loop would wrap. -/
theorem piecesDigest {chunks : List (List Byte)} (small : ∀ chunk ∈ chunks, chunk.length ≤ 2 ^ 32 - 64) :
    md5Final (chunks.foldl md5Update md5Init) = digest chunks.flatten :=
  finalDigests (chunksHold initHolds small)

theorem threePiecesDigest :
    md5Final ([[0x61],[],[0x62,0x63]].foldl md5Update md5Init) = digest [0x61,0x62,0x63] :=
  piecesDigest (by decide)

end LibProc.Md5
