import Mathlib.Data.List.Basic
import Mathlib.Tactic.Linarith

/-! Bytes, words and buffers. A word is read and written most significant byte first;
`host` is the order of the machine, which is little endian. A buffer is written in
place: `splice` replaces a stretch of it. -/
namespace LibProc.XdrBytes

abbrev Byte := BitVec 8

def beBytes (w : BitVec 32) : List Byte :=
  [w.extractLsb' 24 8,w.extractLsb' 16 8,w.extractLsb' 8 8,w.extractLsb' 0 8]

def beWord : List Byte → BitVec 32
  | [a,b,c,d] => a ++ b ++ c ++ d
  | _ => 0

@[simp] theorem beBytesLength (w : BitVec 32) : (beBytes w).length = 4 := rfl

theorem beWordBytes (w : BitVec 32) : beWord (beBytes w) = w := by
  simp only [beWord,beBytes]
  apply BitVec.eq_of_getLsbD_eq
  intro i small
  simp only [BitVec.getLsbD_append,BitVec.getLsbD_extractLsb']
  by_cases low : i < 8
  · simp [low]
  by_cases mid : i - 8 < 8
  · simp [low,mid,show 8 + (i - 8) = i by omega]
  by_cases high : i - 8 - 8 < 8
  · simp [low,mid,high,show 16 + (i - 8 - 8) = i by omega]
  · simp [low,mid,high,show 24 + (i - 8 - 8 - 8) = i by omega]
    omega

theorem beBytesWord (a b c d : Byte) : beBytes (beWord [a,b,c,d]) = [a,b,c,d] := by
  have byte : ∀ (start : Nat) (e : Byte), (∀ i, i < 8 →
      (a ++ b ++ c ++ d).getLsbD (start + i) = e.getLsbD i) →
      (a ++ b ++ c ++ d).extractLsb' start 8 = e := by
    intro start e same
    apply BitVec.eq_of_getLsbD_eq
    intro i small
    simp only [BitVec.getLsbD_extractLsb',small,decide_true,Bool.true_and,same i small]
  simp only [beWord,beBytes]
  rw [byte 24 a, byte 16 b, byte 8 c, byte 0 d]
  all_goals intro i small
  all_goals simp only [BitVec.getLsbD_append]
  · simp [small]
  · simp [show ¬8 + i < 8 by omega,small]
  · simp [show ¬16 + i < 8 by omega,show ¬16 + i - 8 < 8 by omega,
      show 16 + i - 8 - 8 = i by omega,small]
  · simp [show ¬24 + i < 8 by omega,show ¬24 + i - 8 < 8 by omega,
      show ¬24 + i - 8 - 8 < 8 by omega,show 24 + i - 8 - 8 - 8 = i by omega]

def hostBytes (w : BitVec 32) : List Byte := (beBytes w).reverse
def hostWord (bs : List Byte) : BitVec 32 := beWord bs.reverse

@[simp] theorem hostBytesLength (w : BitVec 32) : (hostBytes w).length = 4 := rfl

theorem hostWordBytes (w : BitVec 32) : hostWord (hostBytes w) = w := by
  rw [hostWord, hostBytes, List.reverse_reverse, beWordBytes]

def high (d : BitVec 64) : BitVec 32 := d.extractLsb' 32 32
def low (d : BitVec 64) : BitVec 32 := d.extractLsb' 0 32
def join (hi lo : BitVec 32) : BitVec 64 := hi ++ lo

theorem joinHalves (d : BitVec 64) : join (high d) (low d) = d := by
  apply BitVec.eq_of_getLsbD_eq
  intro i small
  simp only [join,high,low,BitVec.getLsbD_append,BitVec.getLsbD_extractLsb']
  by_cases first : i < 32
  · simp [first]
  · simp [first,show 32 + (i - 32) = i by omega]
    omega

def beBytes64 (d : BitVec 64) : List Byte := beBytes (high d) ++ beBytes (low d)
def hostBytes64 (d : BitVec 64) : List Byte := hostBytes (low d) ++ hostBytes (high d)
def hostWord64 (bs : List Byte) : BitVec 64 := join (hostWord (bs.drop 4)) (hostWord (bs.take 4))

theorem hostWordBytes64 (d : BitVec 64) : hostWord64 (hostBytes64 d) = d := by
  have take : (hostBytes64 d).take 4 = hostBytes (low d) := rfl
  have drop : (hostBytes64 d).drop 4 = hostBytes (high d) := rfl
  rw [hostWord64, take, drop, hostWordBytes, hostWordBytes, joinHalves]

def splice (buf : List Byte) (pos : Nat) (bs : List Byte) : List Byte :=
  buf.take pos ++ bs ++ buf.drop (pos + bs.length)

@[simp] theorem spliceLength {buf bs : List Byte} {pos : Nat} (room : pos + bs.length ≤ buf.length) :
    (splice buf pos bs).length = buf.length := by
  simp only [splice,List.length_append,List.length_take,List.length_drop]
  omega

theorem spliceNil (buf : List Byte) (pos : Nat) : splice buf pos [] = buf := by
  simp [splice]

theorem spliceAppend {buf a b : List Byte} {pos : Nat} (room : pos + a.length ≤ buf.length) :
    splice (splice buf pos a) (pos + a.length) b = splice buf pos (a ++ b) := by
  have width : (buf.take pos ++ a).length = pos + a.length := by
    simp only [List.length_append,List.length_take]
    omega
  simp only [splice]
  rw [List.take_append_of_le_length width.ge, List.take_of_length_le width.le, List.drop_append,
    List.drop_of_length_le (by omega), width, List.drop_drop, List.length_append]
  simp only [List.nil_append,List.append_assoc]
  congr 4
  omega

theorem spliceTake {buf bs : List Byte} {pos : Nat} (room : pos + bs.length ≤ buf.length) :
    (splice buf pos bs).take (pos + bs.length) = buf.take pos ++ bs := by
  have front : (buf.take pos ++ bs).length = pos + bs.length := by
    rw [List.length_append, List.length_take, Nat.min_eq_left (by omega)]
  rw [splice, ← front, List.take_left]

theorem spliceDrop {buf bs : List Byte} {pos : Nat} (room : pos ≤ buf.length) :
    (splice buf pos bs).drop pos = bs ++ buf.drop (pos + bs.length) := by
  have start : (buf.take pos).length = pos := by rw [List.length_take]; omega
  rw [splice, List.append_assoc, List.drop_append_of_le_length start.ge, List.drop_of_length_le start.le, List.nil_append]

theorem spliceWhole {buf bs : List Byte} (same : bs.length = buf.length) : splice buf 0 bs = bs := by
  simp [splice,same]

def pad (n : Nat) : Nat := (4 - n % 4) % 4

end LibProc.XdrBytes
