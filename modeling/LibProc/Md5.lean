import LibProc.XdrBytes

/-! The MD5 of md5.c, function by function. The 64 operations of a transform are tables of
word, rotation and constant, one table a round; the registers turn one place after each
operation, which is how the source's argument orders follow one another. -/
namespace LibProc.Md5
open XdrBytes

abbrev Word := BitVec 32

structure Registers where
  a : Word
  b : Word
  c : Word
  d : Word
  deriving DecidableEq, Repr

structure Context where
  state : Registers
  count : Word × Word
  buffer : List Byte
  deriving DecidableEq, Repr

def mixF (x y z : Word) : Word := (x &&& y) ||| (~~~x &&& z)
def mixG (x y z : Word) : Word := (x &&& z) ||| (y &&& ~~~z)
def mixH (x y z : Word) : Word := x ^^^ y ^^^ z
def mixI (x y z : Word) : Word := y ^^^ (x ||| ~~~z)

def roundF : List (Nat × Nat × Word) := [
   (0,7,0xd76aa478),(1,12,0xe8c7b756),(2,17,0x242070db),(3,22,0xc1bdceee),
   (4,7,0xf57c0faf),(5,12,0x4787c62a),(6,17,0xa8304613),(7,22,0xfd469501),
   (8,7,0x698098d8),(9,12,0x8b44f7af),(10,17,0xffff5bb1),(11,22,0x895cd7be),
   (12,7,0x6b901122),(13,12,0xfd987193),(14,17,0xa679438e),(15,22,0x49b40821)]

def roundG : List (Nat × Nat × Word) := [
   (1,5,0xf61e2562),(6,9,0xc040b340),(11,14,0x265e5a51),(0,20,0xe9b6c7aa),
   (5,5,0xd62f105d),(10,9,0x2441453),(15,14,0xd8a1e681),(4,20,0xe7d3fbc8),
   (9,5,0x21e1cde6),(14,9,0xc33707d6),(3,14,0xf4d50d87),(8,20,0x455a14ed),
   (13,5,0xa9e3e905),(2,9,0xfcefa3f8),(7,14,0x676f02d9),(12,20,0x8d2a4c8a)]

def roundH : List (Nat × Nat × Word) := [
   (5,4,0xfffa3942),(8,11,0x8771f681),(11,16,0x6d9d6122),(14,23,0xfde5380c),
   (1,4,0xa4beea44),(4,11,0x4bdecfa9),(7,16,0xf6bb4b60),(10,23,0xbebfbc70),
   (13,4,0x289b7ec6),(0,11,0xeaa127fa),(3,16,0xd4ef3085),(6,23,0x4881d05),
   (9,4,0xd9d4d039),(12,11,0xe6db99e5),(15,16,0x1fa27cf8),(2,23,0xc4ac5665)]

def roundI : List (Nat × Nat × Word) := [
   (0,6,0xf4292244),(7,10,0x432aff97),(14,15,0xab9423a7),(5,21,0xfc93a039),
   (12,6,0x655b59c3),(3,10,0x8f0ccc92),(10,15,0xffeff47d),(1,21,0x85845dd1),
   (8,6,0x6fa87e4f),(15,10,0xfe2ce6e0),(6,15,0xa3014314),(13,21,0x4e0811a1),
   (4,6,0xf7537e82),(11,10,0xbd3af235),(2,15,0x2ad7d2bb),(9,21,0xeb86d391)]

def operation (mix : Word → Word → Word → Word) (x : List Word) (r : Registers) (row : Nat × Nat × Word) :
    Registers :=
  let a := r.a + mix r.b r.c r.d + x.getD row.1 0 + row.2.2
  ⟨r.d,a.rotateLeft row.2.1 + r.b,r.b,r.c⟩

def encode (words : List Word) : List Byte := words.flatMap hostBytes

def decode (block : List Byte) : List Word :=
  (List.range 16).map fun i => hostWord ((block.drop (4 * i)).take 4)

def md5Transform (state : Registers) (block : List Byte) : Registers :=
  let x := decode block
  let first := roundF.foldl (operation mixF x) state
  let second := roundG.foldl (operation mixG x) first
  let third := roundH.foldl (operation mixH x) second
  let fourth := roundI.foldl (operation mixI x) third
  ⟨state.a + fourth.a,state.b + fourth.b,state.c + fourth.c,state.d + fourth.d⟩

/- The buffer is not set here in the source; no byte of it is read before it is written. -/
def md5Init : Context :=
  ⟨⟨0x67452301,0xefcdab89,0x98badcfe,0x10325476⟩,(0,0),List.replicate 64 0⟩

def bufferIndex (ctx : Context) : Nat := ((ctx.count.1 >>> 3) &&& 0x3F).toNat

def addCount (count : Word × Word) (inputLen : Word) : Word × Word :=
  let low := count.1 + (inputLen <<< 3)
  (low,count.2 + (if low < inputLen <<< 3 then 1 else 0) + (inputLen >>> 29))

def md5Update (ctx : Context) (input : List Byte) : Context :=
  let index := bufferIndex ctx
  let count := addCount ctx.count (BitVec.ofNat 32 input.length)
  let partLen := 64 - index
  if partLen ≤ input.length then
    let buffer := splice ctx.buffer index (input.take partLen)
    let blocks := (input.length - partLen) / 64
    let state := (List.range blocks).foldl
      (fun state k => md5Transform state ((input.drop (partLen + 64 * k)).take 64))
      (md5Transform ctx.state buffer)
    ⟨state,count,splice buffer 0 (input.drop (partLen + 64 * blocks))⟩
  else ⟨ctx.state,count,splice ctx.buffer index input⟩

def padding : List Byte := 0x80 :: List.replicate 63 0

def md5Final (ctx : Context) : List Byte :=
  let bits := encode [ctx.count.1,ctx.count.2]
  let index := bufferIndex ctx
  let padLen := if index < 56 then 56 - index else 120 - index
  let done := md5Update (md5Update ctx (padding.take padLen)) bits
  encode [done.state.a,done.state.b,done.state.c,done.state.d]

def md5 (input : List Byte) : List Byte := md5Final (md5Update md5Init input)

theorem md5Length (input : List Byte) : (md5 input).length = 16 := rfl

example : md5 [] = [0xd4,0x1d,0x8c,0xd9,0x8f,0x00,0xb2,0x04,0xe9,0x80,0x09,0x98,0xec,0xf8,0x42,0x7e] := by
  decide +kernel

example : md5 [0x61,0x62,0x63] =
    [0x90,0x01,0x50,0x98,0x3c,0xd2,0x4f,0xb0,0xd6,0x96,0x3f,0x7d,0x28,0xe1,0x7f,0x72] := by
  decide +kernel

end LibProc.Md5
