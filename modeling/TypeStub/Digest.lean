import TypeStub.Text

-- The digest that names a stub which was given no module name.
namespace TypeStub

-- Why a text has no digest.
inductive DigestError
  | noContext
  | failed
  deriving DecidableEq, Repr

def DigestError.message : DigestError → Text
  | noContext => "failed to allocate digest context"
  | failed => "md5 digest failed"

-- A digest of texts. It is the work of a library, so what needs one is given it.
abbrev Hasher := Text → Except DigestError (List UInt8)

namespace Digest

def hexByte (byte : Nat) : Text := [Nat.digitChar (byte / 16), Nat.digitChar (byte % 16)]

-- Two lowercase hexadecimal digits for each byte.
def hex (bytes : List UInt8) : Text := bytes.flatMap fun byte => hexByte byte.toNat

end Digest

def Hasher.hex (digest : Hasher) (text : Text) : Except DigestError Text :=
  (digest text).map Digest.hex

-- The MD5 digest, with which the program names its stubs.
namespace Digest

-- The sine table: the whole part of 2 ^ 32 · |sin (i + 1)|.
def sines : List UInt32 :=
  [0xd76aa478, 0xe8c7b756, 0x242070db, 0xc1bdceee,
   0xf57c0faf, 0x4787c62a, 0xa8304613, 0xfd469501,
   0x698098d8, 0x8b44f7af, 0xffff5bb1, 0x895cd7be,
   0x6b901122, 0xfd987193, 0xa679438e, 0x49b40821,
   0xf61e2562, 0xc040b340, 0x265e5a51, 0xe9b6c7aa,
   0xd62f105d, 0x02441453, 0xd8a1e681, 0xe7d3fbc8,
   0x21e1cde6, 0xc33707d6, 0xf4d50d87, 0x455a14ed,
   0xa9e3e905, 0xfcefa3f8, 0x676f02d9, 0x8d2a4c8a,
   0xfffa3942, 0x8771f681, 0x6d9d6122, 0xfde5380c,
   0xa4beea44, 0x4bdecfa9, 0xf6bb4b60, 0xbebfbc70,
   0x289b7ec6, 0xeaa127fa, 0xd4ef3085, 0x04881d05,
   0xd9d4d039, 0xe6db99e5, 0x1fa27cf8, 0xc4ac5665,
   0xf4292244, 0x432aff97, 0xab9423a7, 0xfc93a039,
   0x655b59c3, 0x8f0ccc92, 0xffeff47d, 0x85845dd1,
   0x6fa87e4f, 0xfe2ce6e0, 0xa3014314, 0x4e0811a1,
   0xf7537e82, 0xbd3af235, 0x2ad7d2bb, 0xeb86d391]

-- The four rotation amounts of each round, in turn.
def rotations : List (List UInt32) :=
  [[7, 12, 17, 22], [5, 9, 14, 20], [4, 11, 16, 23], [6, 10, 15, 21]]

structure State where
  a : UInt32
  b : UInt32
  c : UInt32
  d : UInt32

def State.initial : State := ⟨0x67452301, 0xefcdab89, 0x98badcfe, 0x10325476⟩

def rotateLeft (x amount : UInt32) : UInt32 := (x <<< amount) ||| (x >>> (32 - amount))

-- The mixing function of a step and the block word that it takes.
def mix (s : State) (step : Nat) : UInt32 × Nat :=
  match step / 16 with
  | 0 => ((s.b &&& s.c) ||| (~~~s.b &&& s.d), step)
  | 1 => ((s.d &&& s.b) ||| (~~~s.d &&& s.c), (5 * step + 1) % 16)
  | 2 => (s.b ^^^ s.c ^^^ s.d, (3 * step + 5) % 16)
  | _ => (s.c ^^^ (s.b ||| ~~~s.d), (7 * step) % 16)

def rotationAt (step : Nat) : UInt32 := (rotations.getD (step / 16) []).getD (step % 4) 0

def stepState (block : List UInt32) (s : State) (step : Nat) : State :=
  let (mixed, word) := mix s step
  let sum := s.a + mixed + sines.getD step 0 + block.getD word 0
  ⟨s.d, s.b + rotateLeft sum (rotationAt step), s.b, s.c⟩

def addBlock (s : State) (block : List UInt32) : State :=
  let t := (List.range 64).foldl (stepState block) s
  ⟨s.a + t.a, s.b + t.b, s.c + t.c, s.d + t.d⟩

-- So many bytes of a number, the lowest first.
def littleEndian : Nat → Nat → List Nat
  | 0, _ => []
  | count + 1, n => n % 256 :: littleEndian count (n / 256)

-- The message, a one bit, zeros up to eight bytes before a multiple of 64, and the length in bits.
def padded (message : List Nat) : List Nat :=
  let zeros := (119 - message.length % 64) % 64
  message ++ 128 :: List.replicate zeros 0 ++ littleEndian 8 (8 * message.length)

def words : List Nat → List UInt32
  | b0 :: b1 :: b2 :: b3 :: rest =>
      (b0 + 256 * b1 + 65536 * b2 + 16777216 * b3).toUInt32 :: words rest
  | _ => []

-- The words in blocks of sixteen.
def blocks (ws : List UInt32) : List (List UInt32) :=
  match ws with
  | [] => []
  | w :: rest => (w :: rest.take 15) :: blocks (rest.drop 15)
termination_by ws.length

def md5Bytes (message : Text) : List UInt8 :=
  let s := (blocks (words (padded (message.map fun c => c.toNat % 256)))).foldl addBlock .initial
  [s.a, s.b, s.c, s.d].flatMap fun word =>
    (littleEndian 4 word.toNat).map fun byte => byte.toUInt8

-- It never fails.
def md5 : Hasher := fun message => .ok (md5Bytes message)

end Digest

end TypeStub
