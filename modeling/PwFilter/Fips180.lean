import PwFilter.BlockFold

/-!
# SHA-1 as specified

The hash function of FIPS 180-4 over byte strings: logical functions and
constants by round, the message schedule, padding, and the fold of the
compression function over the blocks of the padded message.
-/

namespace Fips180

/-! ## Words and functions -/

@[ext] structure HashValue where
  a : UInt32
  b : UInt32
  c : UInt32
  d : UInt32
  e : UInt32
  deriving DecidableEq, Repr

def rotl (n x : UInt32) : UInt32 := (x <<< n) ||| (x >>> (32 - n))

def ch (x y z : UInt32) : UInt32 := (x &&& y) ^^^ (~~~x &&& z)

def parity (x y z : UInt32) : UInt32 := x ^^^ y ^^^ z

def maj (x y z : UInt32) : UInt32 := (x &&& y) ^^^ (x &&& z) ^^^ (y &&& z)

def logical (t : ℕ) (x y z : UInt32) : UInt32 :=
  if t ≤ 19 then ch x y z
  else if t ≤ 39 then parity x y z
  else if t ≤ 59 then maj x y z
  else parity x y z

def constant (t : ℕ) : UInt32 :=
  if t ≤ 19 then 0x5A827999
  else if t ≤ 39 then 0x6ED9EBA1
  else if t ≤ 59 then 0x8F1BBCDC
  else 0xCA62C1D6

def wordAt (block : List UInt8) (t : ℕ) : UInt32 :=
  ((block.getD (4 * t) 0).toUInt32 <<< 24) |||
    ((block.getD (4 * t + 1) 0).toUInt32 <<< 16) |||
    ((block.getD (4 * t + 2) 0).toUInt32 <<< 8) |||
    (block.getD (4 * t + 3) 0).toUInt32

def schedule (block : List UInt8) (t : ℕ) : UInt32 :=
  if t < 16 then wordAt block t
  else rotl 1 (schedule block (t - 3) ^^^ schedule block (t - 8) ^^^
    schedule block (t - 14) ^^^ schedule block (t - 16))
termination_by t
decreasing_by all_goals omega

/-! ## Compression -/

def round (w : ℕ → UInt32) (v : HashValue) (t : ℕ) : HashValue :=
  { a := rotl 5 v.a + logical t v.b v.c v.d + v.e + constant t + w t
    b := v.a
    c := rotl 30 v.b
    d := v.c
    e := v.d }

def compress (h : HashValue) (block : List UInt8) : HashValue :=
  let v := (List.range 80).foldl (round (schedule block)) h
  { a := h.a + v.a
    b := h.b + v.b
    c := h.c + v.c
    d := h.d + v.d
    e := h.e + v.e }

def initial : HashValue :=
  { a := 0x67452301
    b := 0xEFCDAB89
    c := 0x98BADCFE
    d := 0x10325476
    e := 0xC3D2E1F0 }

/-! ## Padding and the digest -/

def lengthBytes (bits : ℕ) : List UInt8 :=
  (List.range 8).map fun i => UInt8.ofNat (bits / 256 ^ (7 - i))

/-- The number of zero bytes after the byte `0x80`. -/
def zeroBytes (length : ℕ) : ℕ := (119 - length % 64) % 64

def pad (message : List UInt8) : List UInt8 :=
  message ++ 0x80 :: List.replicate (zeroBytes message.length) 0 ++
    lengthBytes (8 * message.length)

def wordBytes (x : UInt32) : List UInt8 :=
  [(x >>> 24).toUInt8, (x >>> 16).toUInt8, (x >>> 8).toUInt8, x.toUInt8]

def output (h : HashValue) : List UInt8 :=
  wordBytes h.a ++ wordBytes h.b ++ wordBytes h.c ++ wordBytes h.d ++
    wordBytes h.e

def sha1 (message : List UInt8) : List UInt8 :=
  output (BlockFold.absorb 64 compress initial (pad message)).1

@[simp] theorem lengthBytes_length (bits : ℕ) : (lengthBytes bits).length = 8 := by
  simp [lengthBytes]

@[simp] theorem output_length (h : HashValue) : (output h).length = 20 := rfl

theorem sha1_length (message : List UInt8) : (sha1 message).length = 20 :=
  output_length _

theorem maj_eq_or (x y z : UInt32) :
    maj x y z = (x &&& y) ||| (x &&& z) ||| (y &&& z) := by
  rw [← UInt32.toBitVec_inj]
  simp only [maj, UInt32.toBitVec_xor, UInt32.toBitVec_and, UInt32.toBitVec_or]
  apply BitVec.eq_of_getLsbD_eq
  intro i _
  simp only [BitVec.getLsbD_xor, BitVec.getLsbD_and, BitVec.getLsbD_or]
  cases x.toBitVec.getLsbD i <;> cases y.toBitVec.getLsbD i <;>
    cases z.toBitVec.getLsbD i <;> rfl

theorem ch_eq_or (x y z : UInt32) :
    ch x y z = (x &&& y) ||| (~~~x &&& z) := by
  rw [← UInt32.toBitVec_inj]
  simp only [ch, UInt32.toBitVec_xor, UInt32.toBitVec_and, UInt32.toBitVec_or,
    UInt32.toBitVec_not]
  apply BitVec.eq_of_getLsbD_eq
  intro i hi
  simp only [BitVec.getLsbD_xor, BitVec.getLsbD_and, BitVec.getLsbD_or,
    BitVec.getLsbD_not, hi]
  cases x.toBitVec.getLsbD i <;> cases y.toBitVec.getLsbD i <;>
    cases z.toBitVec.getLsbD i <;> rfl

end Fips180
