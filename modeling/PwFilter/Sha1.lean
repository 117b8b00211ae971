import PwFilter.Fips180

/-!
# The streaming SHA-1 object

`Sha1` keeps the hash value, the bit count and a 64-byte block buffer.  The
buffer is not initialised by `Reset`, so an object is built over arbitrary
memory.  `Update` tops the buffer up, hashes whole blocks straight from the
input and stashes the remainder; `Final` pads in the buffer.
-/

namespace PwFilter

structure Sha1Digest where
  bytes : List UInt8
  length_eq : bytes.length = 20

theorem Sha1Digest.ext_bytes {d d' : Sha1Digest} (h : d.bytes = d'.bytes) :
    d = d' := by
  cases d
  cases d'
  cases h
  rfl

/-- `overrun` records whether a write has ever left `buffer_`. -/
structure Sha1 where
  h : Fips180.HashValue
  totalBits : UInt64
  buffer : Vector UInt8 64
  bufferLen : ℕ
  overrun : Bool

def rol32 (v bits : UInt32) : UInt32 := (v <<< bits) ||| (v >>> (32 - bits))

namespace Sha1

def reset (s : Sha1) : Sha1 :=
  { s with
    h := { a := 0x67452301
           b := 0xEFCDAB89
           c := 0x98BADCFE
           d := 0x10325476
           e := 0xC3D2E1F0 }
    totalBits := 0
    bufferLen := 0 }

def new (memory : Vector UInt8 64) : Sha1 :=
  reset { h := ⟨0, 0, 0, 0, 0⟩, totalBits := 0, buffer := memory,
          bufferLen := 0, overrun := false }

/-! ## The compression function -/

def loadWords (block : List UInt8) : List UInt32 :=
  (List.range 16).map fun i =>
    ((block.getD (i * 4) 0).toUInt32 <<< 24) |||
      ((block.getD (i * 4 + 1) 0).toUInt32 <<< 16) |||
      ((block.getD (i * 4 + 2) 0).toUInt32 <<< 8) |||
      (block.getD (i * 4 + 3) 0).toUInt32

/-- The second loop over `w`: `left` words are still to be appended. -/
def expandWords : ℕ → List UInt32 → List UInt32
  | 0, w => w
  | left + 1, w =>
      let i := w.length
      expandWords left
        (w ++ [rol32 (w.getD (i - 3) 0 ^^^ w.getD (i - 8) 0 ^^^
          w.getD (i - 14) 0 ^^^ w.getD (i - 16) 0) 1])

def roundFunction (i : ℕ) (b c d : UInt32) : UInt32 × UInt32 :=
  if i < 20 then ((b &&& c) ||| (~~~b &&& d), 0x5A827999)
  else if i < 40 then (b ^^^ c ^^^ d, 0x6ED9EBA1)
  else if i < 60 then ((b &&& c) ||| (b &&& d) ||| (c &&& d), 0x8F1BBCDC)
  else (b ^^^ c ^^^ d, 0xCA62C1D6)

def roundStep (w : List UInt32) (v : Fips180.HashValue) (i : ℕ) :
    Fips180.HashValue :=
  let (f, k) := roundFunction i v.b v.c v.d
  let tmp := rol32 v.a 5 + f + v.e + k + w.getD i 0
  { a := tmp, b := v.a, c := rol32 v.b 30, d := v.c, e := v.d }

def hashBlock (h : Fips180.HashValue) (block : List UInt8) :
    Fips180.HashValue :=
  let w := expandWords 64 (loadWords block)
  let v := (List.range 80).foldl (roundStep w) h
  { a := h.a + v.a
    b := h.b + v.b
    c := h.c + v.c
    d := h.d + v.d
    e := h.e + v.e }

def processBlock (s : Sha1) (block : List UInt8) : Sha1 :=
  { s with h := hashBlock s.h block }

def flush (s : Sha1) : Sha1 :=
  { s.processBlock s.buffer.toList with bufferLen := 0 }

/-! ## Update and Final -/

def put (s : Sha1) (b : UInt8) : Sha1 :=
  { s with
    buffer := s.buffer.setIfInBounds s.bufferLen b
    bufferLen := s.bufferLen + 1
    overrun := s.overrun || decide (64 ≤ s.bufferLen) }

/-- `while (len > 0 && buffer_len_ < 64)` -/
def topUp : Sha1 → List UInt8 → Sha1 × List UInt8
  | s, [] => (s, [])
  | s, b :: data =>
      if s.bufferLen < 64 then topUp (s.put b) data else (s, b :: data)

/-- `while (len >= 64)` -/
def wholeBlocks (s : Sha1) (data : List UInt8) : Sha1 × List UInt8 :=
  if 64 ≤ data.length then
    wholeBlocks (s.processBlock (data.take 64)) (data.drop 64)
  else (s, data)
termination_by data.length
decreasing_by
  rw [List.length_drop]
  omega

/-- `while (len > 0)` -/
def stash : Sha1 → List UInt8 → Sha1
  | s, [] => s
  | s, b :: data => stash (s.put b) data

def update (s : Sha1) (data : List UInt8) : Sha1 :=
  let s := { s with totalBits := s.totalBits + UInt64.ofNat data.length * 8 }
  let (s, data) :=
    if s.bufferLen > 0 then
      let (s, data) := topUp s data
      if s.bufferLen = 64 then (s.flush, data) else (s, data)
    else (s, data)
  let (s, data) := wholeBlocks s data
  stash s data

/-- `while (buffer_len_ < limit) buffer_[buffer_len_++] = 0x00` -/
def fillZeros (limit : ℕ) (s : Sha1) : Sha1 :=
  if s.bufferLen < limit then fillZeros limit (s.put 0) else s
termination_by limit - s.bufferLen
decreasing_by
  have hnext : (s.put 0).bufferLen = s.bufferLen + 1 := rfl
  omega

def putLength (messageBits : UInt64) (s : Sha1) : Sha1 :=
  ([7, 6, 5, 4, 3, 2, 1, 0] : List UInt64).foldl
    (fun s i => s.put ((messageBits >>> (i * 8)) &&& 0xFF).toUInt8) s

def wordBytes (x : UInt32) : List UInt8 :=
  [((x >>> 24) &&& 0xFF).toUInt8, ((x >>> 16) &&& 0xFF).toUInt8,
    ((x >>> 8) &&& 0xFF).toUInt8, (x &&& 0xFF).toUInt8]

def digestOf (h : Fips180.HashValue) : Sha1Digest :=
  { bytes := wordBytes h.a ++ wordBytes h.b ++ wordBytes h.c ++
      wordBytes h.d ++ wordBytes h.e
    length_eq := rfl }

def final (s : Sha1) : Sha1Digest × Sha1 :=
  let messageBits := s.totalBits
  let s := s.put 0x80
  let s :=
    if s.bufferLen > 56 then (fillZeros 64 s).flush else s
  let s := (putLength messageBits (fillZeros 56 s)).flush
  (digestOf s.h, s)

/-! ## Sequences of calls -/

/-- The public calls on an object. -/
inductive Call where
  | reset
  | update (data : List UInt8)
  | final
  deriving DecidableEq, Repr

def call (s : Sha1) : Call → Sha1
  | .reset => s.reset
  | .update data => s.update data
  | .final => s.final.2

def calls (s : Sha1) (history : List Call) : Sha1 := history.foldl call s

def updateAll (s : Sha1) (chunks : List (List UInt8)) : Sha1 :=
  chunks.foldl update s

end Sha1

/-- `Sha1Hash` with its local object as it is destroyed; `memory` is what the
object is built over. -/
def sha1HashRun (memory : Vector UInt8 64) (data : List UInt8) :
    Sha1Digest × Sha1 :=
  ((Sha1.new memory).update data).final

def sha1Hash (memory : Vector UInt8 64) (data : List UInt8) : Sha1Digest :=
  (sha1HashRun memory data).1

end PwFilter
