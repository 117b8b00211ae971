import PwFilter.ByteMemory
import PwFilter.Sha1

/-!
# The PWBLOOM1 reader and builder

`BloomFilter` reads an image in place, `BloomBuilder` makes one.  Both probe
with wrapping 64-bit arithmetic.  The probe loops also record, for every
round, the modulus they reduce by and the byte they touch.  They run on fuel;
one round more than `k` is always enough.
-/

namespace PwFilter

open ByteMemory

def kBloomMagic : List UInt8 :=
  ['P', 'W', 'B', 'L', 'O', 'O', 'M', '1'].map fun c => UInt8.ofNat c.toNat

def kBloomVersion : UInt32 := 1

def kBloomSchemeSha1Le : UInt32 := 1

def kBloomHeaderSize : ℕ := 64

def loadLe64 (p : List UInt8) : UInt64 :=
  (p.getD 0 0).toUInt64 |||
    ((p.getD 1 0).toUInt64 <<< 8) |||
    ((p.getD 2 0).toUInt64 <<< 16) |||
    ((p.getD 3 0).toUInt64 <<< 24) |||
    ((p.getD 4 0).toUInt64 <<< 32) |||
    ((p.getD 5 0).toUInt64 <<< 40) |||
    ((p.getD 6 0).toUInt64 <<< 48) |||
    ((p.getD 7 0).toUInt64 <<< 56)

def get32 (data : List UInt8) (off : ℕ) : UInt32 :=
  (data.getD off 0).toUInt32 |||
    ((data.getD (off + 1) 0).toUInt32 <<< 8) |||
    ((data.getD (off + 2) 0).toUInt32 <<< 16) |||
    ((data.getD (off + 3) 0).toUInt32 <<< 24)

/-! ## Probes -/

/-- What one round of a probe loop does: the modulus it reduces by and the
offset of the byte it touches. -/
structure Access where
  modulus : UInt64
  offset : ℕ
  deriving DecidableEq, Repr

def probeIndex (h1 h2 m : UInt64) (i : UInt32) : UInt64 :=
  (h1 + i.toUInt64 * h2) % m

def bitMask (idx : UInt64) : UInt8 :=
  ((1 : UInt32) <<< (idx &&& 7).toUInt32).toUInt8

/-! ## The reader -/

/-- A validated image.  `bitset_` points 64 bytes into it. -/
structure BloomFilter where
  image : List UInt8
  m : UInt64
  k : UInt32
  n : UInt64
  m_ne_zero : m ≠ 0
  m_dvd : m.toNat % 8 = 0
  k_ne_zero : k ≠ 0
  size_eq : image.length = 64 + m.toNat / 8

theorem toNat_mod_eight {m : UInt64} (hm : ¬ m % 8 ≠ 0) : m.toNat % 8 = 0 := by
  have hzero : m % 8 = 0 := not_not.mp hm
  have hnat := congrArg UInt64.toNat hzero
  rwa [UInt64.toNat_mod] at hnat

theorem header_add_toNat (m : UInt64) :
    (UInt64.ofNat kBloomHeaderSize + m / 8).toNat = 64 + m.toNat / 8 := by
  have hm := m.toNat_lt
  have hheader : (UInt64.ofNat kBloomHeaderSize).toNat = 64 := rfl
  have height : UInt64.toNat 8 = 8 := rfl
  rw [UInt64.toNat_add, UInt64.toNat_div, hheader, height]
  omega

namespace BloomFilter

/-- `data` is `none` for a null pointer. -/
def fromMemory (data : Option (List UInt8)) : Option BloomFilter :=
  match data with
  | none => none
  | some data =>
      if data.length < kBloomHeaderSize then none
      else if data.take 8 ≠ kBloomMagic then none
      else
        let version := get32 data 8
        let k := get32 data 12
        let m := loadLe64 (data.drop 16)
        let n := loadLe64 (data.drop 24)
        let scheme := get32 data 32
        if version ≠ kBloomVersion then none
        else if scheme ≠ kBloomSchemeSha1Le then none
        else if hm : m = 0 ∨ m % 8 ≠ 0 then none
        else if hk : k = 0 then none
        else
          let bitsetBytes := m / 8
          if hsize : data.length ≠
              (UInt64.ofNat kBloomHeaderSize + bitsetBytes).toNat then none
          else
            some
              { image := data
                m := m
                k := k
                n := n
                m_ne_zero := fun h => hm (Or.inl h)
                m_dvd := toNat_mod_eight fun h => hm (Or.inr h)
                k_ne_zero := hk
                size_eq := (not_not.mp hsize).trans (header_add_toNat m) }

def access (bf : BloomFilter) (h1 h2 : UInt64) (i : UInt32) : Access :=
  let idx := probeIndex h1 h2 bf.m i
  { modulus := bf.m, offset := kBloomHeaderSize + (idx >>> 3).toNat }

/-- The loop of `MaybeContains` from round `i` on; `none` when the fuel runs
out. -/
def probeLoop (bf : BloomFilter) (h1 h2 : UInt64) :
    ℕ → UInt32 → Option (Bool × List Access)
  | 0, _ => none
  | fuel + 1, i =>
      if i < bf.k then
        let byte := bf.image.getD (bf.access h1 h2 i).offset 0
        if byte &&& bitMask (probeIndex h1 h2 bf.m i) = 0 then
          some (false, [bf.access h1 h2 i])
        else
          (probeLoop bf h1 h2 fuel (i + 1)).map fun (found, log) =>
            (found, bf.access h1 h2 i :: log)
      else some (true, [])

def maybeContainsRun (bf : BloomFilter) (d : Sha1Digest) :
    Option (Bool × List Access) :=
  bf.probeLoop (loadLe64 d.bytes) (loadLe64 (d.bytes.drop 8))
    (bf.k.toNat + 1) 0

def maybeContains (bf : BloomFilter) (d : Sha1Digest) : Bool :=
  match bf.maybeContainsRun d with
  | some (found, _) => found
  | none => false

end BloomFilter

/-! ## The builder -/

def roundUpTo8 (bits : UInt64) : UInt64 :=
  let bits := if bits < 8 then 8 else bits
  (bits + 7) &&& ~~~7

structure BloomBuilder where
  bitset : List UInt8
  m : UInt64
  k : UInt32
  n : UInt64

namespace BloomBuilder

def make (mBits : UInt64) (k : UInt32) : BloomBuilder :=
  { bitset := List.replicate (mBits / 8).toNat 0, m := mBits, k := k, n := 0 }

def withParams (mBits : UInt64) (k : UInt32) : BloomBuilder :=
  let m := roundUpTo8 mBits
  make m (if k < 1 then 1 else k)

def access (m h1 h2 : UInt64) (i : UInt32) : Access :=
  { modulus := m, offset := (probeIndex h1 h2 m i >>> 3).toNat }

/-- The loop of `Add` from round `i` on; offsets are into `bitset_`. -/
def addLoop (m : UInt64) (k : UInt32) (h1 h2 : UInt64) :
    ℕ → UInt32 → List UInt8 → Option (List UInt8 × List Access)
  | 0, _, _ => none
  | fuel + 1, i, bitset =>
      if i < k then
        let mask := bitMask (probeIndex h1 h2 m i)
        (addLoop m k h1 h2 fuel (i + 1)
            (bitset.modify (access m h1 h2 i).offset (· ||| mask))).map
          fun (bitset, log) => (bitset, access m h1 h2 i :: log)
      else some (bitset, [])

def addRun (b : BloomBuilder) (d : Sha1Digest) :
    Option (List UInt8 × List Access) :=
  addLoop b.m b.k (loadLe64 d.bytes) (loadLe64 (d.bytes.drop 8))
    (b.k.toNat + 1) 0 b.bitset

def add (b : BloomBuilder) (d : Sha1Digest) : BloomBuilder :=
  match b.addRun d with
  | some (bitset, _) => { b with bitset := bitset, n := b.n + 1 }
  | none => b

def addAll (b : BloomBuilder) (digests : List Sha1Digest) : BloomBuilder :=
  digests.foldl add b

def put32 (out : List UInt8) (off : ℕ) (v : UInt32) : List UInt8 :=
  store out off
    [(v &&& 0xFF).toUInt8, ((v >>> 8) &&& 0xFF).toUInt8,
      ((v >>> 16) &&& 0xFF).toUInt8, ((v >>> 24) &&& 0xFF).toUInt8]

def put64 (out : List UInt8) (off : ℕ) (v : UInt64) : List UInt8 :=
  store out off ((List.range 8).map fun i =>
    ((v >>> (UInt64.ofNat i * 8)) &&& 0xFF).toUInt8)

def serialize (b : BloomBuilder) : List UInt8 :=
  let out := List.replicate (kBloomHeaderSize + b.bitset.length) 0
  let out := store out 0 kBloomMagic
  let out := put32 out 8 kBloomVersion
  let out := put32 out 12 b.k
  let out := put64 out 16 b.m
  let out := put64 out 24 b.n
  let out := put32 out 32 kBloomSchemeSha1Le
  if b.bitset ≠ [] then store out kBloomHeaderSize b.bitset else out

end BloomBuilder

/-! ## Loads and probes as numbers -/

theorem or_byte_toNat
    (x : UInt64) (b : UInt8) (s : ℕ) (hs : s ≤ 56) (hx : x.toNat < 2 ^ s) :
    (x ||| (b.toUInt64 <<< UInt64.ofNat s)).toNat =
      x.toNat + 2 ^ s * b.toNat := by
  have hb := b.toNat_lt
  have hshift : (UInt64.ofNat s).toNat % 64 = s := by
    rw [UInt64.toNat_ofNat']
    omega
  have hpow : 2 ^ s * 2 ^ 8 ≤ 2 ^ 64 := by
    rw [← pow_add]
    exact Nat.pow_le_pow_right (by norm_num) (by omega)
  have hfit : b.toNat <<< s % 2 ^ 64 = b.toNat <<< s := by
    apply Nat.mod_eq_of_lt
    rw [Nat.shiftLeft_eq, Nat.mul_comm]
    calc 2 ^ s * b.toNat < 2 ^ s * 2 ^ 8 :=
          Nat.mul_lt_mul_of_pos_left hb (by positivity)
      _ ≤ 2 ^ 64 := hpow
  rw [UInt64.toNat_or, UInt64.toNat_shiftLeft, hshift, UInt8.toNat_toUInt64,
    hfit, or_shiftLeft_of_lt hx]

theorem or_byte_toNat32
    (x : UInt32) (b : UInt8) (s : ℕ) (hs : s ≤ 24) (hx : x.toNat < 2 ^ s) :
    (x ||| (b.toUInt32 <<< UInt32.ofNat s)).toNat =
      x.toNat + 2 ^ s * b.toNat := by
  have hb := b.toNat_lt
  have hshift : (UInt32.ofNat s).toNat % 32 = s := by
    rw [UInt32.toNat_ofNat']
    omega
  have hpow : 2 ^ s * 2 ^ 8 ≤ 2 ^ 32 := by
    rw [← pow_add]
    exact Nat.pow_le_pow_right (by norm_num) (by omega)
  have hfit : b.toNat <<< s % 2 ^ 32 = b.toNat <<< s := by
    apply Nat.mod_eq_of_lt
    rw [Nat.shiftLeft_eq, Nat.mul_comm]
    calc 2 ^ s * b.toNat < 2 ^ s * 2 ^ 8 :=
          Nat.mul_lt_mul_of_pos_left hb (by positivity)
      _ ≤ 2 ^ 32 := hpow
  rw [UInt32.toNat_or, UInt32.toNat_shiftLeft, hshift, UInt8.toNat_toUInt32,
    hfit, or_shiftLeft_of_lt hx]

theorem loadLe64_toNat {p : List UInt8} (hp : 8 ≤ p.length) :
    (loadLe64 p).toNat = leValue (p.take 8) := by
  match p, hp with
  | b₀ :: b₁ :: b₂ :: b₃ :: b₄ :: b₅ :: b₆ :: b₇ :: rest, _ =>
      have h₀ := b₀.toNat_lt
      have h₁ := b₁.toNat_lt
      have h₂ := b₂.toNat_lt
      have h₃ := b₃.toNat_lt
      have h₄ := b₄.toNat_lt
      have h₅ := b₅.toNat_lt
      have h₆ := b₆.toNat_lt
      have e₀ : b₀.toUInt64.toNat = b₀.toNat := UInt8.toNat_toUInt64 b₀
      have e₁ := or_byte_toNat b₀.toUInt64 b₁ 8 (by norm_num) (by omega)
      have e₂ := or_byte_toNat _ b₂ 16 (by norm_num)
        (by rw [e₁]; omega)
      have e₃ := or_byte_toNat _ b₃ 24 (by norm_num)
        (by rw [e₂, e₁]; omega)
      have e₄ := or_byte_toNat _ b₄ 32 (by norm_num)
        (by rw [e₃, e₂, e₁]; omega)
      have e₅ := or_byte_toNat _ b₅ 40 (by norm_num)
        (by rw [e₄, e₃, e₂, e₁]; omega)
      have e₆ := or_byte_toNat _ b₆ 48 (by norm_num)
        (by rw [e₅, e₄, e₃, e₂, e₁]; omega)
      have e₇ := or_byte_toNat _ b₇ 56 (by norm_num)
        (by rw [e₆, e₅, e₄, e₃, e₂, e₁]; omega)
      have hload : loadLe64 (b₀ :: b₁ :: b₂ :: b₃ :: b₄ :: b₅ :: b₆ :: b₇ ::
          rest) =
          b₀.toUInt64 ||| (b₁.toUInt64 <<< UInt64.ofNat 8) |||
            (b₂.toUInt64 <<< UInt64.ofNat 16) |||
            (b₃.toUInt64 <<< UInt64.ofNat 24) |||
            (b₄.toUInt64 <<< UInt64.ofNat 32) |||
            (b₅.toUInt64 <<< UInt64.ofNat 40) |||
            (b₆.toUInt64 <<< UInt64.ofNat 48) |||
            (b₇.toUInt64 <<< UInt64.ofNat 56) := rfl
      rw [hload, e₇, e₆, e₅, e₄, e₃, e₂, e₁, e₀]
      simp only [List.take_succ_cons, List.take_zero, leValue]
      omega

theorem get32_toNat {data : List UInt8} {off : ℕ}
    (hdata : off + 4 ≤ data.length) :
    (get32 data off).toNat = leValue ((data.drop off).take 4) := by
  have hbyte : ∀ i, data.getD (off + i) 0 = (data.drop off).getD i 0 := by
    intro i
    rw [List.getD_eq_getElem?_getD, List.getD_eq_getElem?_getD,
      List.getElem?_drop]
  have hzero := hbyte 0
  rw [Nat.add_zero] at hzero
  have hlength : 4 ≤ (data.drop off).length := by
    rw [List.length_drop]
    omega
  unfold get32
  rw [hzero, hbyte 1, hbyte 2, hbyte 3]
  generalize data.drop off = p at hlength
  match p, hlength with
  | b₀ :: b₁ :: b₂ :: b₃ :: rest, _ =>
      have h₀ := b₀.toNat_lt
      have h₁ := b₁.toNat_lt
      have h₂ := b₂.toNat_lt
      have e₀ : b₀.toUInt32.toNat = b₀.toNat := UInt8.toNat_toUInt32 b₀
      have e₁ := or_byte_toNat32 b₀.toUInt32 b₁ 8 (by norm_num) (by omega)
      have e₂ := or_byte_toNat32 _ b₂ 16 (by norm_num)
        (by rw [e₁]; omega)
      have e₃ := or_byte_toNat32 _ b₃ 24 (by norm_num)
        (by rw [e₂, e₁]; omega)
      have hload : ((b₀ :: b₁ :: b₂ :: b₃ :: rest).getD 0 0).toUInt32 |||
          (((b₀ :: b₁ :: b₂ :: b₃ :: rest).getD 1 0).toUInt32 <<< 8) |||
          (((b₀ :: b₁ :: b₂ :: b₃ :: rest).getD 2 0).toUInt32 <<< 16) |||
          (((b₀ :: b₁ :: b₂ :: b₃ :: rest).getD 3 0).toUInt32 <<< 24) =
          b₀.toUInt32 ||| (b₁.toUInt32 <<< UInt32.ofNat 8) |||
            (b₂.toUInt32 <<< UInt32.ofNat 16) |||
            (b₃.toUInt32 <<< UInt32.ofNat 24) := rfl
      rw [hload, e₃, e₂, e₁, e₀]
      simp only [List.take_succ_cons, List.take_zero, leValue]
      omega

/-- Probe `i` of a digest as the format documents it. -/
def probePosition (d : Sha1Digest) (m i : ℕ) : ℕ :=
  (leValue (d.bytes.take 8) + i * leValue ((d.bytes.drop 8).take 8)) %
    2 ^ 64 % m

theorem probeIndex_toNat (d : Sha1Digest) (m : UInt64) (i : UInt32) :
    (probeIndex (loadLe64 d.bytes) (loadLe64 (d.bytes.drop 8)) m i).toNat =
      probePosition d m.toNat i.toNat := by
  have hlength := d.length_eq
  have hdrop : 8 ≤ (d.bytes.drop 8).length := by
    rw [List.length_drop]
    omega
  unfold probeIndex probePosition
  rw [UInt64.toNat_mod, UInt64.toNat_add, UInt64.toNat_mul,
    loadLe64_toNat (by omega), loadLe64_toNat hdrop, UInt32.toNat_toUInt64,
    Nat.add_mod_mod]

theorem probePosition_lt (d : Sha1Digest) {m : ℕ} (hm : 0 < m) (i : ℕ) :
    probePosition d m i < m := Nat.mod_lt _ hm

theorem bitMask_eq (idx : UInt64) : bitMask idx = mask idx.toNat := by
  have hseven : UInt64.toNat 7 = 2 ^ 3 - 1 := rfl
  have hlow : (idx &&& 7).toUInt32.toNat % 32 = idx.toNat % 8 := by
    rw [UInt64.toNat_toUInt32, UInt64.toNat_and, hseven,
      Nat.and_two_pow_sub_one_eq_mod]
    omega
  have hone : UInt32.toNat 1 = 1 := rfl
  have hlt : 2 ^ (idx.toNat % 8) < 2 ^ 8 :=
    Nat.pow_lt_pow_right (by norm_num) (Nat.mod_lt _ (by norm_num))
  rw [← UInt8.toNat_inj, mask_toNat, bitMask, UInt32.toNat_toUInt8,
    UInt32.toNat_shiftLeft, hlow, hone, Nat.one_shiftLeft,
    Nat.mod_eq_of_lt (b := 2 ^ 32) (by omega), Nat.mod_eq_of_lt hlt]

theorem shiftRight_three_toNat (idx : UInt64) :
    (idx >>> 3).toNat = idx.toNat / 8 := by
  have hthree : UInt64.toNat 3 % 64 = 3 := rfl
  rw [UInt64.toNat_shiftRight, hthree, Nat.shiftRight_eq_div_pow]

theorem round_succ_toNat {i k : UInt32} (hi : i < k) :
    (i + 1).toNat = i.toNat + 1 := by
  have hlt : i.toNat < k.toNat := UInt32.lt_iff_toNat_lt.mp hi
  have hk := k.toNat_lt
  have hone : UInt32.toNat 1 = 1 := rfl
  rw [UInt32.toNat_add, hone]
  omega

end PwFilter
