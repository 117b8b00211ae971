import PwFilter.BreachBloom

/-!
# The Python builder and reader

`build_bloom.py` writes PWBLOOM1 files and `pwhibp_check.py` reads them, both
with unbounded integers.  A statement that raises ends the run with its
exception.
-/

namespace PwFilter

open ByteMemory ProbeFilter UnicodeText

inductive PyError where
  | indexError
  | zeroDivisionError
  | valueError (message : String)
  | structError
  deriving DecidableEq, Repr

/-- `MASK64` of both programs. -/
def mask64 : ℕ := (1 <<< 64) - 1

def pyMod (a b : ℕ) : Except PyError ℕ :=
  if b = 0 then .error .zeroDivisionError else .ok (a % b)

def pyByteAt (data : List UInt8) (i : ℕ) : Except PyError ℕ :=
  match data[i]? with
  | some b => .ok b.toNat
  | none => .error .indexError

def pyProbe (h1 h2 mBits i : ℕ) : Except PyError ℕ :=
  pyMod ((h1 + i * h2) &&& mask64) mBits

/-- The loop of both `maybe_contains`, with `left` rounds to go. -/
def pyProbeLoop (bits : List UInt8) (h1 h2 mBits : ℕ) :
    ℕ → ℕ → Except PyError Bool
  | 0, _ => .ok true
  | left + 1, i => do
      let idx ← pyProbe h1 h2 mBits i
      let byte ← pyByteAt bits (idx >>> 3)
      if byte &&& (1 <<< (idx &&& 7)) = 0 then .ok false
      else pyProbeLoop bits h1 h2 mBits left (i + 1)

/-! ## build_bloom.py -/

namespace BuildBloom

def magic : List UInt8 :=
  ['P', 'W', 'B', 'L', 'O', 'O', 'M', '1'].map fun c => UInt8.ofNat c.toNat

def version : ℕ := 1

def schemeSha1Le : ℕ := 1

def headerSize : ℕ := 64

def pyOrAt (bitset : List UInt8) (i value : ℕ) : Except PyError (List UInt8) := do
  let byte ← pyByteAt bitset i
  if byte ||| value < 256 then .ok (bitset.set i (UInt8.ofNat (byte ||| value)))
  else .error (.valueError "byte must be in range(0, 256)")

/-- The loop of `set_bits`, with `left` rounds to go. -/
def setBitsLoop (h1 h2 mBits : ℕ) :
    ℕ → ℕ → List UInt8 → Except PyError (List UInt8)
  | 0, _, bitset => .ok bitset
  | left + 1, i, bitset => do
      let idx ← pyProbe h1 h2 mBits i
      let bitset ← pyOrAt bitset (idx >>> 3) (1 <<< (idx &&& 7))
      setBitsLoop h1 h2 mBits left (i + 1) bitset

def setBits (bitset digest : List UInt8) (mBits k : ℕ) :
    Except PyError (List UInt8) :=
  let h1 := leValue (digest.take 8)
  let h2 := leValue ((digest.drop 8).take 8)
  setBitsLoop h1 h2 mBits k 0 bitset

def maybeContains (bitset digest : List UInt8) (mBits k : ℕ) :
    Except PyError Bool :=
  let h1 := leValue (digest.take 8)
  let h2 := leValue ((digest.drop 8).take 8)
  pyProbeLoop bitset h1 h2 mBits k 0

def packField (width value : ℕ) : Except PyError (List UInt8) :=
  if value < 256 ^ width then .ok (leBytes width value)
  else .error .structError

def packHeader (k mBits inserted : ℕ) : Except PyError (List UInt8) := do
  let versionField ← packField 4 version
  let kField ← packField 4 k
  let mField ← packField 8 mBits
  let nField ← packField 8 inserted
  let schemeField ← packField 4 schemeSha1Le
  .ok (magic ++ versionField ++ kField ++ mField ++ nField ++ schemeField ++
    List.replicate (headerSize - 36) 0)

def fillBitset (mBits k : ℕ) (digests : List (List UInt8)) :
    Except PyError (List UInt8) :=
  digests.foldlM (fun bitset digest => setBits bitset digest mBits k)
    (List.replicate (mBits / 8) 0)

def build (mBits k : ℕ) (digests : List (List UInt8)) :
    Except PyError (List UInt8) := do
  let bitset ← fillBitset mBits k digests
  let header ← packHeader k mBits digests.length
  .ok (header ++ bitset)

end BuildBloom

/-! ## pwhibp_check.py -/

structure LocalBloom where
  data : List UInt8
  k : ℕ
  m : ℕ
  bits : List UInt8

namespace LocalBloom

def bloomMagic : List UInt8 :=
  ['P', 'W', 'B', 'L', 'O', 'O', 'M', '1'].map fun c => UInt8.ofNat c.toNat

def bloomHeader : ℕ := 64

def load (data : List UInt8) : Except PyError LocalBloom :=
  if data.length < bloomHeader ∨ data.take 8 ≠ bloomMagic then
    .error (.valueError "not a PWBLOOM1 file")
  else
    let header := data.take 36
    let ver := imageField header 8 4
    let k := imageField header 12 4
    let m := imageField header 16 8
    let scheme := imageField header 32 4
    if ver ≠ 1 ∨ scheme ≠ 1 ∨ m % 8 ≠ 0 then
      .error (.valueError "unsupported bloom header")
    else if data.length ≠ bloomHeader + m / 8 then
      .error (.valueError "bloom size mismatch")
    else .ok { data := data, k := k, m := m, bits := data.drop bloomHeader }

def maybeContains (bloom : LocalBloom) (password : List Char) :
    Except PyError Bool :=
  let d := Fips180.sha1 (utf8 password)
  let h1 := leValue (d.take 8)
  let h2 := leValue ((d.drop 8).take 8)
  pyProbeLoop bloom.bits h1 h2 bloom.m bloom.k 0

end LocalBloom

/-! ## One round of a Python loop -/

theorem pyProbe_eq (d : Sha1Digest) {m : ℕ} (hm : 0 < m) (i : ℕ) :
    pyProbe (leValue (d.bytes.take 8)) (leValue ((d.bytes.drop 8).take 8)) m i =
      .ok (probePosition d m i) := by
  have hmask : mask64 = 2 ^ 64 - 1 := rfl
  rw [pyProbe, pyMod, if_neg (by omega), hmask, Nat.and_two_pow_sub_one_eq_mod]
  rfl

theorem pyMask_eq (idx : ℕ) : 1 <<< (idx &&& 7) = (mask idx).toNat := by
  have hseven : 7 = 2 ^ 3 - 1 := rfl
  rw [mask_toNat, hseven, Nat.and_two_pow_sub_one_eq_mod, Nat.one_shiftLeft]

theorem pyByteAt_eq {bits : List UInt8} {idx : ℕ}
    (hidx : idx < 8 * bits.length) :
    pyByteAt bits (idx >>> 3) = .ok (bits.getD (idx / 8) 0).toNat := by
  have hlt : idx / 8 < bits.length := by omega
  have hshift : idx >>> 3 = idx / 8 := Nat.shiftRight_eq_div_pow idx 3
  rw [pyByteAt, hshift, List.getD_eq_getElem?_getD,
    List.getElem?_eq_getElem hlt]
  rfl

theorem ok_bind {α β : Type} (a : α) (f : α → Except PyError β) :
    (Except.ok a >>= f) = f a := rfl

theorem pyProbeLoop_spec
    {bits : List UInt8} (d : Sha1Digest) {m : ℕ} (hm : 0 < m)
    (hsize : m ≤ 8 * bits.length) (left i : ℕ) :
    ∃ found,
      pyProbeLoop bits (leValue (d.bytes.take 8))
          (leValue ((d.bytes.drop 8).take 8)) m left i = .ok found ∧
        (found = true ↔ ∀ j, i ≤ j → j < i + left →
          bit bits (probePosition d m j) = true) := by
  induction left generalizing i with
  | zero =>
      refine ⟨true, rfl, ?_⟩
      simp only [true_iff]
      intro j hij hj
      omega
  | succ left ih =>
      have hlt := probePosition_lt d hm i
      have htest : (bits.getD (probePosition d m i / 8) 0).toNat &&&
          1 <<< (probePosition d m i &&& 7) = 0 ↔
            bit bits (probePosition d m i) = false := by
        have hzero : (0 : UInt8).toNat = 0 := rfl
        rw [pyMask_eq, ← UInt8.toNat_and, ← hzero, UInt8.toNat_inj,
          and_mask_eq_zero_iff, bit]
      rw [pyProbeLoop, pyProbe_eq d hm, ok_bind, pyByteAt_eq (by omega),
        ok_bind]
      cases hbit : bit bits (probePosition d m i) with
      | false =>
          refine ⟨false, if_pos (htest.mpr hbit), ?_⟩
          simp only [Bool.false_eq_true, false_iff, not_forall]
          exact ⟨i, le_rfl, by omega, by rw [hbit]; decide⟩
      | true =>
          have hgo := mt htest.mp (by rw [hbit]; decide)
          obtain ⟨found, hrun, hfound⟩ := ih (i + 1)
          refine ⟨found, (if_neg hgo).trans hrun, hfound.trans ?_⟩
          constructor
          · intro h j hij hj
            rcases Nat.eq_or_lt_of_le hij with heq | hgt
            · rw [← heq]
              exact hbit
            · exact h j hgt (by omega)
          · intro h j hij hj
            exact h j (by omega) (by omega)

/-! ## The builder -/

namespace BuildBloom

theorem pyOrAt_eq {bits : List UInt8} {idx : ℕ} (hidx : idx < 8 * bits.length) :
    pyOrAt bits (idx >>> 3) (1 <<< (idx &&& 7)) = .ok (setBit bits idx) := by
  have hlt : idx / 8 < bits.length := by omega
  have hshift : idx >>> 3 = idx / 8 := Nat.shiftRight_eq_div_pow idx 3
  have hbyte := (bits.getD (idx / 8) 0 ||| mask idx).toNat_lt
  rw [UInt8.toNat_or] at hbyte
  have hset : bits.set (idx / 8) (bits.getD (idx / 8) 0 ||| mask idx) =
      setBit bits idx := by
    rw [setBit, List.modify_eq_set, List.getD_eq_getElem?_getD,
      List.getElem?_eq_getElem hlt]
    rfl
  rw [pyOrAt, pyByteAt_eq hidx, ok_bind, pyMask_eq, if_pos hbyte,
    ← UInt8.toNat_or, UInt8.ofNat_toNat, hshift, hset]

theorem setBitsLoop_spec
    (d : Sha1Digest) {m : ℕ} (hm : 0 < m) (left i : ℕ) {bits : List UInt8}
    (hsize : m ≤ 8 * bits.length) :
    ∃ bits',
      setBitsLoop (leValue (d.bytes.take 8)) (leValue ((d.bytes.drop 8).take 8))
          m left i bits = .ok bits' ∧
        bits'.length = bits.length ∧
        ∀ j, bit bits' j = true ↔ bit bits j = true ∨
          ∃ r, i ≤ r ∧ r < i + left ∧ probePosition d m r = j := by
  induction left generalizing i bits with
  | zero =>
      refine ⟨bits, rfl, rfl, ?_⟩
      intro j
      constructor
      · exact Or.inl
      · intro h
        rcases h with hbit | ⟨r, hle, hr, _⟩
        · exact hbit
        · omega
  | succ left ih =>
      have hlt := probePosition_lt d hm i
      have hsize' : m ≤ 8 * (setBit bits (probePosition d m i)).length := by
        rw [setBit_length]
        exact hsize
      obtain ⟨bits', hrun, hlength, hbits⟩ := ih (i + 1) hsize'
      refine ⟨bits', ?_, by rw [hlength, setBit_length], ?_⟩
      · rw [setBitsLoop, pyProbe_eq d hm, ok_bind, pyOrAt_eq (by omega),
          ok_bind]
        exact hrun
      · intro j
        rw [hbits j, bit_setBit (by omega), Bool.or_eq_true, decide_eq_true_eq,
          or_assoc]
        refine or_congr_right ?_
        constructor
        · intro h
          rcases h with heq | ⟨r, hle, hr, hpos⟩
          · exact ⟨i, le_rfl, by omega, heq.symm⟩
          · exact ⟨r, by omega, by omega, hpos⟩
        · intro h
          obtain ⟨r, hle, hr, hpos⟩ := h
          rcases Nat.eq_or_lt_of_le hle with heq | hgt
          · rw [← heq] at hpos
            exact Or.inl hpos.symm
          · exact Or.inr ⟨r, hgt, by omega, hpos⟩

theorem setBits_spec
    (d : Sha1Digest) {m : ℕ} (hm : 0 < m) (k : ℕ) {bits : List UInt8}
    (hsize : m ≤ 8 * bits.length) :
    ∃ bits', setBits bits d.bytes m k = .ok bits' ∧
      bits'.length = bits.length ∧
      ∀ j, bit bits' j = true ↔ bit bits j = true ∨
        j ∈ BloomFilter.probes m k d := by
  obtain ⟨bits', hrun, hlength, hbits⟩ := setBitsLoop_spec d hm k 0 hsize
  refine ⟨bits', hrun, hlength, ?_⟩
  intro j
  rw [hbits j]
  refine or_congr_right ?_
  constructor
  · intro h
    obtain ⟨r, _, hr, hpos⟩ := h
    exact ⟨r, by omega, hpos⟩
  · intro h
    obtain ⟨r, hr, hpos⟩ := h
    exact ⟨r, Nat.zero_le r, by omega, hpos⟩

theorem foldlM_setBits_spec
    {m : ℕ} (hm : 0 < m) (k : ℕ) (ds : List Sha1Digest) {bits : List UInt8}
    (hsize : m ≤ 8 * bits.length) :
    ∃ bits',
      (ds.map Sha1Digest.bytes).foldlM (fun b digest => setBits b digest m k)
          bits = .ok bits' ∧
        bits'.length = bits.length ∧
        ∀ j, bit bits' j = true ↔ bit bits j = true ∨
          j ∈ marked (BloomFilter.probes m k) {d | d ∈ ds} := by
  induction ds generalizing bits with
  | nil =>
      refine ⟨bits, rfl, rfl, ?_⟩
      intro j
      simp [marked]
  | cons d ds ih =>
      obtain ⟨bits₁, hrun₁, hlength₁, hbits₁⟩ := setBits_spec d hm k hsize
      obtain ⟨bits₂, hrun₂, hlength₂, hbits₂⟩ :=
        ih (by rw [hlength₁]; exact hsize)
      refine ⟨bits₂, ?_, hlength₂.trans hlength₁, ?_⟩
      · rw [List.map_cons, List.foldlM_cons, hrun₁, ok_bind]
        exact hrun₂
      · intro j
        rw [hbits₂ j, hbits₁ j, or_assoc, mem_marked_cons]

theorem maybeContains_spec
    (q : Sha1Digest) {m : ℕ} (hm : 0 < m) (k : ℕ) (bits : List UInt8)
    (hsize : m ≤ 8 * bits.length) :
    ∃ found, maybeContains bits q.bytes m k = .ok found ∧
      (found = true ↔ ∀ j ∈ BloomFilter.probes m k q, bit bits j = true) := by
  obtain ⟨found, hrun, hfound⟩ := pyProbeLoop_spec q hm hsize k 0
  refine ⟨found, hrun, hfound.trans ?_⟩
  constructor
  · intro h j hj
    obtain ⟨i, hi, rfl⟩ := hj
    exact h i (Nat.zero_le i) (by omega)
  · intro h i _ hi
    exact h _ ⟨i, by omega, rfl⟩

theorem packHeader_eq
    {k m : ℕ} (n : ℕ) (hk : k < 256 ^ 4) (hm : m < 256 ^ 8) :
    packHeader k m n =
      if n < 256 ^ 8 then
        .ok (BloomBuilder.headerFields k m n ++ List.replicate 28 0)
      else .error .structError := by
  have hversion : version < 256 ^ 4 := by norm_num [version]
  have hscheme : schemeSha1Le < 256 ^ 4 := by norm_num [schemeSha1Le]
  simp only [packHeader, packField, if_pos hversion, if_pos hk, if_pos hm,
    if_pos hscheme, ok_bind]
  split
  · rfl
  · rfl

end BuildBloom

theorem BloomBuilder.withParams_eq
    {m k : ℕ} (hm : 0 < m) (hdvd : m % 8 = 0) (hmax : m < 2 ^ 64)
    (hk : 0 < k) (hkmax : k < 2 ^ 32) :
    (withParams (UInt64.ofNat m) (UInt32.ofNat k)).m.toNat = m ∧
      (withParams (UInt64.ofNat m) (UInt32.ofNat k)).k.toNat = k := by
  have hmnat : (UInt64.ofNat m).toNat = m := by
    rw [UInt64.toNat_ofNat', Nat.mod_eq_of_lt hmax]
  have hknat : (UInt32.ofNat k).toNat = k := by
    rw [UInt32.toNat_ofNat', Nat.mod_eq_of_lt hkmax]
  have hone : UInt32.toNat 1 = 1 := rfl
  constructor
  · have hfield : (withParams (UInt64.ofNat m) (UInt32.ofNat k)).m =
        roundUpTo8 (UInt64.ofNat m) := rfl
    rw [hfield, roundUpTo8_toNat (by omega), hmnat]
    omega
  · have hfield : (withParams (UInt64.ofNat m) (UInt32.ofNat k)).k =
        if UInt32.ofNat k < 1 then 1 else UInt32.ofNat k := rfl
    have hge : ¬ UInt32.ofNat k < 1 := by
      intro h
      have hnat := UInt32.lt_iff_toNat_lt.mp h
      omega
    rw [hfield, if_neg hge, hknat]

theorem BloomBuilder.withParams_ofNat_sound
    {m k : ℕ} (hm : 0 < m) (hdvd : m % 8 = 0) (hmax : m < 2 ^ 64)
    (hk : 0 < k) (hkmax : k < 2 ^ 32) :
    (withParams (UInt64.ofNat m) (UInt32.ofNat k)).Sound := by
  obtain ⟨hmb, _⟩ := withParams_eq hm hdvd hmax hk hkmax
  exact withParams_sound _ (by rw [hmb]; exact hm)

theorem BloomBuilder.addAll_n_toNat
    (mBits : UInt64) {k : UInt32} (hsound : (withParams mBits k).Sound)
    {ds : List Sha1Digest} (hcount : ds.length < 2 ^ 64) :
    ((withParams mBits k).addAll ds).n.toNat = ds.length := by
  have hzero : (withParams mBits k).n = 0 := rfl
  obtain ⟨_, _, _, hn, _⟩ := addAll_spec hsound ds
  rw [hn, hzero, UInt64.zero_add, UInt64.toNat_ofNat', Nat.mod_eq_of_lt hcount]

theorem BuildBloom.fillBitset_eq
    {m k : ℕ} (hm : 0 < m) (hdvd : m % 8 = 0) (hmax : m < 2 ^ 64)
    (hk : 0 < k) (hkmax : k < 2 ^ 32) (ds : List Sha1Digest) :
    BuildBloom.fillBitset m k (ds.map Sha1Digest.bytes) =
      .ok ((BloomBuilder.withParams (UInt64.ofNat m)
        (UInt32.ofNat k)).addAll ds).bitset := by
  obtain ⟨hmb, hkb⟩ := BloomBuilder.withParams_eq hm hdvd hmax hk hkmax
  have hsound := BloomBuilder.withParams_ofNat_sound hm hdvd hmax hk hkmax
  obtain ⟨hsound', hm', _, _, hmarks⟩ := BloomBuilder.addAll_spec hsound ds
  have hsize : m ≤ 8 * (List.replicate (m / 8) (0 : UInt8)).length := by
    rw [List.length_replicate]
    omega
  obtain ⟨bits, hrun, hlength, hbits⟩ :=
    foldlM_setBits_spec hm k ds hsize
  have hsame : bits = ((BloomBuilder.withParams (UInt64.ofNat m)
      (UInt32.ofNat k)).addAll ds).bitset := by
    apply ext_bit
    · rw [hlength, hsound'.size, hm', hmb, List.length_replicate]
    · intro j
      rw [Bool.eq_iff_iff, hbits j, hmarks j, hmb, hkb, bit_replicate_zero,
        BloomBuilder.withParams_bit]
  rw [fillBitset, hrun, hsame]

/-- What the C++ builder serializes is the packed header and the bits. -/
theorem BuildBloom.serialize_addAll
    {m k : ℕ} (hm : 0 < m) (hdvd : m % 8 = 0) (hmax : m < 2 ^ 64)
    (hk : 0 < k) (hkmax : k < 2 ^ 32) {ds : List Sha1Digest}
    (hcount : ds.length < 2 ^ 64) :
    ((BloomBuilder.withParams (UInt64.ofNat m)
        (UInt32.ofNat k)).addAll ds).serialize =
      BloomBuilder.headerFields k m ds.length ++ List.replicate 28 0 ++
        ((BloomBuilder.withParams (UInt64.ofNat m)
          (UInt32.ofNat k)).addAll ds).bitset := by
  obtain ⟨hmb, hkb⟩ := BloomBuilder.withParams_eq hm hdvd hmax hk hkmax
  have hsound := BloomBuilder.withParams_ofNat_sound hm hdvd hmax hk hkmax
  obtain ⟨_, hm', hk', _, _⟩ := BloomBuilder.addAll_spec hsound ds
  rw [BloomBuilder.serialize_eq, hm', hk',
    BloomBuilder.addAll_n_toNat _ hsound hcount, hmb, hkb]

/-- `build_bloom.py` writes the bytes the C++ builder serializes, as long as
the count of digests fits its header field, and both probe loops answer alike
over the result. -/
theorem python_builder_matches
    {m k : ℕ} (hm : 0 < m) (hdvd : m % 8 = 0) (hmax : m < 2 ^ 64)
    (hk : 1 ≤ k) (hkmax : k ≤ 64) (ds : List Sha1Digest) :
    (BuildBloom.build m k (ds.map Sha1Digest.bytes) =
      if ds.length < 2 ^ 64 then
        .ok ((BloomBuilder.withParams (UInt64.ofNat m)
          (UInt32.ofNat k)).addAll ds).serialize
      else .error .structError) ∧
      ∃ bits bf,
        BuildBloom.fillBitset m k (ds.map Sha1Digest.bytes) = .ok bits ∧
          BloomFilter.fromMemory (some ((BloomBuilder.withParams
            (UInt64.ofNat m) (UInt32.ofNat k)).addAll ds).serialize) =
              some bf ∧
          ∀ q : Sha1Digest, BuildBloom.maybeContains bits q.bytes m k =
            .ok (bf.maybeContains q) := by
  have hfill := BuildBloom.fillBitset_eq hm hdvd hmax hk (by omega) ds
  have hkmax' : k < 2 ^ 32 := by omega
  obtain ⟨hmb, hkb⟩ := BloomBuilder.withParams_eq hm hdvd hmax hk hkmax'
  have hsound := BloomBuilder.withParams_ofNat_sound hm hdvd hmax hk hkmax'
  obtain ⟨hsound', hm', hk', _, _⟩ := BloomBuilder.addAll_spec hsound ds
  constructor
  · rw [BuildBloom.build, hfill, ok_bind, List.length_map,
      BuildBloom.packHeader_eq ds.length (by omega) (by omega)]
    by_cases hcount : ds.length < 2 ^ 64
    · rw [if_pos (show ds.length < 256 ^ 8 by omega), if_pos hcount, ok_bind,
        BuildBloom.serialize_addAll hm hdvd hmax hk (by omega) hcount]
    · rw [if_neg (show ¬ ds.length < 256 ^ 8 by omega), if_neg hcount]
      rfl
  · obtain ⟨bf, hread, hmbf, hkbf, _, hbf⟩ := hsound'.fromMemory
    refine ⟨_, bf, hfill, hread, ?_⟩
    intro q
    have hsize : m ≤ 8 * ((BloomBuilder.withParams (UInt64.ofNat m)
        (UInt32.ofNat k)).addAll ds).bitset.length := by
      rw [hsound'.size, hm', hmb]
      omega
    obtain ⟨found, hrun, hfound⟩ :=
      BuildBloom.maybeContains_spec q hm k _ hsize
    have hsame : found = bf.maybeContains q := by
      rw [Bool.eq_iff_iff, hfound, BloomFilter.maybeContains_iff, hmbf, hkbf,
        hm', hk', hmb, hkb, hbf]
    rw [hrun, hsame]

theorem python_builder_matches_sample :
    BuildBloom.build 64 7
        [List.replicate 20 255, List.replicate 20 3, List.replicate 20 255] =
      .ok ((BloomBuilder.withParams 64 7).addAll
        [⟨List.replicate 20 255, rfl⟩, ⟨List.replicate 20 3, rfl⟩,
          ⟨List.replicate 20 255, rfl⟩]).serialize := by
  have hbuilt := (python_builder_matches (m := 64) (k := 7) (by norm_num)
    (by norm_num) (by norm_num) (by norm_num) (by norm_num)
    [⟨List.replicate 20 255, rfl⟩, ⟨List.replicate 20 3, rfl⟩,
      ⟨List.replicate 20 255, rfl⟩]).1
  rw [if_pos (by norm_num)] at hbuilt
  exact hbuilt

/-! ## The admin tool's reader -/

/-- Both programs spell the magic of the C++ core. -/
theorem magic_eq :
    BuildBloom.magic = kBloomMagic ∧ LocalBloom.bloomMagic = kBloomMagic :=
  ⟨rfl, rfl⟩

structure LocalHeader (data : List UInt8) : Prop where
  header : 64 ≤ data.length
  magic : data.take 8 = LocalBloom.bloomMagic
  version : imageField data 8 4 = 1
  scheme : imageField data 32 4 = 1
  m_dvd : imageField data 16 8 % 8 = 0
  size : data.length = 64 + imageField data 16 8 / 8

theorem wellFormedImage_iff (data : List UInt8) :
    WellFormedImage data ↔ LocalHeader data ∧ 0 < imageField data 16 8 ∧
      0 < imageField data 12 4 := by
  constructor
  · intro h
    exact ⟨⟨h.header, h.magic.trans magic_eq.2.symm, h.version, h.scheme,
      h.m_dvd, h.size⟩, h.m_pos, h.k_pos⟩
  · intro h
    obtain ⟨hlocal, hm, hk⟩ := h
    exact ⟨hlocal.header, hlocal.magic.trans magic_eq.2, hlocal.version,
      hlocal.scheme, hm, hlocal.m_dvd, hk, hlocal.size⟩

theorem imageField_take
    (data : List UInt8) {off width : ℕ} (hfield : off + width ≤ 36) :
    imageField (data.take 36) off width = imageField data off width := by
  rw [imageField, imageField, List.drop_take, List.take_take,
    Nat.min_eq_left (by omega)]

namespace LocalBloom

theorem load_ok_iff (data : List UInt8) (lb : LocalBloom) :
    load data = .ok lb ↔ LocalHeader data ∧
      lb = { data := data
             k := imageField data 12 4
             m := imageField data 16 8
             bits := data.drop bloomHeader } := by
  have hsize : bloomHeader = 64 := rfl
  simp only [load]
  rw [imageField_take data (by norm_num), imageField_take data (by norm_num),
    imageField_take data (by norm_num), imageField_take data (by norm_num)]
  constructor
  · intro h
    split at h
    · cases h
    · rename_i hfront
      split at h
      · cases h
      · rename_i hfields
        split at h
        · cases h
        · rename_i hlength
          rw [not_or, not_lt, hsize, not_not] at hfront
          rw [not_or, not_or, not_not, not_not, not_not] at hfields
          rw [not_not, hsize] at hlength
          obtain ⟨hversion, hscheme, hdvd⟩ := hfields
          exact ⟨⟨hfront.1, hfront.2, hversion, hscheme, hdvd, hlength⟩,
            (Except.ok.inj h).symm⟩
  · intro h
    obtain ⟨hlocal, rfl⟩ := h
    have hlong := hlocal.header
    rw [if_neg, if_neg, if_neg]
    · exact not_not.mpr hlocal.size
    · rw [not_or, not_or, not_not, not_not, not_not]
      exact ⟨hlocal.version, hlocal.scheme, hlocal.m_dvd⟩
    · rw [not_or, not_lt, not_not]
      exact ⟨hlong, hlocal.magic⟩

end LocalBloom

/-- The two readers accept the same files, and give the same answer for every
password that fits the buffer. -/
def ReadersAgree (data : List UInt8) : Prop :=
  ((∃ lb, LocalBloom.load data = .ok lb) ↔
    ∃ bf, BloomFilter.fromMemory (some data) = some bf) ∧
  ∀ lb bf, LocalBloom.load data = .ok lb →
    BloomFilter.fromMemory (some data) = some bf →
    ∀ text stack shaMemory, (utf8 text).length ≤ kMaxUtf8 →
      lb.maybeContains text =
        .ok (BloomBreachChecker.isBreached bf stack shaMemory (utf16 text))

theorem fromMemory_isSome_iff (data : List UInt8) :
    (∃ bf, BloomFilter.fromMemory (some data) = some bf) ↔
      WellFormedImage data := by
  constructor
  · intro h
    obtain ⟨bf, hread⟩ := h
    exact (BloomFilter.fromMemory_some hread).1
  · exact BloomFilter.fromMemory_wellFormed

theorem load_isOk_iff (data : List UInt8) :
    (∃ lb, LocalBloom.load data = .ok lb) ↔ LocalHeader data := by
  constructor
  · intro h
    obtain ⟨lb, hload⟩ := h
    exact ((LocalBloom.load_ok_iff data lb).mp hload).1
  · intro hlocal
    exact ⟨_, (LocalBloom.load_ok_iff data _).mpr ⟨hlocal, rfl⟩⟩

/-- Over a file that both read, the admin tool looks up the digest as the
filter does. -/
theorem LocalBloom.maybeContains_eq
    {data : List UInt8} {lb : LocalBloom} {bf : BloomFilter}
    (hload : LocalBloom.load data = .ok lb)
    (hread : BloomFilter.fromMemory (some data) = some bf)
    (text : List Char) :
    lb.maybeContains text = .ok (bf.maybeContains (sha1Value (utf8 text))) := by
  obtain ⟨hlocal, rfl⟩ := (LocalBloom.load_ok_iff data lb).mp hload
  obtain ⟨hdata, himage, hm, hk, _⟩ := BloomFilter.fromMemory_some hread
  have hbits : bf.bitset = data.drop LocalBloom.bloomHeader := by
    rw [BloomFilter.bitset, himage]
    rfl
  have hlength := bf.bitset_length
  have hdvd := hdata.m_dvd
  rw [hbits, hm] at hlength
  obtain ⟨found, hrun, hfound⟩ :=
    BuildBloom.maybeContains_spec (sha1Value (utf8 text)) hdata.m_pos
      (imageField data 12 4) (data.drop LocalBloom.bloomHeader) (by omega)
  have hsame : found = bf.maybeContains (sha1Value (utf8 text)) := by
    rw [Bool.eq_iff_iff, hfound, BloomFilter.maybeContains_iff, hm, hk, hbits]
  rw [← hsame]
  exact hrun

theorem answers_agree
    {data : List UInt8} {lb : LocalBloom} {bf : BloomFilter}
    (hload : LocalBloom.load data = .ok lb)
    (hread : BloomFilter.fromMemory (some data) = some bf)
    {text : List Char} (stack : Vector UInt8 4096)
    (shaMemory : Vector UInt8 64) (hfit : (utf8 text).length ≤ kMaxUtf8) :
    lb.maybeContains text =
      .ok (BloomBreachChecker.isBreached bf stack shaMemory (utf16 text)) := by
  rw [LocalBloom.maybeContains_eq hload hread, BloomBreachChecker.isBreached_eq,
    passwordBytes, decodeUtf16_utf16, decide_eq_true hfit, Bool.true_and]

theorem LocalHeader.not_readersAgree
    {data : List UInt8} (hlocal : LocalHeader data)
    (hzero : imageField data 12 4 = 0 ∨ imageField data 16 8 = 0) :
    ¬ ReadersAgree data := by
  intro hagree
  have hread := hagree.1.mp ((load_isOk_iff data).mpr hlocal)
  have hdata := (fromMemory_isSome_iff data).mp hread
  have hm := hdata.m_pos
  have hk := hdata.k_pos
  rcases hzero with h | h
  · omega
  · omega

/-- The readers agree on a file unless it has a valid header of the right
size in which `k` or `m` is zero. -/
theorem readers_agree_iff (data : List UInt8) :
    ReadersAgree data ↔
      ¬ (LocalHeader data ∧
        (imageField data 12 4 = 0 ∨ imageField data 16 8 = 0)) := by
  constructor
  · intro hagree hbad
    exact hbad.1.not_readersAgree hbad.2 hagree
  · intro hgood
    refine ⟨?_, ?_⟩
    · rw [load_isOk_iff, fromMemory_isSome_iff, wellFormedImage_iff]
      constructor
      · intro hlocal
        refine ⟨hlocal, ?_, ?_⟩
        · apply Nat.pos_of_ne_zero
          intro hm
          exact hgood ⟨hlocal, Or.inr hm⟩
        · apply Nat.pos_of_ne_zero
          intro hk
          exact hgood ⟨hlocal, Or.inl hk⟩
      · intro h
        exact h.1
    · intro lb bf hload hread text stack shaMemory hfit
      exact answers_agree hload hread stack shaMemory hfit

/-- An empty filter of eight bits with no probe rounds. -/
theorem readers_disagree_on_zero_rounds :
    ¬ ReadersAgree (BloomBuilder.headerFields 0 8 0 ++
      List.replicate 28 0 ++ [0]) := by
  obtain ⟨hlength, hmagic, _, hversion, hk, hm, _, hscheme⟩ :=
    layout_fields (k := 0) (m := 8) (n := 0) [0] (by norm_num) (by norm_num)
      (by norm_num) _ rfl
  apply LocalHeader.not_readersAgree
  · refine ⟨by omega, hmagic, hversion, hscheme, ?_, ?_⟩
    · rw [hm]
    · rw [hlength, hm]
      rfl
  · exact Or.inl hk

end PwFilter
