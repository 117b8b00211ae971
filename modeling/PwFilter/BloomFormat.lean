import PwFilter.BloomRoundTrip

/-!
# The image format

Reading and writing images are inverse to each other: a built image is read
back with the builder's parameters and bits, and whatever the reader accepts
is written again byte for byte, the reserved bytes apart.  The bits of a built
image are exactly the probe positions of the digests added.
-/

namespace PwFilter

open ByteMemory ProbeFilter

/-! ## Writing again what was read -/

/-- What `Serialize` writes for the fields of a filter. -/
def BloomFilter.reencode (bf : BloomFilter) : List UInt8 :=
  BloomBuilder.serialize
    { bitset := bf.bitset, m := bf.m, k := bf.k, n := bf.n }

theorem leBytes_imageField
    {data : List UInt8} {off w : ℕ} (hdata : off + w ≤ data.length) :
    leBytes w (imageField data off w) = (data.drop off).take w := by
  have hlength : ((data.drop off).take w).length = w := by
    rw [List.length_take, List.length_drop]
    omega
  have hbytes := leBytes_leValue ((data.drop off).take w)
  rwa [hlength] at hbytes

theorem wellFormedImage_header
    {data : List UInt8} (hdata : WellFormedImage data) :
    BloomBuilder.headerFields (imageField data 12 4) (imageField data 16 8)
      (imageField data 24 8) = data.take 36 := by
  have hlong := hdata.header
  have hfields : data.take (8 + (4 + (4 + (8 + (8 + 4))))) =
      data.take 8 ++ ((data.drop 8).take 4 ++ ((data.drop 12).take 4 ++
        ((data.drop 16).take 8 ++ ((data.drop 24).take 8 ++
          (data.drop 32).take 4)))) := by
    rw [List.take_add, List.take_add, List.take_add, List.take_add,
      List.take_add, List.drop_drop, List.drop_drop, List.drop_drop,
      List.drop_drop]
  have hversion := leBytes_imageField
    (show 8 + 4 ≤ data.length by omega)
  have hscheme := leBytes_imageField
    (show 32 + 4 ≤ data.length by omega)
  rw [hdata.version] at hversion
  rw [hdata.scheme] at hscheme
  refine Eq.trans ?_ hfields.symm
  rw [BloomBuilder.headerFields, hdata.magic, ← hversion, ← hscheme,
    ← leBytes_imageField (show 12 + 4 ≤ data.length by omega),
    ← leBytes_imageField (show 16 + 8 ≤ data.length by omega),
    ← leBytes_imageField (show 24 + 8 ≤ data.length by omega)]
  simp only [List.append_assoc]

theorem reencode_eq
    {data : List UInt8} {bf : BloomFilter}
    (hread : BloomFilter.fromMemory (some data) = some bf) :
    bf.reencode =
      data.take 36 ++ List.replicate 28 0 ++ data.drop kBloomHeaderSize := by
  obtain ⟨hdata, himage, hm, hk, hn⟩ := BloomFilter.fromMemory_some hread
  rw [BloomFilter.reencode, BloomBuilder.serialize_eq]
  simp only [hm, hk, hn]
  rw [wellFormedImage_header hdata, BloomFilter.bitset, himage]

theorem reencode_getElem?
    {data : List UInt8} {bf : BloomFilter}
    (hread : BloomFilter.fromMemory (some data) = some bf) {i : ℕ}
    (hi : i < 36 ∨ 64 ≤ i) : bf.reencode[i]? = data[i]? := by
  have hlong := (BloomFilter.fromMemory_some hread).1.header
  have hheader : (data.take 36).length = 36 := by
    rw [List.length_take]
    omega
  have hfront : (data.take 36 ++ List.replicate 28 (0 : UInt8)).length =
      64 := by
    rw [List.length_append, hheader, List.length_replicate]
  rw [reencode_eq hread]
  rcases hi with hlow | hhigh
  · rw [List.getElem?_append_left (by omega),
      List.getElem?_append_left (by omega), List.getElem?_take_of_lt hlow]
  · rw [List.getElem?_append_right (by omega), hfront, kBloomHeaderSize,
      List.getElem?_drop]
    congr 1
    omega

/-- Decoding undoes encoding, exactly the well-formed images are accepted, and
encoding undoes decoding outside the reserved bytes. -/
theorem pwbloom_round_trip :
    (∀ (mBits : UInt64) (k : UInt32) (ds : List Sha1Digest),
      mBits.toNat ≤ 2 ^ 64 - 8 →
        ∃ bf, BloomFilter.fromMemory
            (some ((BloomBuilder.withParams mBits k).addAll ds).serialize) =
              some bf ∧
          bf.m = ((BloomBuilder.withParams mBits k).addAll ds).m ∧
          bf.k = ((BloomBuilder.withParams mBits k).addAll ds).k ∧
          bf.n = ((BloomBuilder.withParams mBits k).addAll ds).n ∧
          bf.bitset = ((BloomBuilder.withParams mBits k).addAll ds).bitset) ∧
      ∀ img : List UInt8,
        ((∃ bf, BloomFilter.fromMemory (some img) = some bf) ↔
            64 ≤ img.length ∧ img.take 8 = kBloomMagic ∧
              imageField img 8 4 = 1 ∧ imageField img 32 4 = 1 ∧
              1 ≤ imageField img 12 4 ∧ 0 < imageField img 16 8 ∧
              imageField img 16 8 % 8 = 0 ∧
              img.length = 64 + imageField img 16 8 / 8) ∧
          ∀ bf, BloomFilter.fromMemory (some img) = some bf →
            ∀ i, ¬ (36 ≤ i ∧ i ≤ 63) → bf.reencode[i]? = img[i]? := by
  refine ⟨?_, ?_⟩
  · intro mBits k ds hbits
    have hsound := BloomBuilder.withParams_sound k
      (BloomBuilder.withParams_m_pos k hbits)
    exact (BloomBuilder.addAll_spec hsound ds).1.fromMemory
  · intro img
    refine ⟨⟨?_, ?_⟩, ?_⟩
    · intro h
      obtain ⟨bf, hread⟩ := h
      have hdata := (BloomFilter.fromMemory_some hread).1
      exact ⟨hdata.header, hdata.magic, hdata.version, hdata.scheme,
        hdata.k_pos, hdata.m_pos, hdata.m_dvd, hdata.size⟩
    · intro h
      obtain ⟨hheader, hmagic, hversion, hscheme, hk, hm, hdvd, hsize⟩ := h
      exact BloomFilter.fromMemory_wellFormed
        ⟨hheader, hmagic, hversion, hscheme, hm, hdvd, hk, hsize⟩
    · intro bf hread i hi
      apply reencode_getElem? hread
      omega

/-! ## Exact membership -/

theorem BloomBuilder.withParams_k {k : UInt32} (mBits : UInt64) (hk : 1 ≤ k) :
    (withParams mBits k).k = k := by
  have hfield : (withParams mBits k).k = if k < 1 then 1 else k := rfl
  rw [hfield, if_neg (UInt32.not_lt.mpr hk)]

/-- The bits of a built image are the probe positions of the digests added,
and the filter read from it reports a digest when all its positions are among
them. -/
theorem bloom_membership_exact
    (mBits : UInt64) (k : UInt32) (ds : List Sha1Digest)
    (hbits : mBits.toNat ≤ 2 ^ 64 - 8) (hk : 1 ≤ k) :
    ∃ (m : ℕ) (bf : BloomFilter), m = (roundUpTo8 mBits).toNat ∧
      BloomFilter.fromMemory
          (some ((BloomBuilder.withParams mBits k).addAll ds).serialize) =
        some bf ∧
      (∀ j < m,
        bit (((BloomBuilder.withParams mBits k).addAll ds).serialize.drop
            kBloomHeaderSize) j = true ↔
          ∃ d ∈ ds, ∃ i < k.toNat, probePosition d m i = j) ∧
      (∀ q, bf.maybeContains q = true ↔
        ∀ i < k.toNat, ∃ d ∈ ds, ∃ i' < k.toNat,
          probePosition d m i' = probePosition q m i) ∧
      (∀ q ∈ ds, bf.maybeContains q = true) ∧
      (ds = [] → ∀ q, bf.maybeContains q = false) := by
  have hm : (BloomBuilder.withParams mBits k).m = roundUpTo8 mBits := rfl
  have hkfield := BloomBuilder.withParams_k mBits hk
  have hsound := BloomBuilder.withParams_sound k
    (BloomBuilder.withParams_m_pos k hbits)
  obtain ⟨hsound', _, _, _, hmarks⟩ := BloomBuilder.addAll_spec hsound ds
  obtain ⟨bf, hread, _, _, _, hbitset⟩ := hsound'.fromMemory
  have himage := (BloomFilter.fromMemory_some hread).2.1
  have hmember : ∀ q, bf.maybeContains q = true ↔
      ∀ i < k.toNat, ∃ d ∈ ds, ∃ i' < k.toNat,
        probePosition d (roundUpTo8 mBits).toNat i' =
          probePosition q (roundUpTo8 mBits).toNat i := by
    intro q
    rw [maybeContains_built_iff hread, hm, hkfield]
    constructor
    · intro h i hi
      obtain ⟨d, hd, i', hi', hsame⟩ := h ⟨i, hi, rfl⟩
      exact ⟨d, hd, i', hi', hsame⟩
    · intro h j hj
      obtain ⟨i, hi, rfl⟩ := hj
      obtain ⟨d, hd, i', hi', hsame⟩ := h i hi
      exact ⟨d, hd, i', hi', hsame⟩
  refine ⟨_, bf, rfl, hread, ?_, hmember, ?_, ?_⟩
  · intro j _
    have hbits : (((BloomBuilder.withParams mBits k).addAll ds).serialize.drop
        kBloomHeaderSize) =
          ((BloomBuilder.withParams mBits k).addAll ds).bitset := by
      rw [← hbitset, BloomFilter.bitset, himage]
    rw [hbits, hmarks j, BloomBuilder.withParams_bit, hm, hkfield]
    simp only [Bool.false_eq_true, false_or]
    rfl
  · intro q hq
    exact (hmember q).mpr fun i hi => ⟨q, hq, i, hi, rfl⟩
  · intro hempty q
    have hpos : 0 < k.toNat := UInt32.le_iff_toNat_le.mp hk
    rw [Bool.eq_false_iff]
    intro hq
    obtain ⟨d, hd, _⟩ := (hmember q).mp hq 0 hpos
    rw [hempty] at hd
    cases hd

/-- A digest of twenty equal bytes; its probes are the multiples of `b`. -/
def constantDigest (b : UInt8) : Sha1Digest := ⟨List.replicate 20 b, rfl⟩

/-- Two digests set the bits 1, 2, 3 and 8, 16, 24; the third digest asked for
has its first probe among them, not its second. -/
theorem bloom_membership_exact_sample :
    ∃ bf : BloomFilter, BloomFilter.fromMemory
        (some ((BloomBuilder.withParams 64 3).addAll
          [constantDigest 1, constantDigest 8]).serialize) = some bf ∧
      bf.maybeContains (constantDigest 1) = true ∧
      bf.maybeContains (constantDigest 8) = true ∧
      bf.maybeContains (constantDigest 2) = false := by
  obtain ⟨m, bf, hm, hread, _, hmember, hadded, _⟩ :=
    bloom_membership_exact 64 3 [constantDigest 1, constantDigest 8] (by decide)
      (by decide)
  have hmiss : ¬ ∀ i < 3, ∃ d ∈ [constantDigest 1, constantDigest 8], ∃ i' < 3,
      probePosition d 64 i' = probePosition (constantDigest 2) 64 i := by
    decide
  refine ⟨bf, hread, hadded _ List.mem_cons_self,
    hadded _ (List.mem_cons_of_mem _ List.mem_cons_self), ?_⟩
  rw [Bool.eq_false_iff, ne_eq, hmember, hm]
  exact hmiss

/-! ## Which explicit parameters are safe -/

namespace BloomBuilder

/-- The parameters are the rounded ones, with a bit array of their size. -/
structure Rounded (mBits : UInt64) (b : BloomBuilder) : Prop where
  m_dvd : b.m.toNat % 8 = 0
  m_ge : max 8 mBits.toNat ≤ b.m.toNat
  k_ge : 1 ≤ b.k
  size : b.bitset.length = b.m.toNat / 8

/-- Adding `d` divides by something and stays in the bit array. -/
def AddSafe (b : BloomBuilder) (d : Sha1Digest) : Prop :=
  ∃ bitset log, b.addRun d = some (bitset, log) ∧
    ∀ a ∈ log, a.modulus ≠ 0 ∧ a.offset < b.bitset.length

theorem Sound.addSafe {b : BloomBuilder} (hb : b.Sound) (d : Sha1Digest) :
    b.AddSafe d := by
  have hzero : UInt32.toNat 0 = 0 := rfl
  obtain ⟨bits, log, hrun, _, _, hlog⟩ :=
    addLoop_spec b.m b.k d hb.m_pos hb.m_dvd (b.k.toNat + 1) 0 b.bitset hb.size
      (by omega) (by omega)
  refine ⟨bits, log, hrun, ?_⟩
  intro a ha
  obtain ⟨hmodulus, hoffset⟩ := hlog a ha
  refine ⟨?_, hoffset⟩
  intro h
  rw [h] at hmodulus
  exact hmodulus rfl

theorem Sound.rounded
    {b : BloomBuilder} {mBits : UInt64} (hb : b.Sound)
    (hm : b.m = roundUpTo8 mBits) (hbits : mBits.toNat ≤ 2 ^ 64 - 8) :
    Rounded mBits b := by
  refine ⟨hb.m_dvd, ?_, UInt32.le_iff_toNat_le.mpr hb.k_pos, hb.size⟩
  rw [hm, roundUpTo8_toNat hbits]
  omega

/-- A multiple of eight that is at least `mBits` must exist in 64 bits. -/
theorem Rounded.le {b : BloomBuilder} {mBits : UInt64} (hb : Rounded mBits b) :
    mBits.toNat ≤ 2 ^ 64 - 8 := by
  have hdvd := hb.m_dvd
  have hge := hb.m_ge
  have hlt := b.m.toNat_lt
  omega

/-- Any number of additions to a builder with explicit parameters is safe
exactly when rounding the number of bits up to whole bytes does not wrap. -/
theorem withParams_safe_iff (mBits : UInt64) (k : UInt32) :
    (∀ ds, Rounded mBits ((withParams mBits k).addAll ds) ∧
      ∀ d, ((withParams mBits k).addAll ds).AddSafe d) ↔
      mBits.toNat ≤ 2 ^ 64 - 8 := by
  constructor
  · intro h
    exact (h []).1.le
  · intro hbits ds
    have hsound := withParams_sound k (withParams_m_pos k hbits)
    have hadded := (addAll_spec hsound ds).1
    exact ⟨hadded.rounded (addAll_m _ ds) hbits, hadded.addSafe⟩

/-- With a modulus of zero the first round of `Add` already divides by it. -/
theorem not_addSafe
    {b : BloomBuilder} (hm : b.m = 0) (hk : 0 < b.k) (d : Sha1Digest) :
    ¬ b.AddSafe d := by
  rintro ⟨bits, log, hrun, hlog⟩
  simp only [addRun, addLoop, hk, if_true, hm, Option.map_eq_some_iff,
    Prod.mk.injEq] at hrun
  obtain ⟨_, _, _, rfl⟩ := hrun
  exact (hlog _ List.mem_cons_self).1 rfl

/-- With all 64 bits set, the sum wraps and the modulus is zero. -/
theorem withParams_wraps :
    (withParams 0xFFFFFFFFFFFFFFFF 1).m = 0 ∧
      ¬ Rounded 0xFFFFFFFFFFFFFFFF (withParams 0xFFFFFFFFFFFFFFFF 1) ∧
      ¬ (withParams 0xFFFFFFFFFFFFFFFF 1).AddSafe
        (sha1Hash (Vector.replicate 64 0) [0x61]) := by
  have hm : (withParams 0xFFFFFFFFFFFFFFFF 1).m = 0 := by decide
  refine ⟨hm, ?_, not_addSafe hm (by decide) _⟩
  intro hrounded
  exact absurd hrounded.le (by decide)

end BloomBuilder

end PwFilter
