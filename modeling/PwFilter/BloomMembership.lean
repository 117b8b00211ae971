import PwFilter.Bloom
import PwFilter.ProbeFilter

/-!
# What the Bloom filter remembers

The reader accepts exactly the images the format describes and its probe loop
stays inside them.  The builder marks exactly the probe positions of the
digests added, and its image is read back with the same bits.
-/

namespace PwFilter

open ByteMemory ProbeFilter

/-! ## The images the reader accepts -/

def imageField (data : List UInt8) (off width : ℕ) : ℕ :=
  leValue ((data.drop off).take width)

/-- What the format asks of an image. -/
structure WellFormedImage (data : List UInt8) : Prop where
  header : 64 ≤ data.length
  magic : data.take 8 = kBloomMagic
  version : imageField data 8 4 = 1
  scheme : imageField data 32 4 = 1
  m_pos : 0 < imageField data 16 8
  m_dvd : imageField data 16 8 % 8 = 0
  k_pos : 0 < imageField data 12 4
  size : data.length = 64 + imageField data 16 8 / 8

theorem loadLe64_drop {data : List UInt8} {off : ℕ}
    (hdata : off + 8 ≤ data.length) :
    (loadLe64 (data.drop off)).toNat = imageField data off 8 := by
  apply loadLe64_toNat
  rw [List.length_drop]
  omega

theorem mod_eight_eq_zero_iff (m : UInt64) : m % 8 = 0 ↔ m.toNat % 8 = 0 := by
  have height : UInt64.toNat 8 = 8 := rfl
  have hzero : UInt64.toNat 0 = 0 := rfl
  rw [← UInt64.toNat_inj, UInt64.toNat_mod, height, hzero]

namespace BloomFilter

theorem fromMemory_some
    {data : List UInt8} {bf : BloomFilter}
    (hread : fromMemory (some data) = some bf) :
    WellFormedImage data ∧ bf.image = data ∧
      bf.m.toNat = imageField data 16 8 ∧ bf.k.toNat = imageField data 12 4 ∧
      bf.n.toNat = imageField data 24 8 := by
  simp only [fromMemory] at hread
  by_cases hheader : data.length < kBloomHeaderSize
  · simp [hheader] at hread
  by_cases hmagic : data.take 8 ≠ kBloomMagic
  · simp [hheader, hmagic] at hread
  by_cases hversion : get32 data 8 ≠ kBloomVersion
  · simp [hheader, hmagic, hversion] at hread
  by_cases hscheme : get32 data 32 ≠ kBloomSchemeSha1Le
  · simp [hheader, hmagic, hversion, hscheme] at hread
  by_cases hm : loadLe64 (data.drop 16) = 0 ∨ loadLe64 (data.drop 16) % 8 ≠ 0
  · rw [if_neg hheader, if_neg hmagic, if_neg hversion, if_neg hscheme,
      dif_pos hm] at hread
    cases hread
  by_cases hk : get32 data 12 = 0
  · rw [if_neg hheader, if_neg hmagic, if_neg hversion, if_neg hscheme,
      dif_neg hm, dif_pos hk] at hread
    cases hread
  by_cases hsize : data.length ≠
      (UInt64.ofNat kBloomHeaderSize + loadLe64 (data.drop 16) / 8).toNat
  · rw [if_neg hheader, if_neg hmagic, if_neg hversion, if_neg hscheme,
      dif_neg hm, dif_neg hk, dif_pos hsize] at hread
    cases hread
  rw [if_neg hheader, if_neg hmagic, if_neg hversion, if_neg hscheme,
    dif_neg hm, dif_neg hk, dif_neg hsize, Option.some.injEq] at hread
  subst hread
  have hlong : 64 ≤ data.length := Nat.le_of_not_lt hheader
  have hmfield : (loadLe64 (data.drop 16)).toNat = imageField data 16 8 :=
    loadLe64_drop (by omega)
  have hnfield : (loadLe64 (data.drop 24)).toNat = imageField data 24 8 :=
    loadLe64_drop (by omega)
  have hkfield : (get32 data 12).toNat = imageField data 12 4 :=
    get32_toNat (by omega)
  have hvfield : (get32 data 8).toNat = imageField data 8 4 :=
    get32_toNat (by omega)
  have hsfield : (get32 data 32).toNat = imageField data 32 4 :=
    get32_toNat (by omega)
  rw [not_not] at hmagic hversion hscheme hsize
  rw [hversion] at hvfield
  rw [hscheme] at hsfield
  rw [header_add_toNat, hmfield] at hsize
  obtain ⟨hm0, hm8⟩ := not_or.mp hm
  rw [not_not, mod_eight_eq_zero_iff, hmfield] at hm8
  refine ⟨⟨hlong, hmagic, hvfield.symm, hsfield.symm, ?_, hm8, ?_, hsize⟩, rfl,
    hmfield, hkfield, hnfield⟩
  · rw [← hmfield]
    apply Nat.pos_of_ne_zero
    intro h
    exact hm0 (UInt64.toNat_inj.mp h)
  · have hkpos : (get32 data 12).toNat ≠ 0 := by
      intro h
      exact hk (UInt32.toNat_inj.mp h)
    rw [hkfield] at hkpos
    exact Nat.pos_of_ne_zero hkpos

theorem fromMemory_wellFormed
    {data : List UInt8} (hdata : WellFormedImage data) :
    ∃ bf, fromMemory (some data) = some bf := by
  have hlong := hdata.header
  have hmfield : (loadLe64 (data.drop 16)).toNat = imageField data 16 8 :=
    loadLe64_drop (by omega)
  have hkfield : (get32 data 12).toNat = imageField data 12 4 :=
    get32_toNat (by omega)
  have hvfield : (get32 data 8).toNat = imageField data 8 4 :=
    get32_toNat (by omega)
  have hsfield : (get32 data 32).toNat = imageField data 32 4 :=
    get32_toNat (by omega)
  have hversion : get32 data 8 = kBloomVersion := by
    rw [← UInt32.toNat_inj, hvfield, hdata.version]
    rfl
  have hscheme : get32 data 32 = kBloomSchemeSha1Le := by
    rw [← UInt32.toNat_inj, hsfield, hdata.scheme]
    rfl
  have hm : ¬ (loadLe64 (data.drop 16) = 0 ∨
      loadLe64 (data.drop 16) % 8 ≠ 0) := by
    rw [not_or, not_not, mod_eight_eq_zero_iff, hmfield]
    refine ⟨?_, hdata.m_dvd⟩
    intro h
    have hpos := hdata.m_pos
    rw [← hmfield, h] at hpos
    exact absurd hpos (by decide)
  have hk : ¬ get32 data 12 = 0 := by
    intro h
    have hpos := hdata.k_pos
    rw [← hkfield, h] at hpos
    exact absurd hpos (by decide)
  have hsize : ¬ data.length ≠
      (UInt64.ofNat kBloomHeaderSize + loadLe64 (data.drop 16) / 8).toNat := by
    rw [not_not, header_add_toNat, hmfield]
    exact hdata.size
  have hheader : ¬ data.length < kBloomHeaderSize := Nat.not_lt.mpr hlong
  simp only [fromMemory]
  rw [if_neg hheader, if_neg (not_not.mpr hdata.magic),
    if_neg (not_not.mpr hversion), if_neg (not_not.mpr hscheme), dif_neg hm,
    dif_neg hk, dif_neg hsize]
  exact ⟨_, rfl⟩

/-! ## The probe loop of the reader -/

def bitset (bf : BloomFilter) : List UInt8 := bf.image.drop kBloomHeaderSize

theorem bitset_length (bf : BloomFilter) :
    bf.bitset.length = bf.m.toNat / 8 := by
  have hsize := bf.size_eq
  rw [bitset, List.length_drop, kBloomHeaderSize]
  omega

theorem m_pos (bf : BloomFilter) : 0 < bf.m.toNat := by
  apply Nat.pos_of_ne_zero
  intro h
  exact bf.m_ne_zero (UInt64.toNat_inj.mp h)

/-- Every probe, executed or not, is a byte of the bit array. -/
theorem access_safe (bf : BloomFilter) (h1 h2 : UInt64) (i : UInt32) :
    (bf.access h1 h2 i).modulus ≠ 0 ∧
      kBloomHeaderSize ≤ (bf.access h1 h2 i).offset ∧
      (bf.access h1 h2 i).offset < bf.image.length := by
  have hpos := bf.m_pos
  have hsize := bf.size_eq
  have hdvd := bf.m_dvd
  have hlt : (probeIndex h1 h2 bf.m i).toNat < bf.m.toNat := by
    rw [probeIndex, UInt64.toNat_mod]
    exact Nat.mod_lt _ hpos
  refine ⟨bf.m_ne_zero, Nat.le_add_right _ _, ?_⟩
  simp only [access, shiftRight_three_toNat, kBloomHeaderSize]
  omega

theorem probe_test (bf : BloomFilter) (d : Sha1Digest) (i : UInt32) :
    bf.image.getD (bf.access (loadLe64 d.bytes) (loadLe64 (d.bytes.drop 8))
          i).offset 0 &&&
        bitMask
          (probeIndex (loadLe64 d.bytes) (loadLe64 (d.bytes.drop 8)) bf.m i) =
        0 ↔
      bit bf.bitset (probePosition d bf.m.toNat i.toNat) = false := by
  rw [access, bitMask_eq, shiftRight_three_toNat, probeIndex_toNat,
    and_mask_eq_zero_iff, bit, bitset, List.getD_eq_getElem?_getD,
    List.getD_eq_getElem?_getD, List.getElem?_drop]

/-- From round `i` on, the loop decides whether all remaining positions are
set, and what it touches lies in the bit array. -/
theorem probeLoop_spec
    (bf : BloomFilter) (d : Sha1Digest) (fuel : ℕ) (i : UInt32)
    (hi : i.toNat ≤ bf.k.toNat) (hfuel : bf.k.toNat < fuel + i.toNat) :
    ∃ found log,
      bf.probeLoop (loadLe64 d.bytes) (loadLe64 (d.bytes.drop 8)) fuel i =
          some (found, log) ∧
        (found = true ↔ ∀ j, i.toNat ≤ j → j < bf.k.toNat →
          bit bf.bitset (probePosition d bf.m.toNat j) = true) ∧
        ∀ a ∈ log, a.modulus ≠ 0 ∧ kBloomHeaderSize ≤ a.offset ∧
          a.offset < bf.image.length := by
  induction fuel generalizing i with
  | zero => omega
  | succ fuel ih =>
      by_cases hround : i < bf.k
      · have hlt : i.toNat < bf.k.toNat := UInt32.lt_iff_toNat_lt.mp hround
        have hsucc := round_succ_toNat hround
        have htest := probe_test bf d i
        have hsafe := bf.access_safe (loadLe64 d.bytes)
          (loadLe64 (d.bytes.drop 8)) i
        cases hbit : bit bf.bitset (probePosition d bf.m.toNat i.toNat) with
        | false =>
            refine ⟨false, [bf.access (loadLe64 d.bytes)
              (loadLe64 (d.bytes.drop 8)) i], ?_, ?_, ?_⟩
            · rw [probeLoop, if_pos hround]
              exact if_pos (htest.mpr hbit)
            · simp only [Bool.false_eq_true, false_iff, not_forall]
              exact ⟨i.toNat, le_rfl, hlt, by rw [hbit]; decide⟩
            · intro a ha
              rw [List.mem_singleton.mp ha]
              exact hsafe
        | true =>
            have hgo := mt htest.mp (by rw [hbit]; decide)
            obtain ⟨found, log, hrun, hfound, hlog⟩ :=
              ih (i + 1) (by omega) (by omega)
            refine ⟨found, bf.access (loadLe64 d.bytes)
              (loadLe64 (d.bytes.drop 8)) i :: log, ?_, ?_, ?_⟩
            · rw [probeLoop, if_pos hround]
              refine (if_neg hgo).trans ?_
              rw [hrun]
              rfl
            · rw [hfound, hsucc]
              constructor
              · intro h j hij hj
                rcases Nat.eq_or_lt_of_le hij with heq | hgt
                · rw [← heq]
                  exact hbit
                · exact h j hgt hj
              · intro h j hij hj
                exact h j (by omega) hj
            · intro a ha
              rcases List.mem_cons.mp ha with rfl | hmem
              · exact hsafe
              · exact hlog a hmem
      · have hend : bf.k.toNat ≤ i.toNat :=
          Nat.le_of_not_lt fun h => hround (UInt32.lt_iff_toNat_lt.mpr h)
        refine ⟨true, [], ?_, ?_, by simp⟩
        · rw [probeLoop, if_neg hround]
        · simp only [true_iff]
          intro j hij hj
          omega

def probes (m k : ℕ) (d : Sha1Digest) : Set ℕ :=
  {j | ∃ i < k, probePosition d m i = j}

theorem maybeContainsRun_spec (bf : BloomFilter) (d : Sha1Digest) :
    ∃ found log, bf.maybeContainsRun d = some (found, log) ∧
      (found = true ↔ ∀ j ∈ probes bf.m.toNat bf.k.toNat d,
        bit bf.bitset j = true) ∧
      ∀ a ∈ log, a.modulus ≠ 0 ∧ kBloomHeaderSize ≤ a.offset ∧
        a.offset < bf.image.length := by
  have hzero : UInt32.toNat 0 = 0 := rfl
  obtain ⟨found, log, hrun, hfound, hlog⟩ :=
    bf.probeLoop_spec d (bf.k.toNat + 1) 0 (by omega) (by omega)
  refine ⟨found, log, hrun, hfound.trans ?_, hlog⟩
  constructor
  · intro h j hj
    obtain ⟨i, hi, rfl⟩ := hj
    exact h i (by omega) hi
  · intro h i _ hi
    exact h _ ⟨i, hi, rfl⟩

theorem maybeContains_iff (bf : BloomFilter) (d : Sha1Digest) :
    bf.maybeContains d = true ↔
      ∀ j ∈ probes bf.m.toNat bf.k.toNat d, bit bf.bitset j = true := by
  obtain ⟨found, log, hrun, hfound, _⟩ := bf.maybeContainsRun_spec d
  rw [maybeContains, hrun]
  exact hfound

end BloomFilter

/-- Whatever the bytes are, a filter made from them never divides by zero and
reads only its bit array, on every probe; the size sum does not wrap. -/
theorem corrupt_image_cannot_fault (data : List UInt8) :
    (∀ m : UInt64, (UInt64.ofNat kBloomHeaderSize + m / 8).toNat =
      64 + m.toNat / 8) ∧
      (BloomFilter.fromMemory (some data) = none ∨
        ∃ bf, BloomFilter.fromMemory (some data) = some bf ∧
          (∀ d, ∃ found log, bf.maybeContainsRun d = some (found, log) ∧
            ∀ a ∈ log, a.modulus ≠ 0 ∧ 64 ≤ a.offset ∧
              a.offset < data.length) ∧
          ∀ h1 h2 i, i < bf.k →
            (bf.access h1 h2 i).modulus ≠ 0 ∧
              64 ≤ (bf.access h1 h2 i).offset ∧
              (bf.access h1 h2 i).offset < data.length) := by
  refine ⟨header_add_toNat, ?_⟩
  cases hread : BloomFilter.fromMemory (some data) with
  | none => exact Or.inl rfl
  | some bf =>
      have himage := (BloomFilter.fromMemory_some hread).2.1
      refine Or.inr ⟨bf, rfl, ?_, ?_⟩
      · intro d
        obtain ⟨found, log, hrun, _, hlog⟩ := bf.maybeContainsRun_spec d
        rw [himage] at hlog
        exact ⟨found, log, hrun, hlog⟩
      · intro h1 h2 i _
        have hsafe := bf.access_safe h1 h2 i
        rw [himage] at hsafe
        exact hsafe

end PwFilter
