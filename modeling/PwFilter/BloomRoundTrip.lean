import PwFilter.BloomMembership

/-!
# Built images

A builder with sound parameters marks exactly the probe positions of the
digests added to it.  Its image has the documented layout and is accepted by
the reader, which then reports a digest exactly when all its positions are
marked.
-/

namespace PwFilter

open ByteMemory ProbeFilter

/-! ## Adding digests -/

namespace BloomBuilder

/-- Parameters for which probing is safe, with a bit array of their size. -/
structure Sound (b : BloomBuilder) : Prop where
  m_pos : 0 < b.m.toNat
  m_dvd : b.m.toNat % 8 = 0
  k_pos : 0 < b.k.toNat
  size : b.bitset.length = b.m.toNat / 8

theorem addLoop_spec
    (m : UInt64) (k : UInt32) (d : Sha1Digest) (hm : 0 < m.toNat)
    (hdvd : m.toNat % 8 = 0) (fuel : ℕ) (i : UInt32) (bits : List UInt8)
    (hsize : bits.length = m.toNat / 8) (hi : i.toNat ≤ k.toNat)
    (hfuel : k.toNat < fuel + i.toNat) :
    ∃ bits' log,
      addLoop m k (loadLe64 d.bytes) (loadLe64 (d.bytes.drop 8)) fuel i bits =
          some (bits', log) ∧
        bits'.length = bits.length ∧
        (∀ j, bit bits' j = true ↔ bit bits j = true ∨
          ∃ r, i.toNat ≤ r ∧ r < k.toNat ∧ probePosition d m.toNat r = j) ∧
        ∀ a ∈ log, a.modulus.toNat ≠ 0 ∧ a.offset < bits.length := by
  induction fuel generalizing i bits with
  | zero => omega
  | succ fuel ih =>
      by_cases hround : i < k
      · have hlt : i.toNat < k.toNat := UInt32.lt_iff_toNat_lt.mp hround
        have hsucc := round_succ_toNat hround
        have hposition := probePosition_lt d hm i.toNat
        have hwrite : bits.modify
            (access m (loadLe64 d.bytes) (loadLe64 (d.bytes.drop 8)) i).offset
            (· ||| bitMask
              (probeIndex (loadLe64 d.bytes) (loadLe64 (d.bytes.drop 8)) m i)) =
            setBit bits (probePosition d m.toNat i.toNat) := by
          rw [access, bitMask_eq, shiftRight_three_toNat, probeIndex_toNat]
          rfl
        have hoffset : (access m (loadLe64 d.bytes)
            (loadLe64 (d.bytes.drop 8)) i).offset < bits.length := by
          simp only [access, shiftRight_three_toNat, probeIndex_toNat]
          omega
        obtain ⟨bits', log, hrun, hlength, hbits, hlog⟩ :=
          ih (i + 1) (setBit bits (probePosition d m.toNat i.toNat))
            (by rw [setBit_length]; exact hsize) (by omega) (by omega)
        rw [setBit_length] at hlength hlog
        refine ⟨bits', access m (loadLe64 d.bytes)
          (loadLe64 (d.bytes.drop 8)) i :: log, ?_, hlength, ?_, ?_⟩
        · simp only [addLoop, if_pos hround, hwrite, hrun, Option.map_some]
        · intro j
          rw [hbits j, bit_setBit (by omega), Bool.or_eq_true,
            decide_eq_true_eq, hsucc, or_assoc]
          refine or_congr_right ?_
          constructor
          · intro h
            rcases h with heq | ⟨r, hle, hr, hpos⟩
            · exact ⟨i.toNat, le_rfl, hlt, heq.symm⟩
            · exact ⟨r, by omega, hr, hpos⟩
          · intro h
            obtain ⟨r, hle, hr, hpos⟩ := h
            rcases Nat.eq_or_lt_of_le hle with heq | hgt
            · rw [← heq] at hpos
              exact Or.inl hpos.symm
            · exact Or.inr ⟨r, hgt, hr, hpos⟩
        · intro a ha
          rcases List.mem_cons.mp ha with rfl | hmem
          · exact ⟨Nat.pos_iff_ne_zero.mp hm, hoffset⟩
          · exact hlog a hmem
      · have hend : k.toNat ≤ i.toNat :=
          Nat.le_of_not_lt fun h => hround (UInt32.lt_iff_toNat_lt.mpr h)
        refine ⟨bits, [], ?_, rfl, ?_, by simp⟩
        · rw [addLoop, if_neg hround]
        · intro j
          constructor
          · exact Or.inl
          · intro h
            rcases h with hbit | ⟨r, hle, hr, _⟩
            · exact hbit
            · omega

theorem add_spec {b : BloomBuilder} (hb : b.Sound) (d : Sha1Digest) :
    (b.add d).Sound ∧ (b.add d).m = b.m ∧ (b.add d).k = b.k ∧
      (b.add d).n = b.n + 1 ∧
      ∀ j, bit (b.add d).bitset j = true ↔ bit b.bitset j = true ∨
        j ∈ BloomFilter.probes b.m.toNat b.k.toNat d := by
  have hzero : UInt32.toNat 0 = 0 := rfl
  obtain ⟨bits, log, hrun, hlength, hbits, _⟩ :=
    addLoop_spec b.m b.k d hb.m_pos hb.m_dvd (b.k.toNat + 1) 0 b.bitset hb.size
      (by omega) (by omega)
  have hadd : b.add d = { b with bitset := bits, n := b.n + 1 } := by
    rw [add, addRun, hrun]
  rw [hadd]
  refine ⟨⟨hb.m_pos, hb.m_dvd, hb.k_pos, hlength.trans hb.size⟩, rfl, rfl, rfl,
    ?_⟩
  intro j
  refine (hbits j).trans (or_congr_right ?_)
  constructor
  · intro h
    obtain ⟨r, _, hr, hpos⟩ := h
    exact ⟨r, hr, hpos⟩
  · intro h
    obtain ⟨r, hr, hpos⟩ := h
    exact ⟨r, by omega, hr, hpos⟩

theorem addAll_spec {b : BloomBuilder} (hb : b.Sound) (ds : List Sha1Digest) :
    (b.addAll ds).Sound ∧ (b.addAll ds).m = b.m ∧ (b.addAll ds).k = b.k ∧
      (b.addAll ds).n = b.n + UInt64.ofNat ds.length ∧
      ∀ j, bit (b.addAll ds).bitset j = true ↔ bit b.bitset j = true ∨
        j ∈ marked (BloomFilter.probes b.m.toNat b.k.toNat) {d | d ∈ ds} := by
  induction ds generalizing b with
  | nil =>
      have hcount : b.n = b.n + UInt64.ofNat 0 := (UInt64.add_zero b.n).symm
      refine ⟨hb, rfl, rfl, hcount, ?_⟩
      intro j
      simp [addAll, marked]
  | cons d ds ih =>
      obtain ⟨hsound, hm, hk, hn, hbits⟩ := add_spec hb d
      obtain ⟨hsound', hm', hk', hn', hbits'⟩ := ih hsound
      have hcons : b.addAll (d :: ds) = (b.add d).addAll ds := rfl
      rw [hm, hk] at hbits'
      rw [hcons]
      refine ⟨hsound', hm'.trans hm, hk'.trans hk, ?_, ?_⟩
      · have hone : (1 : UInt64) = UInt64.ofNat 1 := rfl
        rw [hn', hn, List.length_cons, hone, UInt64.add_assoc,
          ← UInt64.ofNat_add, Nat.add_comm 1]
      · intro j
        rw [hbits' j, hbits j, or_assoc, mem_marked_cons]

/-! ## Explicit parameters -/

theorem roundUpTo8_toNat {bits : UInt64} (hbits : bits.toNat ≤ 2 ^ 64 - 8) :
    (roundUpTo8 bits).toNat = (max bits.toNat 8 + 7) / 8 * 8 := by
  have hmask : (~~~(7 : UInt64)).toNat = 2 ^ 64 - 2 ^ 3 := rfl
  have height : UInt64.toNat 8 = 8 := rfl
  have hseven : UInt64.toNat 7 = 7 := rfl
  have hclamp : (if bits < 8 then (8 : UInt64) else bits).toNat =
      max bits.toNat 8 := by
    by_cases hlt : bits < 8
    · have hnat := UInt64.lt_iff_toNat_lt.mp hlt
      rw [if_pos hlt]
      omega
    · have hnat : ¬ bits.toNat < 8 :=
        fun h => hlt (UInt64.lt_iff_toNat_lt.mpr (by rwa [height]))
      rw [if_neg hlt]
      omega
  have hsum : (max bits.toNat 8 + 7) % 2 ^ 64 = max bits.toNat 8 + 7 := by
    omega
  rw [roundUpTo8, UInt64.toNat_and, UInt64.toNat_add, hclamp, hseven, hmask,
    hsum, and_high_mask (by omega) (by norm_num)]
  rfl

theorem roundUpTo8_mod (bits : UInt64) : (roundUpTo8 bits).toNat % 8 = 0 := by
  have hmask : (~~~(7 : UInt64)).toNat = 2 ^ 64 - 2 ^ 3 := rfl
  have hlt := (((if bits < 8 then 8 else bits) : UInt64) + 7).toNat_lt
  rw [roundUpTo8, UInt64.toNat_and, hmask,
    and_high_mask hlt (by norm_num)]
  exact Nat.mul_mod_left _ 8

/-- Explicit parameters are sound unless rounding up has wrapped to zero. -/
theorem withParams_sound
    {mBits : UInt64} (k : UInt32) (hpos : 0 < (withParams mBits k).m.toNat) :
    (withParams mBits k).Sound := by
  have hone : UInt32.toNat 1 = 1 := rfl
  have height : UInt64.toNat 8 = 8 := rfl
  refine ⟨hpos, roundUpTo8_mod mBits, ?_, ?_⟩
  · have hfield : (withParams mBits k).k = if k < 1 then 1 else k := rfl
    rw [hfield]
    by_cases hlt : k < 1
    · rw [if_pos hlt]
      decide
    · have hnat : ¬ k.toNat < 1 :=
        fun h => hlt (UInt32.lt_iff_toNat_lt.mpr (by rwa [hone]))
      rw [if_neg hlt]
      omega
  · have hfield : (withParams mBits k).bitset =
        List.replicate (roundUpTo8 mBits / 8).toNat 0 := rfl
    rw [hfield, List.length_replicate, UInt64.toNat_div, height]
    rfl

theorem withParams_m_pos
    {mBits : UInt64} (k : UInt32) (hbits : mBits.toNat ≤ 2 ^ 64 - 8) :
    0 < (withParams mBits k).m.toNat := by
  have hfield : (withParams mBits k).m = roundUpTo8 mBits := rfl
  rw [hfield, roundUpTo8_toNat hbits]
  omega

theorem withParams_bit (mBits : UInt64) (k : UInt32) (j : ℕ) :
    bit (withParams mBits k).bitset j = false := bit_replicate_zero _ j

theorem addAll_m (b : BloomBuilder) (ds : List Sha1Digest) :
    (b.addAll ds).m = b.m := by
  induction ds generalizing b with
  | nil => rfl
  | cons d ds ih =>
      have hstep : (b.add d).m = b.m := by
        unfold add
        split <;> rfl
      exact (ih (b.add d)).trans hstep

/-! ## The image of a builder -/

def headerFields (k : ℕ) (m n : ℕ) : List UInt8 :=
  kBloomMagic ++ leBytes 4 1 ++ leBytes 4 k ++ leBytes 8 m ++ leBytes 8 n ++
    leBytes 4 1

theorem put32_eq (out : List UInt8) (off : ℕ) (v : UInt32) :
    put32 out off v = store out off (leBytes 4 v.toNat) := by
  have hbyte : ∀ (x : UInt32) (s : ℕ), s < 32 →
      ((x >>> UInt32.ofNat s) &&& 0xFF).toUInt8 =
        UInt8.ofNat (x.toNat / 2 ^ s) := by
    intro x s hs
    have hmask : UInt32.toNat 0xFF = 2 ^ 8 - 1 := rfl
    have hshift : (UInt32.ofNat s).toNat % 32 = s := by
      rw [UInt32.toNat_ofNat']
      omega
    rw [← UInt8.toNat_inj, UInt32.toNat_toUInt8, UInt32.toNat_and,
      UInt32.toNat_shiftRight, hshift, hmask, Nat.shiftRight_eq_div_pow,
      Nat.and_two_pow_sub_one_eq_mod, Nat.mod_mod, UInt8.toNat_ofNat']
  have hzero : (v &&& 0xFF).toUInt8 = UInt8.ofNat v.toNat := by
    have hmask : UInt32.toNat 0xFF = 2 ^ 8 - 1 := rfl
    rw [← UInt8.toNat_inj, UInt32.toNat_toUInt8, UInt32.toNat_and, hmask,
      Nat.and_two_pow_sub_one_eq_mod, Nat.mod_mod, UInt8.toNat_ofNat']
  have hlist : [(v &&& 0xFF).toUInt8, ((v >>> 8) &&& 0xFF).toUInt8,
      ((v >>> 16) &&& 0xFF).toUInt8, ((v >>> 24) &&& 0xFF).toUInt8] =
      leBytes 4 v.toNat := by
    have h8 := hbyte v 8 (by norm_num)
    have h16 := hbyte v 16 (by norm_num)
    have h24 := hbyte v 24 (by norm_num)
    simp only [leBytes, Nat.div_div_eq_div_mul]
    rw [hzero]
    exact congrArg _ (List.cons_eq_cons.mpr ⟨h8,
      List.cons_eq_cons.mpr ⟨h16, List.cons_eq_cons.mpr ⟨h24, rfl⟩⟩⟩)
  rw [put32, hlist]

theorem put64_eq (out : List UInt8) (off : ℕ) (v : UInt64) :
    put64 out off v = store out off (leBytes 8 v.toNat) := by
  have hlist : ((List.range 8).map fun i =>
      ((v >>> (UInt64.ofNat i * 8)) &&& 0xFF).toUInt8) =
      leBytes 8 v.toNat := by
    have hcong : ((List.range 8).map fun i =>
        ((v >>> (UInt64.ofNat i * 8)) &&& 0xFF).toUInt8) =
        (List.range 8).map fun i => UInt8.ofNat (v.toNat / 256 ^ i) := by
      apply List.map_congr_left
      intro i hi
      exact shiftRight_and_toUInt8 v (List.mem_range.mp hi)
    have hrange : List.range 8 = [0, 1, 2, 3, 4, 5, 6, 7] := rfl
    rw [hcong, hrange]
    simp only [List.map_cons, List.map_nil, leBytes, Nat.div_div_eq_div_mul]
    norm_num
  rw [put64, hlist]

/-- `Serialize` writes the documented layout. -/
theorem serialize_eq (b : BloomBuilder) :
    b.serialize =
      headerFields b.k.toNat b.m.toNat b.n.toNat ++ List.replicate 28 0 ++
        b.bitset := by
  have hzeros : List.replicate (kBloomHeaderSize + b.bitset.length) (0 : UInt8) =
      [] ++ (List.replicate 8 0 ++ (List.replicate 4 0 ++
        (List.replicate 4 0 ++ (List.replicate 8 0 ++ (List.replicate 8 0 ++
          (List.replicate 4 0 ++ (List.replicate 28 0 ++
            (List.replicate b.bitset.length 0 ++ [])))))))) := by
    simp only [List.replicate_append_replicate, kBloomHeaderSize,
      List.append_nil, List.nil_append]
    congr 1
    omega
  have hfields : headerFields b.k.toNat b.m.toNat b.n.toNat =
      [] ++ kBloomMagic ++ leBytes 4 kBloomVersion.toNat ++
        leBytes 4 b.k.toNat ++ leBytes 8 b.m.toNat ++ leBytes 8 b.n.toNat ++
        leBytes 4 kBloomSchemeSha1Le.toNat := rfl
  have hwrite : b.serialize =
      if b.bitset ≠ [] then
        store (headerFields b.k.toNat b.m.toNat b.n.toNat ++
          (List.replicate 28 0 ++ (List.replicate b.bitset.length 0 ++ [])))
          kBloomHeaderSize b.bitset
      else
        headerFields b.k.toNat b.m.toNat b.n.toNat ++
          (List.replicate 28 0 ++ (List.replicate b.bitset.length 0 ++ [])) := by
    rw [hfields]
    simp only [serialize, put32_eq, put64_eq, hzeros]
    rw [store_part [] (List.replicate 8 0) _ 0 kBloomMagic rfl rfl,
      store_part _ (List.replicate 4 0) _ 8 (leBytes 4 kBloomVersion.toNat)
        rfl rfl,
      store_part _ (List.replicate 4 0) _ 12 (leBytes 4 b.k.toNat) rfl rfl,
      store_part _ (List.replicate 8 0) _ 16 (leBytes 8 b.m.toNat) rfl rfl,
      store_part _ (List.replicate 8 0) _ 24 (leBytes 8 b.n.toNat) rfl rfl,
      store_part _ (List.replicate 4 0) _ 32
        (leBytes 4 kBloomSchemeSha1Le.toNat) rfl rfl]
  rw [hwrite]
  by_cases hempty : b.bitset = []
  · simp [hempty]
  · rw [if_pos hempty, ← List.append_assoc _ (List.replicate 28 0),
      store_part _ (List.replicate b.bitset.length 0) [] kBloomHeaderSize
        b.bitset rfl List.length_replicate.symm, List.append_nil]

end BloomBuilder

/-! ## Reading an image back -/

theorem imageField_eq
    (front back : List UInt8) (w v : ℕ) (hv : v < 256 ^ w) :
    imageField (front ++ (leBytes w v ++ back)) front.length w = v := by
  have htake : (leBytes w v ++ back).take w = leBytes w v := by
    have hlength := leBytes_length w v
    rw [List.take_append_of_le_length (by omega),
      List.take_of_length_le (by omega)]
  rw [imageField, List.drop_left, htake, leValue_leBytes hv]

theorem layout_fields
    {k m n : ℕ} (bits : List UInt8) (hk : k < 256 ^ 4) (hm : m < 256 ^ 8)
    (hn : n < 256 ^ 8) (image : List UInt8)
    (himage : image = BloomBuilder.headerFields k m n ++
      List.replicate 28 0 ++ bits) :
    image.length = 64 + bits.length ∧ image.take 8 = kBloomMagic ∧
      image.drop kBloomHeaderSize = bits ∧ imageField image 8 4 = 1 ∧
      imageField image 12 4 = k ∧ imageField image 16 8 = m ∧
      imageField image 24 8 = n ∧ imageField image 32 4 = 1 := by
  have hmagic : kBloomMagic.length = 8 := rfl
  have hflat : image = kBloomMagic ++ (leBytes 4 1 ++ (leBytes 4 k ++
      (leBytes 8 m ++ (leBytes 8 n ++ (leBytes 4 1 ++
        (List.replicate 28 0 ++ bits)))))) := by
    rw [himage, BloomBuilder.headerFields]
    simp only [List.append_assoc]
  have hone : 1 < 256 ^ 4 := by norm_num
  refine ⟨?_, ?_, ?_, ?_, ?_, ?_, ?_, ?_⟩
  · rw [hflat]
    simp only [List.length_append, leBytes_length, List.length_replicate,
      hmagic]
    omega
  · rw [hflat, ← hmagic, List.take_left]
  · have hfront : (BloomBuilder.headerFields k m n ++
        List.replicate 28 0).length = kBloomHeaderSize := rfl
    rw [himage, ← hfront, List.drop_left]
  · rw [hflat]
    exact imageField_eq kBloomMagic _ 4 1 hone
  · have hsplit : image = (kBloomMagic ++ leBytes 4 1) ++ (leBytes 4 k ++
        (leBytes 8 m ++ (leBytes 8 n ++ (leBytes 4 1 ++
          (List.replicate 28 0 ++ bits))))) := by
      rw [hflat, List.append_assoc]
    rw [hsplit]
    exact imageField_eq (kBloomMagic ++ leBytes 4 1) _ 4 k hk
  · have hsplit : image = (kBloomMagic ++ leBytes 4 1 ++ leBytes 4 k) ++
        (leBytes 8 m ++ (leBytes 8 n ++ (leBytes 4 1 ++
          (List.replicate 28 0 ++ bits)))) := by
      rw [hflat]
      simp only [List.append_assoc]
    rw [hsplit]
    exact imageField_eq (kBloomMagic ++ leBytes 4 1 ++ leBytes 4 k) _ 8 m hm
  · have hsplit : image = (kBloomMagic ++ leBytes 4 1 ++ leBytes 4 k ++
        leBytes 8 m) ++ (leBytes 8 n ++ (leBytes 4 1 ++
          (List.replicate 28 0 ++ bits))) := by
      rw [hflat]
      simp only [List.append_assoc]
    rw [hsplit]
    exact imageField_eq
      (kBloomMagic ++ leBytes 4 1 ++ leBytes 4 k ++ leBytes 8 m) _ 8 n hn
  · have hsplit : image = (kBloomMagic ++ leBytes 4 1 ++ leBytes 4 k ++
        leBytes 8 m ++ leBytes 8 n) ++ (leBytes 4 1 ++
          (List.replicate 28 0 ++ bits)) := by
      rw [hflat]
      simp only [List.append_assoc]
    rw [hsplit]
    exact imageField_eq (kBloomMagic ++ leBytes 4 1 ++ leBytes 4 k ++
      leBytes 8 m ++ leBytes 8 n) _ 4 1 hone

/-- The reader accepts the image of a sound builder and has its parameters,
its count and its bits. -/
theorem BloomBuilder.Sound.fromMemory
    {b : BloomBuilder} (hb : b.Sound) :
    ∃ bf, BloomFilter.fromMemory (some b.serialize) = some bf ∧
      bf.m = b.m ∧ bf.k = b.k ∧ bf.n = b.n ∧ bf.bitset = b.bitset := by
  have hk := b.k.toNat_lt
  have hm := b.m.toNat_lt
  have hn := b.n.toNat_lt
  obtain ⟨hlength, hmagic, hbits, hversion, hkfield, hmfield, hnfield,
      hscheme⟩ :=
    layout_fields b.bitset (k := b.k.toNat) (m := b.m.toNat) (n := b.n.toNat)
      (by omega) (by omega) (by omega) b.serialize b.serialize_eq
  have hdata : WellFormedImage b.serialize := by
    refine ⟨by omega, hmagic, hversion, hscheme, ?_, ?_, ?_, ?_⟩
    · rw [hmfield]
      exact hb.m_pos
    · rw [hmfield]
      exact hb.m_dvd
    · rw [hkfield]
      exact hb.k_pos
    · rw [hlength, hmfield, hb.size]
  obtain ⟨bf, hread⟩ := BloomFilter.fromMemory_wellFormed hdata
  obtain ⟨_, himage, hmbf, hkbf, hnbf⟩ := BloomFilter.fromMemory_some hread
  refine ⟨bf, hread, ?_, ?_, ?_, ?_⟩
  · exact UInt64.toNat_inj.mp (hmbf.trans hmfield)
  · exact UInt32.toNat_inj.mp (hkbf.trans hkfield)
  · exact UInt64.toNat_inj.mp (hnbf.trans hnfield)
  · rw [BloomFilter.bitset, himage, hbits]

theorem BloomBuilder.sound_of_fromMemory
    {mBits : UInt64} {k : UInt32} {ds : List Sha1Digest} {bf : BloomFilter}
    (hread : BloomFilter.fromMemory
      (some ((BloomBuilder.withParams mBits k).addAll ds).serialize) =
        some bf) : (BloomBuilder.withParams mBits k).Sound := by
  obtain ⟨hdata, _⟩ := BloomFilter.fromMemory_some hread
  generalize hb : (BloomBuilder.withParams mBits k).addAll ds = b at *
  have hk := b.k.toNat_lt
  have hm := b.m.toNat_lt
  have hn := b.n.toNat_lt
  obtain ⟨_, _, _, _, _, hmfield, _⟩ :=
    layout_fields b.bitset (k := b.k.toNat) (m := b.m.toNat) (n := b.n.toNat)
      (by omega) (by omega) (by omega) b.serialize b.serialize_eq
  have hpos := hdata.m_pos
  rw [hmfield, ← hb, addAll_m] at hpos
  exact withParams_sound k hpos

/-- A filter built from digests and read back reports a digest exactly when
all its positions are marked by the digests added. -/
theorem maybeContains_built_iff
    {mBits : UInt64} {k : UInt32} {ds : List Sha1Digest} {bf : BloomFilter}
    (hread : BloomFilter.fromMemory
      (some ((BloomBuilder.withParams mBits k).addAll ds).serialize) = some bf)
    (q : Sha1Digest) :
    bf.maybeContains q = true ↔
      Reports (BloomFilter.probes
        (BloomBuilder.withParams mBits k).m.toNat
        (BloomBuilder.withParams mBits k).k.toNat) {d | d ∈ ds} q := by
  have hsound := BloomBuilder.sound_of_fromMemory hread
  obtain ⟨hsound', hm, hk, _, hmarks⟩ := BloomBuilder.addAll_spec hsound ds
  obtain ⟨bf', hread', hmbf, hkbf, _, hbf⟩ := hsound'.fromMemory
  have hsame : bf' = bf := Option.some.inj (hread'.symm.trans hread)
  subst hsame
  rw [BloomFilter.maybeContains_iff, hmbf, hkbf, hm, hk, hbf]
  refine forall_congr' fun j => forall_congr' fun _ => ?_
  rw [hmarks j, BloomBuilder.withParams_bit]
  simp only [Bool.false_eq_true, false_or]

end PwFilter
