import PwFilter.PythonTools

/-!
# Which corpora give one image

The bits of an image depend on the set of digests only.  Their order and the
repeated ones leave no trace but the count in the header, so a corpus may be
sorted, cut up or merged before it is built.
-/

namespace PwFilter

open ByteMemory ProbeFilter

namespace BloomBuilder

/-- A builder that has marked the probe positions of a set of digests. -/
structure Marks (b : BloomBuilder) (inserted : Set Sha1Digest) : Prop where
  sound : b.Sound
  bits : ∀ j, bit b.bitset j = true ↔
    j ∈ marked (BloomFilter.probes b.m.toNat b.k.toNat) inserted

theorem Marks.addAll
    {b : BloomBuilder} {inserted : Set Sha1Digest} (hb : b.Marks inserted)
    (ds : List Sha1Digest) :
    (b.addAll ds).Marks (inserted ∪ {d | d ∈ ds}) := by
  obtain ⟨hsound, hm, hk, _, hbits⟩ := addAll_spec hb.sound ds
  refine ⟨hsound, ?_⟩
  intro j
  rw [hbits j, hb.bits j, hm, hk, marked_union]
  rfl

/-- The bits are those of the set, and the set alone. -/
theorem Marks.bitset_eq
    {b b' : BloomBuilder} {inserted : Set Sha1Digest} (hb : b.Marks inserted)
    (hb' : b'.Marks inserted) (hm : b.m = b'.m) (hk : b.k = b'.k) :
    b.bitset = b'.bitset := by
  apply ext_bit
  · rw [hb.sound.size, hb'.sound.size, hm]
  · intro j
    rw [Bool.eq_iff_iff, hb.bits j, hb'.bits j, hm, hk]

theorem marks_withParams
    {mBits : UInt64} (k : UInt32) (hbits : mBits.toNat ≤ 2 ^ 64 - 8) :
    (withParams mBits k).Marks ∅ where
  sound := withParams_sound k (withParams_m_pos k hbits)
  bits := by
    intro j
    rw [withParams_bit]
    simp [marked]

theorem serialize_inj_count
    {b b' : BloomBuilder} (hm : b.m = b'.m) (hk : b.k = b'.k)
    (hbitset : b.bitset = b'.bitset) :
    b.serialize = b'.serialize ↔ b.n = b'.n := by
  constructor
  · intro h
    rw [serialize_eq, serialize_eq, hm, hk, hbitset, List.append_left_inj,
      List.append_left_inj, headerFields, headerFields, List.append_left_inj,
      List.append_right_inj] at h
    have hcount := congrArg leValue h
    rw [leValue_leBytes b.n.toNat_lt, leValue_leBytes b'.n.toNat_lt] at hcount
    exact UInt64.toNat_inj.mp hcount
  · intro hn
    rw [serialize_eq, serialize_eq, hm, hk, hbitset, hn]

end BloomBuilder

/-- Two lists of the same digests, in any order and with any repetitions, give
the same bits, and the same file when their lengths agree as far as the header
counts. -/
theorem image_depends_on_set
    {mBits : UInt64} (k : UInt32) (hbits : mBits.toNat ≤ 2 ^ 64 - 8)
    {ds ds' : List Sha1Digest} (hsame : ∀ d, d ∈ ds ↔ d ∈ ds') :
    ((BloomBuilder.withParams mBits k).addAll ds).bitset =
        ((BloomBuilder.withParams mBits k).addAll ds').bitset ∧
      (((BloomBuilder.withParams mBits k).addAll ds).serialize =
          ((BloomBuilder.withParams mBits k).addAll ds').serialize ↔
        ds.length % 2 ^ 64 = ds'.length % 2 ^ 64) := by
  have hstart := BloomBuilder.marks_withParams k hbits
  obtain ⟨_, hm, hk, hn, _⟩ := BloomBuilder.addAll_spec hstart.sound ds
  obtain ⟨_, hm', hk', hn', _⟩ := BloomBuilder.addAll_spec hstart.sound ds'
  have hset : {d | d ∈ ds} = {d | d ∈ ds'} := Set.ext hsame
  have hmarks := hstart.addAll ds
  rw [hset] at hmarks
  have hbitset := hmarks.bitset_eq (hstart.addAll ds') (hm.trans hm'.symm)
    (hk.trans hk'.symm)
  refine ⟨hbitset, ?_⟩
  rw [BloomBuilder.serialize_inj_count (hm.trans hm'.symm) (hk.trans hk'.symm)
    hbitset, hn, hn', UInt64.add_right_inj, ← UInt64.toNat_inj,
    UInt64.toNat_ofNat', UInt64.toNat_ofNat']

theorem image_depends_on_set_sample :
    ((BloomBuilder.withParams 100 3).addAll
        [⟨List.replicate 20 1, rfl⟩, ⟨List.replicate 20 2, rfl⟩]).serialize =
      ((BloomBuilder.withParams 100 3).addAll
        [⟨List.replicate 20 2, rfl⟩, ⟨List.replicate 20 1, rfl⟩]).serialize :=
  (image_depends_on_set 3 (by decide) fun _ =>
    (List.Perm.swap _ _ []).mem_iff).2.mpr rfl

end PwFilter
