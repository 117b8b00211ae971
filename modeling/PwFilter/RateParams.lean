import PwFilter.DumpReader

/-!
# Parameters from a rate

`ComputeParams` takes the size and the number of probes from an expected count
and a false positive rate, and `compute_params` says that it mirrors it.  Both
round in floating point; what comes out of that is a parameter here, and the
integers around it are the model.
-/

namespace PwFilter

open ByteMemory

/-- The floating point of `ComputeParams`: whether a rate lies between zero and
one, the rate that replaces one that does not, the size that `std::ceil` gives
and the probes that `std::lround` gives. -/
structure RateFloats (Rate : Type) where
  inUnit : Rate → Bool
  defaultRate : Rate
  ceilBits : UInt64 → Rate → UInt64
  lround : UInt64 → UInt64 → ℤ

namespace RateFloats

variable {Rate : Type}

def clamp (floats : RateFloats Rate) (p : Rate) : Rate :=
  if floats.inUnit p then p else floats.defaultRate

def computeParams (floats : RateFloats Rate) (n : UInt64) (p : Rate) :
    UInt64 × UInt32 :=
  let n := if n = 0 then 1 else n
  let p := floats.clamp p
  let m := roundUpTo8 (floats.ceilBits n p)
  let k := floats.lround m n
  let k := if k < 1 then 1 else k
  let k := if k > 64 then 64 else k
  (m, UInt32.ofNat k.toNat)

end RateFloats

/-- The constructor that takes a rate. -/
def BloomBuilder.withRate {Rate : Type} (floats : RateFloats Rate)
    (expectedItems : UInt64) (falsePositiveRate : Rate) : BloomBuilder :=
  let p := floats.computeParams expectedItems falsePositiveRate
  make p.1 p.2

namespace RateFloats

variable {Rate : Type} (floats : RateFloats Rate)

theorem computeParams_size
    {n : UInt64} {p : Rate} (hn : n ≠ 0)
    (hfit : (floats.ceilBits n (floats.clamp p)).toNat ≤ 2 ^ 64 - 8) :
    (floats.computeParams n p).1.toNat =
      (max (floats.ceilBits n (floats.clamp p)).toNat 8 + 7) / 8 * 8 := by
  unfold computeParams
  dsimp only
  rw [if_neg hn, BloomBuilder.roundUpTo8_toNat hfit]

theorem computeParams_rounds {n : UInt64} {p : Rate} (hn : n ≠ 0) :
    (floats.computeParams n p).2.toNat =
      (max 1 (min 64
        (floats.lround (floats.computeParams n p).1 n))).toNat := by
  unfold computeParams
  dsimp only
  rw [if_neg hn, UInt32.toNat_ofNat']
  split
  · split
    · omega
    · omega
  · split
    · omega
    · omega

theorem computeParams_bounds
    {n : UInt64} {p : Rate} (hn : n ≠ 0)
    (hfit : (floats.ceilBits n (floats.clamp p)).toNat ≤ 2 ^ 64 - 8) :
    0 < (floats.computeParams n p).1.toNat ∧
      (floats.computeParams n p).1.toNat % 8 = 0 ∧
      (floats.computeParams n p).1.toNat ≤ 2 ^ 64 - 8 ∧
      1 ≤ (floats.computeParams n p).2.toNat ∧
      (floats.computeParams n p).2.toNat ≤ 64 := by
  rw [floats.computeParams_size hn hfit, floats.computeParams_rounds hn]
  omega

/-- Rounding up and clamping again changes nothing. -/
theorem withRate_eq
    {n : UInt64} {p : Rate} (hn : n ≠ 0)
    (hfit : (floats.ceilBits n (floats.clamp p)).toNat ≤ 2 ^ 64 - 8) :
    BloomBuilder.withRate floats n p =
      BloomBuilder.withParams (floats.computeParams n p).1
        (floats.computeParams n p).2 := by
  obtain ⟨hm, hdvd, hmax, hk, _⟩ := floats.computeParams_bounds hn hfit
  have hround : roundUpTo8 (floats.computeParams n p).1 =
      (floats.computeParams n p).1 := by
    apply UInt64.toNat_inj.mp
    rw [BloomBuilder.roundUpTo8_toNat hmax]
    omega
  have hclamp : ¬ (floats.computeParams n p).2 < 1 := by
    have hone : UInt32.toNat 1 = 1 := rfl
    rw [UInt32.lt_iff_toNat_lt]
    omega
  rw [BloomBuilder.withRate, BloomBuilder.withParams, hround, if_neg hclamp]

end RateFloats

namespace BuildBloom

/-- The floating point of both programs gives the same numbers for a count and
a rate, and the size stays clear of the last byte of its type. -/
structure SameFloats {Rate : Type} (floats : Floats Rate)
    (rateFloats : RateFloats Rate) (n : UInt64) (p : Rate) : Prop where
  inUnit : floats.inUnit p = rateFloats.inUnit p
  defaultRate : floats.defaultRate = rateFloats.defaultRate
  ceil : floats.ceilBits n.toNat (rateFloats.clamp p) =
    .ok ((rateFloats.ceilBits n (rateFloats.clamp p)).toNat : ℤ)
  fits : (rateFloats.ceilBits n (rateFloats.clamp p)).toNat ≤ 2 ^ 64 - 8
  round : floats.floorRounds (rateFloats.computeParams n p).1.toNat n.toNat =
    .ok (rateFloats.lround (rateFloats.computeParams n p).1 n)

/-- `compute_params` mirrors `ComputeParams`. -/
theorem SameFloats.computeParams
    {Rate : Type} {floats : Floats Rate} {rateFloats : RateFloats Rate}
    {n : UInt64} {p : Rate} (hsame : SameFloats floats rateFloats n p) (hn : n ≠ 0) :
    BuildBloom.computeParams floats n.toNat p =
      .ok ((rateFloats.computeParams n p).1.toNat,
        (rateFloats.computeParams n p).2.toNat) := by
  have hpos : 0 < n.toNat := by
    rw [Nat.pos_iff_ne_zero, ne_eq, ← UInt64.toNat_zero, UInt64.toNat_inj]
    exact hn
  have hsize := rateFloats.computeParams_size hn hsame.fits
  have hround := hsame.round
  have hclamp : (if (!floats.inUnit p) = true then floats.defaultRate else p) =
      rateFloats.clamp p := by
    rw [hsame.inUnit, hsame.defaultRate, RateFloats.clamp]
    cases rateFloats.inUnit p with
    | false => rfl
    | true => rfl
  rw [rateFloats.computeParams_rounds hn]
  generalize (rateFloats.computeParams n p).1 = m at *
  have hbits : ∀ c : ℕ, (((if (c : ℤ) < 8 then 8 else (c : ℤ)) + 7) / 8 * 8) =
      (((max c 8 + 7) / 8 * 8 : ℕ) : ℤ) := by
    intro c
    split
    · omega
    · omega
  unfold BuildBloom.computeParams
  simp only [if_neg (show ¬ (n.toNat : ℤ) ≤ 0 by omega), hclamp, hsame.ceil, ok_bind,
    hbits, ← hsize, hround, Int.toNat_natCast]

end BuildBloom

/-- The C++ constructor that takes a rate, filled with the digests of an input,
serializes the file that `build_bloom.py` writes for it. -/
theorem rate_builders_agree
    {Rate : Type} {rateFloats : RateFloats Rate}
    {floats : BuildBloom.Floats Rate} {args : BuildBloom.Args Rate} {n : UInt64}
    (hsame : BuildBloom.SameFloats floats rateFloats n args.fp)
    {text : List Char} {code : ℕ} {image : List UInt8}
    (hcount : args.count.getD (BuildBloom.countItems args.plain text) =
      (n.toNat : ℤ))
    (hbuild : BuildBloom.buildFile floats args text = .ok (code, some image))
    {ds : List Sha1Digest}
    (hds : ds.map Sha1Digest.bytes = BuildBloom.iterDigests args.plain text) :
    ((BloomBuilder.withRate rateFloats n args.fp).addAll ds).serialize =
      image := by
  simp only [BuildBloom.buildFile, hcount] at hbuild
  split at hbuild
  · cases hbuild
  · rename_i hpositive
    have hn : n ≠ 0 := by
      rintro rfl
      exact hpositive (le_refl 0)
    obtain ⟨hm, hdvd, hmax, hk, hkmax⟩ :=
      rateFloats.computeParams_bounds hn hsame.fits
    rw [hsame.computeParams hn, ok_bind] at hbuild
    rw [rateFloats.withRate_eq hn hsame.fits]
    generalize (rateFloats.computeParams n args.fp).1 = m at *
    generalize (rateFloats.computeParams n args.fp).2 = k at *
    obtain ⟨bitset, hfill, hbuild⟩ := BuildBloom.exists_of_bind_ok hbuild
    obtain ⟨header, hpack, hbuild⟩ := BuildBloom.exists_of_bind_ok hbuild
    obtain ⟨misses, _, hbuild⟩ := BuildBloom.exists_of_bind_ok hbuild
    simp only [Except.ok.injEq, Prod.mk.injEq, Option.some.injEq] at hbuild
    obtain ⟨_, hlength, hheader⟩ := BuildBloom.packHeader_ok hpack
    have hmax' : m.toNat < 2 ^ 64 := m.toNat_lt
    have hkmax' : k.toNat < 2 ^ 32 := k.toNat_lt
    rw [← hds, BuildBloom.fillBitset_eq hm hdvd hmax' hk hkmax',
      Except.ok.injEq] at hfill
    rw [← hds, List.length_map] at hlength hheader
    have hserialize := BuildBloom.serialize_addAll hm hdvd hmax' hk hkmax'
      (show ds.length < 2 ^ 64 by omega)
    rw [hfill, ← hheader, hbuild.2, UInt64.ofNat_toNat,
      UInt32.ofNat_toNat] at hserialize
    exact hserialize

/-- Rates in thousandths.  The size is that of the default rate, one, and the
rounds are the same for any count. -/
def thousandths : RateFloats ℕ where
  inUnit := fun p => decide (0 < p ∧ p < 1000)
  defaultRate := 1
  ceilBits := fun n _ => (14378 * n + 999) / 1000
  lround := fun _ _ => 11

def pyThousandths : BuildBloom.Floats ℕ where
  inUnit := fun p => decide (0 < p ∧ p < 1000)
  defaultRate := 1
  ceilBits := fun n _ => .ok ((14378 * n + 999) / 1000)
  floorRounds := fun _ _ => .ok 11

/-- Two digests, with a rate of zero that both programs replace. -/
theorem rate_builders_agree_sample :
    ((BloomBuilder.withRate thousandths 2 0).addAll
        [⟨List.replicate 20 0, rfl⟩, ⟨List.replicate 20 171, rfl⟩]).serialize =
      kBloomMagic ++ leBytes 4 1 ++ leBytes 4 11 ++ leBytes 8 32 ++
        leBytes 8 2 ++ leBytes 4 1 ++ List.replicate 28 0 ++
        [15, 120, 192, 3] := by
  have hsame : BuildBloom.SameFloats pyThousandths thousandths 2 0 :=
    ⟨rfl, rfl, rfl, by decide, rfl⟩
  have hbuild : BuildBloom.buildFile pyThousandths ⟨false, 0, none, true⟩
      (List.replicate 40 '0' ++ '\n' :: (List.replicate 20 ['a', 'b']).flatten) =
        .ok (0, some (kBloomMagic ++ leBytes 4 1 ++ leBytes 4 11 ++
          leBytes 8 32 ++ leBytes 8 2 ++ leBytes 4 1 ++ List.replicate 28 0 ++
          [15, 120, 192, 3])) := rfl
  exact rate_builders_agree hsame rfl hbuild rfl

end PwFilter
