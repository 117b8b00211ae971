import PwFilter.BloomRoundTrip
import PwFilter.Policy
import PwFilter.Sha1Streaming
import PwFilter.Utf

/-!
# The offline breach check

`IsBreached` encodes the password into a stack buffer, hashes it and asks the
filter.  Both the stack buffer and the hash object start with whatever was in
their memory, and the run returns what they hold when they are released.
-/

namespace PwFilter

open UnicodeText

def kMaxUtf8 : ℕ := 4096

/-- What a run of `IsBreached` leaves in its two arrays: `utf8`, and `buffer_`
of the hash object when one was made. -/
structure BreachResidue where
  utf8 : List UInt8
  buffer : Option (List UInt8)

namespace BloomBreachChecker

def isBreachedRun (filter : BloomFilter) (stack : Vector UInt8 4096)
    (shaMemory : Vector UInt8 64) (password : List UInt16) :
    Bool × BreachResidue :=
  let (n, bytes) := utf16ToUtf8Bounded password stack.toList kMaxUtf8
  match n with
  | none =>
      -- too long to encode within the buffer: fail open
      (false, { utf8 := secureZero bytes kMaxUtf8, buffer := none })
  | some n =>
      let (digest, sha) := sha1HashRun shaMemory (bytes.take n)
      (filter.maybeContains digest,
        { utf8 := secureZero bytes kMaxUtf8
          buffer := some sha.buffer.toList })

def isBreached (filter : BloomFilter) (stack : Vector UInt8 4096)
    (shaMemory : Vector UInt8 64) (password : List UInt16) : Bool :=
  (isBreachedRun filter stack shaMemory password).1

end BloomBreachChecker

def sha1Value (data : List UInt8) : Sha1Digest :=
  { bytes := Fips180.sha1 data, length_eq := Fips180.sha1_length data }

theorem sha1Hash_eq
    (memory : Vector UInt8 64) {data : List UInt8}
    (hsize : data.length < 2 ^ 61) :
    sha1Hash memory data = sha1Value data :=
  Sha1Digest.ext_bytes (sha1Hash_bytes memory hsize)

abbrev passwordBytes (password : List UInt16) : List UInt8 :=
  utf8 (decodeUtf16 password)

namespace BloomBreachChecker

theorem isBreachedRun_fits
    (filter : BloomFilter) (stack : Vector UInt8 4096)
    (shaMemory : Vector UInt8 64) {password : List UInt16}
    (hfit : (passwordBytes password).length ≤ kMaxUtf8) :
    isBreachedRun filter stack shaMemory password =
      (filter.maybeContains (sha1Value (passwordBytes password)),
        { utf8 := List.replicate 4096 0
          buffer := some
            (sha1HashRun shaMemory (passwordBytes password)).2.buffer.toList }) := by
  have hstack : stack.toList.length = 4096 := Vector.length_toList
  have hcap : kMaxUtf8 ≤ stack.toList.length := Nat.le_of_eq hstack.symm
  obtain ⟨hsome, htake⟩ := utf16ToUtf8Bounded_fits hcap hfit
  have hkeep := utf16ToUtf8Bounded_length password stack.toList kMaxUtf8
  have hwipe : secureZero
      (utf16ToUtf8Bounded password stack.toList kMaxUtf8).2 kMaxUtf8 =
      List.replicate 4096 0 := by
    rw [secureZero_eq_replicate (by rw [hkeep]; exact Nat.le_of_eq hstack),
      hkeep, hstack]
  have hdigest : (sha1HashRun shaMemory (passwordBytes password)).1 =
      sha1Value (passwordBytes password) :=
    sha1Hash_eq shaMemory (lt_of_le_of_lt hfit (by norm_num [kMaxUtf8]))
  rw [isBreachedRun]
  simp only [hsome, htake, hwipe, hdigest]

theorem isBreachedRun_overflow
    (filter : BloomFilter) (stack : Vector UInt8 4096)
    (shaMemory : Vector UInt8 64) {password : List UInt16}
    (hlong : kMaxUtf8 < (passwordBytes password).length) :
    isBreachedRun filter stack shaMemory password =
      (false, { utf8 := List.replicate 4096 0, buffer := none }) := by
  have hstack : stack.toList.length = 4096 := Vector.length_toList
  have hnone : (utf16ToUtf8Bounded password stack.toList kMaxUtf8).1 = none :=
    utf16ToUtf8Bounded_overflow hlong
  have hkeep := utf16ToUtf8Bounded_length password stack.toList kMaxUtf8
  have hwipe : secureZero
      (utf16ToUtf8Bounded password stack.toList kMaxUtf8).2 kMaxUtf8 =
      List.replicate 4096 0 := by
    rw [secureZero_eq_replicate (by rw [hkeep]; exact Nat.le_of_eq hstack),
      hkeep, hstack]
  rw [isBreachedRun]
  simp only [hnone, hwipe]

/-- The answer does not depend on the memory the check runs in. -/
theorem isBreached_eq
    (filter : BloomFilter) (stack : Vector UInt8 4096)
    (shaMemory : Vector UInt8 64) (password : List UInt16) :
    isBreached filter stack shaMemory password =
      (decide ((passwordBytes password).length ≤ kMaxUtf8) &&
        filter.maybeContains (sha1Value (passwordBytes password))) := by
  by_cases hfit : (passwordBytes password).length ≤ kMaxUtf8
  · rw [isBreached, isBreachedRun_fits filter stack shaMemory hfit]
    simp [hfit]
  · rw [isBreached,
      isBreachedRun_overflow filter stack shaMemory (Nat.lt_of_not_le hfit)]
    simp [hfit]

end BloomBreachChecker

/-! ## No false negatives -/

theorem Validator.not_allowed_of_breached
    (v : Validator) (password : List UInt16)
    (hcheck : v.cfg.checkBreach = true)
    (hbreach : v.inBreachCorpus password = true)
    (accountName fullName : List UInt16) :
    (v.evaluate password accountName fullName).allowed = false := by
  have hstep : (RuleId.breached, true) ∈
      v.checks password accountName fullName := by
    simp [checks, hcheck, hbreach]
  rw [evaluate_eq_verdict]
  exact verdict_not_allowed_of_mem hstep

theorem BloomBreachChecker.isBreached_of_mem
    {mBits : UInt64} {k : UInt32} {ds : List Sha1Digest} {bf : BloomFilter}
    {password : List UInt16} (stack : Vector UInt8 4096)
    (shaMemory : Vector UInt8 64)
    (hread : BloomFilter.fromMemory
      (some ((BloomBuilder.withParams mBits k).addAll ds).serialize) = some bf)
    (hfit : (passwordBytes password).length ≤ kMaxUtf8)
    (hmem : sha1Value (passwordBytes password) ∈ ds) :
    isBreached bf stack shaMemory password = true := by
  rw [isBreached_eq, decide_eq_true hfit, Bool.true_and,
    maybeContains_built_iff hread]
  exact ProbeFilter.reports_of_mem _ hmem

/-- A password whose digest was added to the filter is reported, and refused
by every policy that asks the checker. -/
theorem breached_password_never_allowed
    (mBits : UInt64) (k : UInt32) (ds : List Sha1Digest)
    (password : List UInt16) (hashMemory shaMemory : Vector UInt8 64)
    (stack : Vector UInt8 4096) (hbits : mBits.toNat ≤ 2 ^ 64 - 8)
    (hpassword : password.length ≤ 1365)
    (hadded : sha1Hash hashMemory (utf8 (decodeUtf16 password)) ∈ ds) :
    (utf16ToUtf8Bounded password stack.toList kMaxUtf8).1 ≠ none ∧
      ∃ bf, BloomFilter.fromMemory
          (some ((BloomBuilder.withParams mBits k).addAll ds).serialize) =
            some bf ∧
        BloomBreachChecker.isBreached bf stack shaMemory password = true ∧
        ∀ (cfg : PolicyConfig) (blacklist : Option Blacklist)
          (accountName fullName : List UInt16), cfg.checkBreach = true →
          (Validator.evaluate
            { cfg := cfg
              blacklist := blacklist
              breach := some
                (BloomBreachChecker.isBreached bf stack shaMemory) }
            password accountName fullName).allowed = false := by
  have hlength := utf8_decodeUtf16_length_le password
  have hfit : (utf8 (decodeUtf16 password)).length ≤ kMaxUtf8 := by
    rw [kMaxUtf8]
    omega
  have hstack : stack.toList.length = 4096 := Vector.length_toList
  have hencoded := (utf16ToUtf8Bounded_fits
    (Nat.le_of_eq hstack.symm : kMaxUtf8 ≤ stack.toList.length) hfit).1
  have hdigest : sha1Value (passwordBytes password) ∈ ds := by
    rw [← sha1Hash_eq hashMemory (lt_of_le_of_lt hfit (by norm_num [kMaxUtf8]))]
    exact hadded
  have hsound := BloomBuilder.withParams_sound k
    (BloomBuilder.withParams_m_pos k hbits)
  obtain ⟨bf, hread, _⟩ :=
    (BloomBuilder.addAll_spec hsound ds).1.fromMemory
  have hbreached := BloomBreachChecker.isBreached_of_mem stack shaMemory hread
    hfit hdigest
  refine ⟨by rw [hencoded]; exact Option.some_ne_none _, bf, hread, hbreached,
    ?_⟩
  intro cfg blacklist accountName fullName hcheck
  apply Validator.not_allowed_of_breached
  · exact hcheck
  · exact hbreached

/-- The second of three digests is that of a password which begins with a lone
surrogate. -/
theorem breached_password_never_allowed_sample :
    ∃ bf, BloomFilter.fromMemory
        (some ((BloomBuilder.withParams 1000 7).addAll
          [sha1Value [0x62],
            sha1Hash (Vector.replicate 64 0)
              (utf8 (decodeUtf16 [0xD800, 0x61])),
            sha1Value [0x63]]).serialize) = some bf ∧
      BloomBreachChecker.isBreached bf (Vector.replicate 4096 0)
        (Vector.replicate 64 0) [0xD800, 0x61] = true := by
  obtain ⟨_, bf, hread, hbreached, _⟩ := breached_password_never_allowed 1000 7
    [sha1Value [0x62],
      sha1Hash (Vector.replicate 64 0) (utf8 (decodeUtf16 [0xD800, 0x61])),
      sha1Value [0x63]]
    [0xD800, 0x61] (Vector.replicate 64 0) (Vector.replicate 64 0)
    (Vector.replicate 4096 0) (by decide) (by decide)
    (List.mem_cons_of_mem _ List.mem_cons_self)
  exact ⟨bf, hread, hbreached⟩

/-! ## What the check leaves in memory -/

/-- When both lookups of a password have returned, the arrays they filled hold
zeros only: the UTF-8 buffer, the block buffer of the hash object and the
normalized key. -/
def NoResidue (filter : BloomFilter) (stack : Vector UInt8 4096)
    (shaMemory : Vector UInt8 64) (bl : Blacklist) (password : List UInt16) :
    Prop :=
  let residue :=
    (BloomBreachChecker.isBreachedRun filter stack shaMemory password).2
  (∀ b ∈ residue.utf8, b = 0) ∧
    (∀ buffer ∈ residue.buffer, ∀ b ∈ buffer, b = 0) ∧
    ∀ b ∈ (bl.containsRun password).2, b = 0

theorem lastBlock_ne_zero
    {rest : List UInt8} {n : ℕ} (hrest : rest.length = n % 64)
    (hn : n ≤ kMaxUtf8) :
    ∃ b ∈ Sha1.lastBlock rest (8 * n), b ≠ 0 := by
  by_cases hshort : rest.length ≤ 55
  · refine ⟨0x80, ?_, by decide⟩
    rw [Sha1.lastBlock, if_pos hshort]
    simp
  · -- the length itself is not zero
    have hmem : ∀ i < 8, UInt8.ofNat (8 * n / 256 ^ (7 - i)) ∈
        Sha1.lastBlock rest (8 * n) := by
      intro i hi
      rw [Sha1.lastBlock, if_neg hshort]
      apply List.mem_append_right
      exact List.mem_map.mpr ⟨i, List.mem_range.mpr hi, rfl⟩
    by_contra hnone
    have hzero : ∀ b ∈ Sha1.lastBlock rest (8 * n), b = 0 :=
      fun b hb => by_contra fun hne => hnone ⟨b, hb, hne⟩
    have hlow := congrArg UInt8.toNat (hzero _ (hmem 7 (by norm_num)))
    have hhigh := congrArg UInt8.toNat (hzero _ (hmem 6 (by norm_num)))
    have hnull : UInt8.toNat 0 = 0 := rfl
    rw [UInt8.toNat_ofNat', hnull] at hlow hhigh
    norm_num at hlow hhigh
    have hsmall : n ≤ 4096 := hn
    omega

/-- The hash object is never wiped, so nothing is left behind only when it was
never made. -/
theorem no_residue_iff_overflow
    (filter : BloomFilter) (stack : Vector UInt8 4096)
    (shaMemory : Vector UInt8 64) (bl : Blacklist) (password : List UInt16) :
    NoResidue filter stack shaMemory bl password ↔
      kMaxUtf8 < (utf8 (decodeUtf16 password)).length := by
  have hzeros : ∀ b ∈ List.replicate 4096 (0 : UInt8), b = 0 :=
    fun b hb => List.eq_of_mem_replicate hb
  have hkey := bl.containsRun_key_wiped password
  constructor
  · intro h
    by_contra hover
    have hfit : (passwordBytes password).length ≤ kMaxUtf8 :=
      Nat.le_of_not_lt hover
    rw [NoResidue, BloomBreachChecker.isBreachedRun_fits filter stack shaMemory
      hfit] at h
    obtain ⟨b, hmem, hne⟩ := lastBlock_ne_zero
      (BlockFold.absorb_rest_length 64 Fips180.compress (by norm_num)
        Fips180.initial (passwordBytes password)) hfit
    have hbuffer := sha1HashRun_buffer shaMemory
      (lt_of_le_of_lt hfit (by norm_num [kMaxUtf8]))
    rw [← hbuffer] at hmem
    exact hne (h.2.1 _ rfl b hmem)
  · intro hover
    rw [NoResidue, BloomBreachChecker.isBreachedRun_overflow filter stack
      shaMemory hover]
    exact ⟨hzeros, by simp, hkey⟩

theorem isBreachedRun_keeps_tail
    (filter : BloomFilter) (stack : Vector UInt8 4096)
    (shaMemory : Vector UInt8 64) {password : List UInt16}
    (hfit : (passwordBytes password).length ≤ kMaxUtf8)
    (hroom : (passwordBytes password).length % 64 ≤ 55) :
    ∃ buffer padding,
      (BloomBreachChecker.isBreachedRun filter stack shaMemory
        password).2.buffer = some buffer ∧
      buffer = (BlockFold.absorb 64 Fips180.compress Fips180.initial
        (passwordBytes password)).2 ++ padding := by
  have hrest := BlockFold.absorb_rest_length 64 Fips180.compress (by norm_num)
    Fips180.initial (passwordBytes password)
  have hbuffer := sha1HashRun_buffer shaMemory
    (lt_of_le_of_lt hfit (by norm_num [kMaxUtf8]))
  rw [Sha1.lastBlock, if_pos (by omega), List.append_assoc] at hbuffer
  exact ⟨_, _, by
    rw [BloomBreachChecker.isBreachedRun_fits filter stack shaMemory hfit],
    hbuffer⟩

/-- After a lookup of the one-letter password `a`, the letter is still in the
block buffer. -/
theorem residue_of_a_letter :
    ∃ bf, BloomFilter.fromMemory
        (some (BloomBuilder.withParams 1000 7).serialize) = some bf ∧
      (∃ buffer, (BloomBreachChecker.isBreachedRun bf (Vector.replicate 4096 0)
          (Vector.replicate 64 0) [0x61]).2.buffer = some buffer ∧
        0x61 ∈ buffer) ∧
      ¬ NoResidue bf (Vector.replicate 4096 0) (Vector.replicate 64 0)
        (Blacklist.new true) [0x61] := by
  have hbytes : passwordBytes [0x61] = [0x61] := by decide
  obtain ⟨bf, hread, _⟩ :=
    (BloomBuilder.withParams_sound 7 (BloomBuilder.withParams_m_pos 7
      (by decide : (1000 : UInt64).toNat ≤ 2 ^ 64 - 8))).fromMemory
  have hfit : (passwordBytes [0x61]).length ≤ kMaxUtf8 := by
    rw [hbytes]
    decide
  obtain ⟨buffer, padding, hbuffer, hsplit⟩ := isBreachedRun_keeps_tail bf
    (Vector.replicate 4096 0) (Vector.replicate 64 0) hfit
    (by rw [hbytes]; decide)
  have hleft : (BlockFold.absorb 64 Fips180.compress Fips180.initial
      (passwordBytes [0x61])).2 = [0x61] := by
    rw [hbytes, BlockFold.absorb_of_lt 64 Fips180.compress _ (by decide)]
  have hmem : (0x61 : UInt8) ∈ buffer := by
    rw [hsplit, hleft]
    exact List.mem_cons_self
  refine ⟨bf, hread, ⟨buffer, hbuffer, hmem⟩, ?_⟩
  intro h
  have hzero := h.2.1 buffer hbuffer 0x61 hmem
  exact absurd hzero (by decide)

end PwFilter
