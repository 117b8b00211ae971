import PwFilter.BreachBloom
import PwFilter.DeclarativePolicy

/-!
# Tightening a policy

A policy is at least as strict as another when every knob is turned the strict
way and every list only grows.  Rule by rule, a password the laxer policy
forbids is then forbidden by the stricter one.
-/

namespace PwFilter

open ConsecutiveRuns ProbeFilter

structure StricterConfig (cfg₁ cfg₂ : PolicyConfig) : Prop where
  minLength : cfg₁.minLength ≤ cfg₂.minLength
  maxLength : cfg₂.maxLength ≤ cfg₁.maxLength
  requiredClasses : cfg₁.requiredClasses ≤ cfg₂.requiredClasses
  maxRepeatRun : cfg₁.maxRepeatRun = 0 ∨
    (cfg₂.maxRepeatRun ≠ 0 ∧ cfg₂.maxRepeatRun ≤ cfg₁.maxRepeatRun)
  rejectSequences : cfg₁.rejectSequences = true → cfg₂.rejectSequences = true
  sequenceMinRun : 2 ≤ cfg₂.sequenceMinRun ∧
    cfg₂.sequenceMinRun ≤ cfg₁.sequenceMinRun
  rejectKeyboardPatterns : cfg₁.rejectKeyboardPatterns = true →
    cfg₂.rejectKeyboardPatterns = true
  keyboardMinRun : 2 ≤ cfg₂.keyboardMinRun ∧
    cfg₂.keyboardMinRun ≤ cfg₁.keyboardMinRun
  rejectContainsAccount : cfg₁.rejectContainsAccount = true →
    cfg₂.rejectContainsAccount = true
  rejectContainsFullname : cfg₁.rejectContainsFullname = true →
    cfg₂.rejectContainsFullname = true
  minIdentityToken : cfg₂.minIdentityToken ≤ cfg₁.minIdentityToken
  companyTerms : ∀ term ∈ cfg₁.companyTerms, term ∈ cfg₂.companyTerms
  checkBreach : cfg₁.checkBreach = true → cfg₂.checkBreach = true

/-- A blacklist that is present stays, with more entries, in the same mode or
case-insensitive. -/
def StricterBlacklist (banned₁ banned₂ : Option BannedList) : Prop :=
  ∀ list₁ ∈ banned₁, ∃ list₂ ∈ banned₂,
    (∀ entry ∈ list₁.entries, entry ∈ list₂.entries) ∧
      (list₁.caseInsensitive = list₂.caseInsensitive ∨
        list₂.caseInsensitive = true)

def BuiltFrom (bf : BloomFilter) (mBits : UInt64) (k : UInt32)
    (ds : List Sha1Digest) : Prop :=
  BloomFilter.fromMemory
    (some ((BloomBuilder.withParams mBits k).addAll ds).serialize) = some bf

/-- A filter that is present stays, built with the same parameters from more
digests. -/
def StricterFilter (filter₁ filter₂ : Option BloomFilter) : Prop :=
  ∀ bf₁ ∈ filter₁, ∃ bf₂ ∈ filter₂, ∃ mBits k ds₁ ds₂,
    BuiltFrom bf₁ mBits k ds₁ ∧ BuiltFrom bf₂ mBits k ds₂ ∧
      ∀ d ∈ ds₁, d ∈ ds₂

def deployedServices (banned : Option BannedList)
    (filter : Option BloomFilter) (stack : Vector UInt8 4096)
    (shaMemory : Vector UInt8 64) : Services :=
  { banned := banned
    breached := filter.map fun bf =>
      BloomBreachChecker.isBreached bf stack shaMemory }

theorem BannedList.Bans.mono
    {list₁ list₂ : BannedList} {password : List UInt16}
    (hsub : ∀ entry ∈ list₁.entries, entry ∈ list₂.entries)
    (hmode : list₁.caseInsensitive = list₂.caseInsensitive ∨
      list₂.caseInsensitive = true)
    (hban : list₁.Bans password) : list₂.Bans password := by
  obtain ⟨entry, hentry, hne, hmatch⟩ := hban
  refine ⟨entry, hsub entry hentry, hne, ?_⟩
  rcases hmode with hsame | hci
  · rw [← hsame]
    exact hmatch
  · rw [if_pos hci]
    by_cases hmode₁ : list₁.caseInsensitive = true
    · rw [if_pos hmode₁] at hmatch
      exact hmatch
    · rw [if_neg hmode₁] at hmatch
      rw [hmatch]

theorem maybeContains_mono
    {bf₁ bf₂ : BloomFilter} {mBits : UInt64} {k : UInt32}
    {ds₁ ds₂ : List Sha1Digest} {q : Sha1Digest}
    (hbuilt₁ : BuiltFrom bf₁ mBits k ds₁)
    (hbuilt₂ : BuiltFrom bf₂ mBits k ds₂) (hsub : ∀ d ∈ ds₁, d ∈ ds₂)
    (hq : bf₁.maybeContains q = true) : bf₂.maybeContains q = true :=
  (maybeContains_built_iff hbuilt₂ q).mpr
    (((maybeContains_built_iff hbuilt₁ q).mp hq).mono hsub)

section

variable {cfg₁ cfg₂ : PolicyConfig} {banned₁ banned₂ : Option BannedList}
variable {filter₁ filter₂ : Option BloomFilter}

theorem Violates.tighten
    {stack₁ stack₂ : Vector UInt8 4096} {shaMemory₁ shaMemory₂ : Vector UInt8 64}
    (hcfg : StricterConfig cfg₁ cfg₂)
    (hbanned : StricterBlacklist banned₁ banned₂)
    (hfilter : StricterFilter filter₁ filter₂)
    {password accountName fullName : List UInt16} {rule : RuleId}
    (hviolates : Violates cfg₁
      (deployedServices banned₁ filter₁ stack₁ shaMemory₁)
      password accountName fullName rule) :
    Violates cfg₂ (deployedServices banned₂ filter₂ stack₂ shaMemory₂)
      password accountName fullName rule := by
  cases rule with
  | ok => exact hviolates
  | tooShort => exact lt_of_lt_of_le hviolates hcfg.minLength
  | tooLong => exact lt_of_le_of_lt hcfg.maxLength hviolates
  | notEnoughClasses =>
      obtain ⟨hpos, hfew⟩ := hviolates
      exact ⟨lt_of_lt_of_le hpos hcfg.requiredClasses,
        lt_of_lt_of_le hfew hcfg.requiredClasses⟩
  | repeatRun =>
      obtain ⟨hpos, hrun⟩ := hviolates
      rcases hcfg.maxRepeatRun with hzero | ⟨hne, hle⟩
      · omega
      · exact ⟨Nat.pos_of_ne_zero hne, hrun.anti (Nat.succ_le_succ hle)⟩
  | sequence =>
      obtain ⟨hflag, _, hrun⟩ := hviolates
      obtain ⟨htwo, hle⟩ := hcfg.sequenceMinRun
      refine ⟨hcfg.rejectSequences hflag, htwo, ?_⟩
      rcases hrun with hup | hdown
      · exact Or.inl (hup.anti hle)
      · exact Or.inr (hdown.anti hle)
  | keyboardPattern =>
      obtain ⟨hflag, htwo₁, hrun⟩ := hviolates
      obtain ⟨htwo, hle⟩ := hcfg.keyboardMinRun
      refine ⟨hcfg.rejectKeyboardPatterns hflag, htwo, ?_⟩
      rw [← hasRun_keyStep_iff htwo₁] at hrun
      rw [← hasRun_keyStep_iff htwo]
      exact hrun.anti hle
  | containsAccountName =>
      obtain ⟨hflag, hne, hlong, hin⟩ := hviolates
      exact ⟨hcfg.rejectContainsAccount hflag, hne,
        le_trans hcfg.minIdentityToken hlong, hin⟩
  | containsFullName =>
      obtain ⟨hflag, token, htoken, hlong, hin⟩ := hviolates
      exact ⟨hcfg.rejectContainsFullname hflag, token, htoken,
        le_trans hcfg.minIdentityToken hlong, hin⟩
  | companyTerm =>
      obtain ⟨term, hterm, hne, hin⟩ := hviolates
      exact ⟨term, hcfg.companyTerms term hterm, hne, hin⟩
  | blacklisted =>
      obtain ⟨list₁, hlist₁, hban⟩ := hviolates
      obtain ⟨list₂, hlist₂, hsub, hmode⟩ := hbanned list₁ hlist₁
      exact ⟨list₂, hlist₂, hban.mono hsub hmode⟩
  | breached =>
      obtain ⟨hflag, isBreached, hchecker, hbreached⟩ := hviolates
      obtain ⟨bf₁, hbf₁, rfl⟩ := Option.map_eq_some_iff.mp hchecker
      obtain ⟨bf₂, hbf₂, mBits, k, ds₁, ds₂, hbuilt₁, hbuilt₂, hsub⟩ :=
        hfilter bf₁ hbf₁
      refine ⟨hcfg.checkBreach hflag, _,
        Option.map_eq_some_iff.mpr ⟨bf₂, hbf₂, rfl⟩, ?_⟩
      rw [BloomBreachChecker.isBreached_eq, Bool.and_eq_true] at hbreached ⊢
      exact ⟨hbreached.1,
        maybeContains_mono hbuilt₁ hbuilt₂ hsub hbreached.2⟩
  | internalError => exact hviolates

/-- Tightening a policy never admits a password it refused before. -/
theorem tightening_never_admits
    (stack₁ stack₂ : Vector UInt8 4096)
    (shaMemory₁ shaMemory₂ : Vector UInt8 64)
    (hcfg : StricterConfig cfg₁ cfg₂)
    (hbanned : StricterBlacklist banned₁ banned₂)
    (hfilter : StricterFilter filter₁ filter₂)
    (password accountName fullName : List UInt16)
    (hallowed : (((deployedServices banned₂ filter₂ stack₂
      shaMemory₂).validator cfg₂).evaluate password accountName
        fullName).allowed = true) :
    (((deployedServices banned₁ filter₁ stack₁
      shaMemory₁).validator cfg₁).evaluate password accountName
        fullName).allowed = true := by
  rw [evaluate_allowed_iff] at hallowed ⊢
  intro rule hrule hviolates
  exact hallowed rule hrule (hviolates.tighten hcfg hbanned hfilter)

/-- A deployment that bans `a` exactly, and a stricter one that bans more and
asks for more, over filters built from no digest and from one. -/
theorem tightening_never_admits_sample :
    ∃ bf : BloomFilter, BuiltFrom bf 64 3 [] ∧
      (((deployedServices (some ⟨false, [asciiUnits ['a']]⟩) (some bf)
        (Vector.replicate 4096 0) (Vector.replicate 64 0)).validator
          { checkBreach := false }).evaluate
            (asciiUnits ['T', 'r', '0', 'u', 'b', '4', 'd', 'o', 'r', '&', 'x',
              '9', '!', 'Q']) [] []).allowed = true := by
  have hsound := BloomBuilder.withParams_sound 3
    (BloomBuilder.withParams_m_pos 3
      (by decide : (64 : UInt64).toNat ≤ 2 ^ 64 - 8))
  obtain ⟨bf₁, hread₁, _⟩ := (BloomBuilder.addAll_spec hsound []).1.fromMemory
  obtain ⟨bf₂, hread₂, _⟩ :=
    (BloomBuilder.addAll_spec hsound [sha1Value [0x61]]).1.fromMemory
  have hfilter : StricterFilter (some bf₁) (some bf₂) := by
    intro bf hbf
    cases hbf
    exact ⟨bf₂, rfl, 64, 3, [], [sha1Value [0x61]], hread₁, hread₂, by simp⟩
  have hbanned : StricterBlacklist
      (some { caseInsensitive := false, entries := [asciiUnits ['a']] })
      (some { caseInsensitive := true
              entries := [asciiUnits ['b'], asciiUnits ['a']] }) := by
    intro list₁ hlist₁
    cases hlist₁
    exact ⟨_, rfl, by simp, Or.inr rfl⟩
  have hcfg : StricterConfig { checkBreach := false }
      { minLength := 14, maxLength := 64, requiredClasses := 4,
        maxRepeatRun := 2, sequenceMinRun := 3, keyboardMinRun := 3,
        companyTerms := [asciiUnits ['n', 'a', 's']], checkBreach := false } := by
    constructor <;> simp
  exact ⟨bf₁, hread₁, tightening_never_admits _ (Vector.replicate 4096 0) _
    (Vector.replicate 64 0) hcfg hbanned hfilter _ [] [] rfl⟩

end

end PwFilter
