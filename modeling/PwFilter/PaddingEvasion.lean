import PwFilter.Policy

/-!
# Padding a rejected password

What the run detectors and the substring tests find in a string they also find
in every string around it, so a password they reject cannot be saved by
putting something before or after it.
-/

namespace PwFilter

open ConsecutiveRuns

section

variable {s t : List UInt16}

theorem hasExcessiveRepeat_mono
    {maxRun : ℕ} (hmax : 1 ≤ maxRun) (hst : s <:+: t)
    (hs : hasExcessiveRepeat s maxRun = true) :
    hasExcessiveRepeat t maxRun = true := by
  rw [hasExcessiveRepeat_iff hmax] at hs ⊢
  exact hs.widen hst

theorem hasSequentialRun_mono
    {minRun : ℕ} (hst : s <:+: t) (hs : hasSequentialRun s minRun = true) :
    hasSequentialRun t minRun = true := by
  rw [hasSequentialRun_iff] at hs ⊢
  obtain ⟨hmin, hrun⟩ := hs
  refine ⟨hmin, ?_⟩
  rcases hrun with hup | hdown
  · exact Or.inl (hup.widen hst)
  · exact Or.inr (hdown.widen hst)

theorem hasKeyboardWalk_mono
    {minRun : ℕ} (hst : s <:+: t) (hs : hasKeyboardWalk s minRun = true) :
    hasKeyboardWalk t minRun = true := by
  rw [hasKeyboardWalk_iff] at hs ⊢
  exact ⟨hs.1, hs.2.widen hst⟩

theorem containsIgnoreCase_mono
    {needle : List UInt16} (hst : s <:+: t)
    (hs : containsIgnoreCase s needle = true) :
    containsIgnoreCase t needle = true := by
  rw [containsIgnoreCase_iff] at hs ⊢
  exact ⟨hs.1, hs.2.trans (hst.map foldCase)⟩

theorem containsAccount_mono
    {account : List UInt16} {minLen : ℕ} (hst : s <:+: t)
    (hs : containsAccount s account minLen = true) :
    containsAccount t account minLen = true := by
  rw [containsAccount_iff] at hs ⊢
  exact ⟨hs.1, hs.2.1, hs.2.2.trans (hst.map foldCase)⟩

theorem containsFullNameToken_mono
    {fullName : List UInt16} {minTokenLen : ℕ} (hst : s <:+: t)
    (hs : containsFullNameToken s fullName minTokenLen = true) :
    containsFullNameToken t fullName minTokenLen = true := by
  rw [containsFullNameToken_iff] at hs ⊢
  obtain ⟨token, htoken, hlength, hin⟩ := hs
  exact ⟨token, htoken, hlength, hin.trans (hst.map foldCase)⟩

end

namespace Validator

/-- The rules that look for something inside the password. -/
def searchRules : List RuleId :=
  [.repeatRun, .sequence, .keyboardPattern, .containsAccountName,
    .containsFullName, .companyTerm]

/-- A search rule that fires on a string fires on every string around it. -/
theorem fires_mono
    (v : Validator) {s t accountName fullName : List UInt16} {rule : RuleId}
    (hrule : rule ∈ searchRules) (hst : s <:+: t)
    (hs : (rule, true) ∈ v.checks s accountName fullName) :
    (rule, true) ∈ v.checks t accountName fullName := by
  have hcases : rule = .repeatRun ∨ rule = .sequence ∨
      rule = .keyboardPattern ∨ rule = .containsAccountName ∨
      rule = .containsFullName ∨ rule = .companyTerm := by
    simpa [searchRules] using hrule
  rcases hcases with rfl | rfl | rfl | rfl | rfl | rfl
  · have hfires : 0 < v.cfg.maxRepeatRun ∧
        hasExcessiveRepeat s v.cfg.maxRepeatRun = true := by
      simpa [checks, localChecks] using hs
    simpa [checks, localChecks] using
      And.intro hfires.1 (hasExcessiveRepeat_mono hfires.1 hst hfires.2)
  · have hfires : v.cfg.rejectSequences = true ∧
        hasSequentialRun s v.cfg.sequenceMinRun = true := by
      simpa [checks, localChecks] using hs
    simpa [checks, localChecks] using
      And.intro hfires.1 (hasSequentialRun_mono hst hfires.2)
  · have hfires : v.cfg.rejectKeyboardPatterns = true ∧
        hasKeyboardWalk s v.cfg.keyboardMinRun = true := by
      simpa [checks, localChecks] using hs
    simpa [checks, localChecks] using
      And.intro hfires.1 (hasKeyboardWalk_mono hst hfires.2)
  · have hfires : v.cfg.rejectContainsAccount = true ∧ accountName ≠ [] ∧
        containsAccount s accountName v.cfg.minIdentityToken = true := by
      simpa [checks, localChecks] using hs
    simpa [checks, localChecks] using
      And.intro hfires.1
        (And.intro hfires.2.1 (containsAccount_mono hst hfires.2.2))
  · have hfires : v.cfg.rejectContainsFullname = true ∧ fullName ≠ [] ∧
        containsFullNameToken s fullName v.cfg.minIdentityToken = true := by
      simpa [checks, localChecks] using hs
    simpa [checks, localChecks] using
      And.intro hfires.1
        (And.intro hfires.2.1 (containsFullNameToken_mono hst hfires.2.2))
  · have hfires : ∃ term ∈ v.cfg.companyTerms, term ≠ [] ∧
        containsIgnoreCase s term = true := by
      simpa [checks, localChecks] using hs
    obtain ⟨term, hterm, hne, hin⟩ := hfires
    have hterms : ∃ term ∈ v.cfg.companyTerms, term ≠ [] ∧
        containsIgnoreCase t term = true :=
      ⟨term, hterm, hne, containsIgnoreCase_mono hst hin⟩
    simpa [checks, localChecks] using hterms

end Validator

/-- A password that a search rule rejects is rejected with anything put before
and after it. -/
theorem padding_cannot_evade
    (v : Validator) (accountName fullName before s after : List UInt16)
    (rule : RuleId)
    (hrule : rule ∈ [RuleId.repeatRun, .sequence, .keyboardPattern,
      .containsAccountName, .containsFullName, .companyTerm])
    (hreject : v.evaluate s accountName fullName = .reject rule) :
    (v.evaluate (before ++ s ++ after) accountName fullName).allowed =
      false := by
  rw [Validator.evaluate_eq_verdict] at hreject ⊢
  apply Validator.verdict_not_allowed_of_mem
  apply Validator.fires_mono v hrule (List.infix_append before s after)
  exact Validator.mem_of_verdict_reject hreject

/-- `12Bob9!` contains the token `Bob` of the name, and so does anything
around it. -/
theorem padding_cannot_evade_name :
    (Validator.evaluate
        { cfg := { minLength := 4 }, blacklist := none, breach := none }
        (asciiUnits ['#', 'T', '~'] ++ asciiUnits ['1', '2', 'B', 'o', 'b',
          '9', '!'] ++ asciiUnits ['z', 'Q', '5', '?'])
        [] (asciiUnits ['A', 'n', ' ', 'B', 'O', 'B'])).allowed = false :=
  padding_cannot_evade _ [] _ _ _ _ .containsFullName (by decide) (by decide)

end PwFilter
