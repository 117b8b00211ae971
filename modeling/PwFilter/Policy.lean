import PwFilter.Blacklist
import PwFilter.NameTokens

/-!
# The rule cascade

`Validator.evaluate` is the cascade of `Validator::Evaluate`, cheapest rule
first.  `Validator.checks` lists the same tests as one test a step, with one
step for each company term; evaluation stops at the first step that holds.
-/

namespace PwFilter

inductive RuleId where
  | ok
  | tooShort
  | tooLong
  | notEnoughClasses
  | repeatRun
  | sequence
  | keyboardPattern
  | containsAccountName
  | containsFullName
  | companyTerm
  | blacklisted
  | breached
  | internalError
  deriving DecidableEq, Repr

structure ValidationResult where
  allowed : Bool
  rule : RuleId
  deriving DecidableEq, Repr

namespace ValidationResult

def allow : ValidationResult := { allowed := true, rule := .ok }

def reject (r : RuleId) : ValidationResult := { allowed := false, rule := r }

@[simp] theorem allow_allowed : allow.allowed = true := rfl

@[simp] theorem reject_allowed (r : RuleId) : (reject r).allowed = false := rfl

end ValidationResult

structure PolicyConfig where
  minLength : ℕ := 12
  maxLength : ℕ := 256
  requiredClasses : ℤ := 3
  rejectKeyboardPatterns : Bool := true
  rejectSequences : Bool := true
  sequenceMinRun : ℕ := 4
  keyboardMinRun : ℕ := 4
  maxRepeatRun : ℕ := 4
  rejectContainsAccount : Bool := true
  rejectContainsFullname : Bool := true
  minIdentityToken : ℕ := 3
  companyTerms : List (List UInt16) := []
  checkBreach : Bool := true
  failOpenOnError : Bool := true

/-- The configuration with the two borrowed services, each possibly null.  An
`IBreachChecker` is what its `IsBreached` answers. -/
structure Validator where
  cfg : PolicyConfig
  blacklist : Option Blacklist
  breach : Option (List UInt16 → Bool)

namespace Validator

def inBlacklist (v : Validator) (password : List UInt16) : Bool :=
  match v.blacklist with
  | some blacklist => blacklist.contains password
  | none => false

def inBreachCorpus (v : Validator) (password : List UInt16) : Bool :=
  match v.breach with
  | some isBreached => isBreached password
  | none => false

def evaluate (v : Validator) (password accountName fullName : List UInt16) :
    ValidationResult :=
  if password.length < v.cfg.minLength then .reject .tooShort
  else if password.length > v.cfg.maxLength then .reject .tooLong
  else if v.cfg.requiredClasses > 0 ∧
      (countCharClasses password : ℤ) < v.cfg.requiredClasses then
    .reject .notEnoughClasses
  else if v.cfg.maxRepeatRun > 0 ∧
      hasExcessiveRepeat password v.cfg.maxRepeatRun then
    .reject .repeatRun
  else if v.cfg.rejectSequences ∧
      hasSequentialRun password v.cfg.sequenceMinRun then
    .reject .sequence
  else if v.cfg.rejectKeyboardPatterns ∧
      hasKeyboardWalk password v.cfg.keyboardMinRun then
    .reject .keyboardPattern
  else if v.cfg.rejectContainsAccount ∧ !accountName.isEmpty ∧
      containsAccount password accountName v.cfg.minIdentityToken then
    .reject .containsAccountName
  else if v.cfg.rejectContainsFullname ∧ !fullName.isEmpty ∧
      containsFullNameToken password fullName v.cfg.minIdentityToken then
    .reject .containsFullName
  else if v.cfg.companyTerms.any fun term =>
      !term.isEmpty && containsIgnoreCase password term then
    .reject .companyTerm
  else if v.inBlacklist password then .reject .blacklisted
  else if v.cfg.checkBreach ∧ v.inBreachCorpus password then .reject .breached
  else .allow

/-! ## Evaluation as a sequence of steps -/

def localChecks (v : Validator) (password accountName fullName : List UInt16) :
    List (RuleId × Bool) :=
  [ (.tooShort, decide (password.length < v.cfg.minLength)),
    (.tooLong, decide (password.length > v.cfg.maxLength)),
    (.notEnoughClasses, decide (v.cfg.requiredClasses > 0 ∧
      (countCharClasses password : ℤ) < v.cfg.requiredClasses)),
    (.repeatRun, decide (v.cfg.maxRepeatRun > 0) &&
      hasExcessiveRepeat password v.cfg.maxRepeatRun),
    (.sequence, v.cfg.rejectSequences &&
      hasSequentialRun password v.cfg.sequenceMinRun),
    (.keyboardPattern, v.cfg.rejectKeyboardPatterns &&
      hasKeyboardWalk password v.cfg.keyboardMinRun),
    (.containsAccountName, v.cfg.rejectContainsAccount &&
      (!accountName.isEmpty &&
        containsAccount password accountName v.cfg.minIdentityToken)),
    (.containsFullName, v.cfg.rejectContainsFullname &&
      (!fullName.isEmpty &&
        containsFullNameToken password fullName v.cfg.minIdentityToken)) ]

/-- One test for each company term, then the two services. -/
def checks (v : Validator) (password accountName fullName : List UInt16) :
    List (RuleId × Bool) :=
  v.localChecks password accountName fullName ++
    (v.cfg.companyTerms.map fun term =>
      (.companyTerm, !term.isEmpty && containsIgnoreCase password term)) ++
    [ (.blacklisted, v.inBlacklist password),
      (.breached, v.cfg.checkBreach && v.inBreachCorpus password) ]

/-- The first test that holds decides. -/
def verdict : List (RuleId × Bool) → ValidationResult
  | [] => .allow
  | (rule, hit) :: rest => if hit then .reject rule else verdict rest

theorem verdict_append_of_none
    {before after : List (RuleId × Bool)} (hmiss : ∀ c ∈ before, c.2 = false) :
    verdict (before ++ after) = verdict after := by
  induction before with
  | nil => rfl
  | cons c before ih =>
      have hc := hmiss c List.mem_cons_self
      have hrest := ih fun d hd => hmiss d (List.mem_cons_of_mem c hd)
      simp only [List.cons_append, verdict, hc, Bool.false_eq_true, if_false]
      exact hrest

theorem verdict_map_append
    (terms : List (List UInt16)) (test : List UInt16 → Bool) (rule : RuleId)
    (after : List (RuleId × Bool)) :
    verdict ((terms.map fun term => (rule, test term)) ++ after) =
      if terms.any test then .reject rule else verdict after := by
  induction terms with
  | nil => rfl
  | cons term terms ih =>
      simp only [List.map_cons, List.cons_append, verdict, List.any_cons, ih]
      by_cases hterm : test term = true
      · simp [hterm]
      · simp [hterm]

theorem evaluate_eq_verdict
    (v : Validator) (password accountName fullName : List UInt16) :
    v.evaluate password accountName fullName =
      verdict (v.checks password accountName fullName) := by
  simp only [evaluate, checks, localChecks, List.cons_append,
    List.nil_append, verdict, verdict_map_append, Bool.and_eq_true,
    decide_eq_true_eq]

theorem verdict_allowed_iff (checks : List (RuleId × Bool)) :
    (verdict checks).allowed = true ↔ ∀ c ∈ checks, c.2 = false := by
  induction checks with
  | nil => simp [verdict]
  | cons c rest ih =>
      cases hc : c.2 with
      | true => simp [verdict, hc]
      | false => simp [verdict, hc, ih]

theorem verdict_not_allowed_of_mem
    {checks : List (RuleId × Bool)} {rule : RuleId}
    (hfires : (rule, true) ∈ checks) : (verdict checks).allowed = false := by
  cases hallowed : (verdict checks).allowed with
  | false => rfl
  | true =>
      have hmiss := (verdict_allowed_iff checks).mp hallowed _ hfires
      cases hmiss

theorem mem_of_verdict_reject
    {checks : List (RuleId × Bool)} {rule : RuleId}
    (h : verdict checks = .reject rule) : (rule, true) ∈ checks := by
  induction checks with
  | nil => cases h
  | cons c rest ih =>
      obtain ⟨r, hit⟩ := c
      cases hit with
      | true =>
          have hrule : r = rule := by
            simpa [verdict, ValidationResult.reject] using h
          rw [hrule]
          exact List.mem_cons_self
      | false =>
          have hrest : verdict rest = .reject rule := by simpa [verdict] using h
          exact List.mem_cons_of_mem _ (ih hrest)

end Validator

end PwFilter
