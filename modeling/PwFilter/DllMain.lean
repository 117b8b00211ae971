import PwFilter.FilterContext

/-!
# The exported routines

The shim around the validator.  `Evaluate` runs test by test, and a schedule
says at which test an error is raised: a C++ exception, which only a test not
declared noexcept can let out, or a structured exception, which any memory
access can cause.  The two handlers are `catch (...)` and `__except`.
-/

namespace PwFilter

open Allocation

/-! ## Arguments -/

/-- An LSA `UNICODE_STRING`; `length` is in bytes. -/
structure UnicodeString where
  length : UInt16
  buffer : Option (List UInt16)

/-- Whole units, all of them in the buffer. -/
def UnicodeString.WellFormed (s : UnicodeString) : Prop :=
  s.length.toNat % 2 = 0 ∧
    match s.buffer with
    | none => s.length = 0
    | some units => s.length.toNat / 2 ≤ units.length

def viewString (s : Option UnicodeString) : List UInt16 :=
  match s with
  | none => []
  | some s =>
      match s.buffer with
      | none => []
      | some units =>
          if s.length = 0 then [] else units.take (s.length.toNat / 2)

/-! ## Evaluation with errors -/

inductive Fault where
  | cppException
  | structuredException
  deriving DecidableEq

/-- The tests that call a function not declared noexcept.  The lookup in an
empty blacklist returns before it allocates. -/
def Validator.mayThrow (v : Validator) : RuleId → Bool
  | .blacklisted =>
      match v.blacklist with
      | some blacklist => decide (blacklist.set ≠ ∅)
      | none => false
  | .breached => v.cfg.checkBreach && v.breach.isSome
  | _ => false

def faultAt (throws : Bool) : Option Fault → Option Fault
  | some .cppException => if throws then some .cppException else none
  | scheduled => scheduled

inductive Evaluation where
  | completed (result : ValidationResult)
  | raised (fault : Fault)
  deriving DecidableEq

def evaluateFrom (mayThrow : RuleId → Bool) (faults : ℕ → Option Fault) :
    ℕ → List (RuleId × Bool) → Evaluation
  | _, [] => .completed .allow
  | i, (rule, hit) :: rest =>
      match faultAt (mayThrow rule) (faults i) with
      | some fault => .raised fault
      | none =>
          if hit then .completed (.reject rule)
          else evaluateFrom mayThrow faults (i + 1) rest

def Validator.evaluateUnder (v : Validator) (faults : ℕ → Option Fault)
    (password accountName fullName : List UInt16) : Evaluation :=
  evaluateFrom v.mayThrow faults 0 (v.checks password accountName fullName)

/-! ## The exports -/

/-- How `DoFilter` ends: with a result, or with a structured exception passing
through it. -/
inductive Frame where
  | returns (accepted : Bool)
  | unwinds
  deriving DecidableEq

def doFilter (gCtx : Option FilterContext)
    (account full password : Option UnicodeString)
    (faults : ℕ → Option Fault) : Frame :=
  match gCtx with
  | none => .returns true  -- not initialized -> fail open
  | some ctx =>
      match password with
      | none => .returns true
      | some s =>
          if s.buffer = none ∧ s.length ≠ 0 then .returns true
          else
            match ctx.validator with
            | none => .unwinds  -- `*validator_` of a null pointer
            | some validator =>
                match validator.evaluateUnder faults (viewString password)
                    (viewString account) (viewString full) with
                | .completed r => .returns r.allowed
                | .raised .cppException => .returns true  -- `catch (...)`
                | .raised .structuredException => .unwinds

def passwordFilter (gCtx : Option FilterContext)
    (account full password : Option UnicodeString)
    (faults : ℕ → Option Fault) : Bool :=
  match doFilter gCtx account full password faults with
  | .returns accepted => accepted
  | .unwinds => true  -- `__except`

def initWorker (host : Host) (gCtx : Option FilterContext) :
    Alloc (Option FilterContext) :=
  Alloc.tryCatch (FilterContext.create host) (pure gCtx)

/-- `InitializeChangeNotify` in a process that has just loaded the DLL, with
`g_ctx` null. -/
def initializeChangeNotify (host : Host) :
    Alloc (Bool × Option FilterContext) := do
  let gCtx ← initWorker host none
  pure (true, gCtx)

/-! ## Evaluation without errors -/

theorem evaluateFrom_no_fault
    (mayThrow : RuleId → Bool) {faults : ℕ → Option Fault}
    (hnone : ∀ i, faults i = none) (i : ℕ) (tests : List (RuleId × Bool)) :
    evaluateFrom mayThrow faults i tests =
      .completed (Validator.verdict tests) := by
  induction tests generalizing i with
  | nil => rfl
  | cons test rest ih =>
      obtain ⟨rule, hit⟩ := test
      rw [evaluateFrom, hnone i, Validator.verdict]
      cases hit with
      | true => rfl
      | false => exact ih (i + 1)

theorem Validator.evaluateUnder_no_fault
    (v : Validator) {faults : ℕ → Option Fault}
    (hnone : ∀ i, faults i = none)
    (password accountName fullName : List UInt16) :
    v.evaluateUnder faults password accountName fullName =
      .completed (v.evaluate password accountName fullName) := by
  rw [evaluateUnder, evaluateFrom_no_fault _ hnone, evaluate_eq_verdict]

end PwFilter
