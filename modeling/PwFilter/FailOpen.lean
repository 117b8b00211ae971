import PwFilter.Initialization

/-!
# What an internal error decides

Both handlers of the shim accept, and neither looks at the configuration.  So
the setting is honoured as long as it is on or no error is reached.
-/

namespace PwFilter

/-- An error is raised in some test before any test has rejected. -/
def FaultReached (v : Validator) (faults : ℕ → Option Fault)
    (password accountName fullName : List UInt16) : Prop :=
  ∃ i test, (v.checks password accountName fullName)[i]? = some test ∧
    faultAt (v.mayThrow test.1) (faults i) ≠ none ∧
    ∀ j < i, ∀ earlier,
      (v.checks password accountName fullName)[j]? = some earlier →
        earlier.2 = false

theorem evaluateFrom_raised_iff
    (mayThrow : RuleId → Bool) (faults : ℕ → Option Fault) (i : ℕ)
    (tests : List (RuleId × Bool)) :
    (∃ fault, evaluateFrom mayThrow faults i tests = .raised fault) ↔
      ∃ k test, tests[k]? = some test ∧
        faultAt (mayThrow test.1) (faults (i + k)) ≠ none ∧
        ∀ j < k, ∀ earlier, tests[j]? = some earlier → earlier.2 = false := by
  induction tests generalizing i with
  | nil => simp [evaluateFrom]
  | cons test rest ih =>
      obtain ⟨rule, hit⟩ := test
      rw [evaluateFrom]
      cases hfault : faultAt (mayThrow rule) (faults i) with
      | some fault =>
          refine iff_of_true ⟨fault, rfl⟩ ⟨0, (rule, hit), rfl, ?_, ?_⟩
          · rw [Nat.add_zero, hfault]
            exact Option.some_ne_none fault
          · intro j hj
            omega
      | none =>
          cases hit with
          | true =>
              simp only [if_true]
              constructor
              · intro h
                obtain ⟨fault, h⟩ := h
                cases h
              · intro h
                obtain ⟨k, test, htest, hreached, hbefore⟩ := h
                cases k with
                | zero =>
                    rw [List.getElem?_cons_zero, Option.some.injEq] at htest
                    rw [← htest, Nat.add_zero, hfault] at hreached
                    exact absurd rfl hreached
                | succ k =>
                    have hhead := hbefore 0 (by omega) (rule, true) rfl
                    cases hhead
          | false =>
              simp only [Bool.false_eq_true, if_false]
              rw [ih]
              constructor
              · intro h
                obtain ⟨k, test, htest, hreached, hbefore⟩ := h
                refine ⟨k + 1, test, htest, ?_, ?_⟩
                · rw [← Nat.add_assoc, Nat.add_right_comm]
                  exact hreached
                · intro j hj earlier hearlier
                  cases j with
                  | zero =>
                      rw [List.getElem?_cons_zero, Option.some.injEq]
                        at hearlier
                      rw [← hearlier]
                  | succ j =>
                      exact hbefore j (by omega) earlier hearlier
              · intro h
                obtain ⟨k, test, htest, hreached, hbefore⟩ := h
                cases k with
                | zero =>
                    rw [List.getElem?_cons_zero, Option.some.injEq] at htest
                    rw [← htest, Nat.add_zero, hfault] at hreached
                    exact absurd rfl hreached
                | succ k =>
                    refine ⟨k, test, htest, ?_, ?_⟩
                    · rw [Nat.add_right_comm, Nat.add_assoc]
                      exact hreached
                    · intro j hj earlier hearlier
                      exact hbefore (j + 1) (by omega) earlier hearlier

theorem evaluateUnder_raised_iff
    (v : Validator) (faults : ℕ → Option Fault)
    (password accountName fullName : List UInt16) :
    (∃ fault, v.evaluateUnder faults password accountName fullName =
        .raised fault) ↔
      FaultReached v faults password accountName fullName := by
  rw [Validator.evaluateUnder, evaluateFrom_raised_iff]
  simp only [Nat.zero_add]
  rfl

def failOpenSetting (host : Host) : Bool :=
  match host.registry with
  | none => true
  | some key => regDword key "FailOpenOnError" 1 ≠ 0

theorem FilterContext.Ready.failOpenOnError
    {host : Host} {ctx : FilterContext} (hready : ctx.Ready host) :
    (ctx.makeValidator host).cfg.failOpenOnError = failOpenSetting host := by
  obtain ⟨terms, hcfg⟩ := hready.cfg
  have hfield : (ctx.makeValidator host).cfg = ctx.cfg := rfl
  rw [hfield, hcfg, failOpenSetting, readSettings]
  cases host.registry with
  | none => rfl
  | some key => rfl

/-- A call rejects exactly when evaluation completed with a rejection, or an
error was raised and the loaded configuration does not fail open. -/
def HonoursFailOpen (gCtx : Option FilterContext)
    (account full password : Option UnicodeString)
    (faults : ℕ → Option Fault) : Prop :=
  passwordFilter gCtx account full password faults = false ↔
    ∃ ctx ∈ gCtx, ∃ v ∈ ctx.validator,
      (∃ r, v.evaluateUnder faults (viewString password)
          (viewString account) (viewString full) = .completed r ∧
        r.allowed = false) ∨
      (∃ fault, v.evaluateUnder faults (viewString password)
          (viewString account) (viewString full) = .raised fault) ∧
        v.cfg.failOpenOnError = false

theorem passwordFilter_eq
    {ctx : FilterContext} {v : Validator} (hvalidator : ctx.validator = some v)
    (account full : Option UnicodeString) {password : UnicodeString}
    (hpassword : password.WellFormed) (faults : ℕ → Option Fault) :
    passwordFilter (some ctx) account full (some password) faults =
      match v.evaluateUnder faults (viewString (some password))
        (viewString account) (viewString full) with
      | .completed r => r.allowed
      | .raised _ => true := by
  have hbuffer : ¬ (password.buffer = none ∧ password.length ≠ 0) := by
    intro h
    obtain ⟨hnone, hlength⟩ := h
    have hfits := hpassword.2
    rw [hnone] at hfits
    exact hlength hfits
  simp only [passwordFilter, doFilter, if_neg hbuffer, hvalidator]
  cases v.evaluateUnder faults (viewString (some password))
      (viewString account) (viewString full) with
  | completed r => rfl
  | raised fault =>
      cases fault with
      | cppException => rfl
      | structuredException => rfl

/-- The setting is honoured exactly when it is on or no error is reached. -/
theorem fail_open_honoured_iff
    (host : Host) {gCtx : Option FilterContext}
    (hloaded : ∀ ctx ∈ gCtx, ctx.LoadedBy host)
    (account full : Option UnicodeString) {password : UnicodeString}
    (hpassword : password.WellFormed) (faults : ℕ → Option Fault) :
    HonoursFailOpen gCtx account full (some password) faults ↔
      failOpenSetting host = true ∨
        ¬ ∃ ctx ∈ gCtx, ∃ v ∈ ctx.validator,
          FaultReached v faults (viewString (some password))
            (viewString account) (viewString full) := by
  cases gCtx with
  | none =>
      simp [HonoursFailOpen, passwordFilter, doFilter]
  | some ctx =>
      have hready := (hloaded ctx rfl).ready
      have hreached := evaluateUnder_raised_iff (ctx.makeValidator host) faults
        (viewString (some password)) (viewString account) (viewString full)
      rw [HonoursFailOpen,
        passwordFilter_eq hready.validator account full hpassword faults]
      simp only [Option.mem_some_iff, exists_eq_left', hready.validator,
        hready.failOpenOnError]
      rw [← hreached]
      cases (ctx.makeValidator host).evaluateUnder faults
          (viewString (some password)) (viewString account)
          (viewString full) with
      | completed r => simp
      | raised fault => simp

theorem fail_open_honoured_default :
    ∃ ctx : FilterContext, ctx.LoadedBy plainHost ∧
      HonoursFailOpen (some ctx) none none
        (some { length := 2, buffer := some [0x71] })
        fun _ => some .structuredException := by
  obtain ⟨ctx, hloaded⟩ := FilterContext.exists_loadedBy plainHost
  refine ⟨ctx, hloaded, ?_⟩
  refine (fail_open_honoured_iff plainHost ?_ none none ?_ _).mpr
    (Or.inl rfl)
  · intro other hother
    rw [Option.mem_some_iff] at hother
    rw [← hother]
    exact hloaded
  · exact ⟨rfl, le_rfl⟩

def failClosedHost : Host :=
  { plainHost with
    registry := some fun name =>
      if name = "FailOpenOnError" then
        some { type := regDwordType, data := [0, 0, 0, 0] }
      else none }

/-- An access violation in the first test is still answered with TRUE. -/
theorem fail_closed_accepts :
    ∃ ctx : FilterContext, ctx.LoadedBy failClosedHost ∧
      ¬ HonoursFailOpen (some ctx) none none
        (some { length := 2, buffer := some [0x71] })
        fun _ => some .structuredException := by
  obtain ⟨ctx, hloaded⟩ := FilterContext.exists_loadedBy failClosedHost
  refine ⟨ctx, hloaded, ?_⟩
  have hready := hloaded.ready
  have hraised : (ctx.makeValidator failClosedHost).evaluateUnder
      (fun _ => some .structuredException) [0x71] [] [] =
        .raised .structuredException := rfl
  have hclosed : failOpenSetting failClosedHost = false := by decide
  have hflag := hready.failOpenOnError
  rw [hclosed] at hflag
  intro hhonours
  have hrejects := hhonours.mpr ⟨ctx, rfl, _, hready.validator,
    Or.inr ⟨⟨.structuredException, hraised⟩, hflag⟩⟩
  have hwellFormed : UnicodeString.WellFormed
      { length := 2, buffer := some [0x71] } := ⟨rfl, le_rfl⟩
  rw [passwordFilter_eq hready.validator none none hwellFormed] at hrejects
  cases hrejects

end PwFilter
