import PwFilter.ContextContents
import PwFilter.FailOpen
import PwFilter.PackageRuns

/-!
# What a run answers

Every answer of every run is accounted for by what the host declares: a
rejection names the first rule that the password violates, and an acceptance
comes from a missing context, a malformed argument, an error, or a password
that violates none.  A call is answered within a bounded number of its own
steps, and the event log holds nothing of what a password is.
-/

namespace PwFilter

open Allocation HandleTable ActionRuns

/-! ## Verdicts and the policy -/

def Host.Violates (host : Host) (ctx : FilterContext) (args : CallArgs)
    (rule : RuleId) : Prop :=
  PwFilter.Violates host.policy (host.services ctx.checker)
    (viewString args.password) (viewString args.account)
    (viewString args.full) rule

/-- What a verdict says of a call on this host. -/
def Verdict.Justified (host : Host) (r : Answered) : Verdict → Prop
  | .rejected rule =>
      ∃ ctx, r.gCtx = some ctx ∧ ctx.Holds host ∧
        FirstOf (host.Violates ctx r.args) evaluationOrder rule
  | .accepted =>
      r.gCtx = none ∨ ¬ r.args.HasPassword ∨
        ∃ ctx, r.gCtx = some ctx ∧ ctx.Holds host ∧
          ∀ rule ∈ evaluationOrder, ¬ host.Violates ctx r.args rule
  | .failed fault => r.reportFaults = true ∨ some fault ∈ r.faults

theorem evaluateFrom_completed
    {mayThrow : RuleId → Bool} {faults : ℕ → Option Fault} {i : ℕ}
    {tests : List (RuleId × Bool)} {r : ValidationResult}
    (h : evaluateFrom mayThrow faults i tests = .completed r) :
    Validator.verdict tests = r := by
  induction tests generalizing i with
  | nil =>
      cases h
      rfl
  | cons test rest ih =>
      obtain ⟨rule, hit⟩ := test
      rw [evaluateFrom] at h
      cases hfault : faultAt (mayThrow rule) (faults i) with
      | some fault =>
          simp only [hfault] at h
          cases h
      | none =>
          simp only [hfault] at h
          cases hit with
          | true =>
              cases h
              rfl
          | false => exact ih h

theorem evaluateFrom_raised
    {mayThrow : RuleId → Bool} {faults : ℕ → Option Fault} {i : ℕ}
    {tests : List (RuleId × Bool)} {fault : Fault}
    (h : evaluateFrom mayThrow faults i tests = .raised fault) :
    ∃ j, faults j = some fault := by
  induction tests generalizing i with
  | nil => cases h
  | cons test rest ih =>
      obtain ⟨rule, hit⟩ := test
      rw [evaluateFrom] at h
      cases hfault : faultAt (mayThrow rule) (faults i) with
      | some raised =>
          simp only [hfault] at h
          cases h
          refine ⟨i, ?_⟩
          unfold faultAt at hfault
          split at hfault
          · rename_i hscheduled
            split at hfault
            · rw [hscheduled]
              exact hfault
            · cases hfault
          · exact hfault
      | none =>
          simp only [hfault] at h
          cases hit with
          | true => cases h
          | false => exact ih h

theorem mem_of_schedule
    {faults : List (Option Fault)} {i : ℕ} {fault : Fault}
    (h : schedule faults i = some fault) : some fault ∈ faults := by
  rw [schedule, List.getD_eq_getElem?_getD] at h
  cases hi : faults[i]? with
  | none =>
      rw [hi] at h
      cases h
  | some scheduled =>
      rw [hi, Option.getD_some] at h
      rw [← h]
      exact List.mem_of_getElem? hi

theorem callVerdict_of_holds
    {host : Host} {ctx : FilterContext} (hctx : ctx.Holds host)
    {args : CallArgs} (hargs : args.HasPassword) (faults : ℕ → Option Fault)
    (reportFaults : Bool) :
    callVerdict (some ctx) args faults reportFaults =
      match args.evaluate
        ((host.services ctx.checker).validator host.policy) faults with
      | .completed r =>
          if r.allowed then .accepted
          else if reportFaults then .failed .structuredException
          else .rejected r.rule
      | .raised fault => .failed fault := by
  obtain ⟨s, hpassword, hbuffer⟩ := hargs
  cases hrun : args.evaluate ((host.services ctx.checker).validator
      host.policy) faults with
  | completed r =>
      simp only [callVerdict, hpassword, if_neg hbuffer, hctx.validator,
        hctx.makeValidator, hrun]
  | raised fault =>
      simp only [callVerdict, hpassword, if_neg hbuffer, hctx.validator,
        hctx.makeValidator, hrun]

theorem verdict_cases (checks : List (RuleId × Bool)) :
    Validator.verdict checks = .allow ∨
      ∃ rule, Validator.verdict checks = .reject rule := by
  induction checks with
  | nil => exact .inl rfl
  | cons check checks ih =>
      obtain ⟨rule, hit⟩ := check
      cases hit with
      | true => exact .inr ⟨rule, rfl⟩
      | false => exact ih

/-- A completed evaluation is the declared policy's. -/
theorem evaluate_completed
    {host : Host} {ctx : FilterContext} {args : CallArgs}
    {faults : ℕ → Option Fault} {r : ValidationResult}
    (h : args.evaluate ((host.services ctx.checker).validator host.policy)
      faults = .completed r) :
    (r = .allow ∧
        ∀ rule ∈ evaluationOrder, ¬ host.Violates ctx args rule) ∨
      ∃ rule, r = .reject rule ∧
        FirstOf (host.Violates ctx args) evaluationOrder rule := by
  classical
  have hverdict := evaluateFrom_completed h
  rw [← Validator.evaluate_eq_verdict, evaluate_eq_verdict_violates] at hverdict
  change Validator.verdict (evaluationOrder.map fun rule =>
    (rule, decide (host.Violates ctx args rule))) = r at hverdict
  rcases verdict_cases (evaluationOrder.map fun rule =>
    (rule, decide (host.Violates ctx args rule))) with hallow | ⟨rule, hreject⟩
  · exact .inl ⟨hverdict.symm.trans hallow,
      (verdict_map_eq_allow_iff _ evaluationOrder).mp hallow⟩
  · exact .inr ⟨rule, hverdict.symm.trans hreject,
      (verdict_map_eq_reject_iff _ evaluationOrder rule).mp hreject⟩

theorem Verdict.justified
    {host : Host} {r : Answered} (hloaded : ∀ ctx ∈ r.gCtx, ctx.LoadedBy host) :
    r.verdict.Justified host r := by
  unfold Answered.verdict
  cases hgCtx : r.gCtx with
  | none => exact .inl hgCtx
  | some ctx =>
      have hctx : ctx.Holds host := (hloaded ctx hgCtx).holds
      by_cases hargs : r.args.HasPassword
      · rw [callVerdict_of_holds hctx hargs]
        cases heval : r.args.evaluate
            ((host.services ctx.checker).validator host.policy)
            (schedule r.faults) with
        | raised fault =>
            obtain ⟨i, hi⟩ := evaluateFrom_raised heval
            exact .inr (mem_of_schedule hi)
        | completed result =>
            rcases evaluate_completed heval with
              ⟨rfl, hclean⟩ | ⟨rule, rfl, hfirst⟩
            · exact .inr (.inr ⟨ctx, hgCtx, hctx, hclean⟩)
            · cases hreport : r.reportFaults with
              | true => exact .inl hreport
              | false => exact ⟨ctx, hgCtx, hctx, hfirst⟩
      · have haccepted : callVerdict (some ctx) r.args (schedule r.faults)
            r.reportFaults = .accepted := by
          unfold callVerdict
          cases hpassword : r.args.password with
          | none => rfl
          | some s =>
              have hbuffer : s.buffer = none ∧ s.length ≠ 0 := by
                by_contra hbuffer
                exact hargs ⟨s, hpassword, hbuffer⟩
              exact if_pos hbuffer
        rw [haccepted]
        exact .inr (.inl hargs)

/-- In every run, an answer is a rejection only for the first declared rule
that the password violates; it is an acceptance for a password that violates
none, for want of a context or of a password, or on an error. -/
theorem answers_follow_policy
    {Thread : Type} [DecidableEq Thread] {m : Machine}
    {actions : List (Action Thread)} {p : Process Thread}
    (hrun : run (Process.step m) {} actions = some p) {r : Answered}
    (hr : .answered r ∈ p.history) :
    r.accepted = r.verdict.accepts ∧ r.verdict.Justified m.host r := by
  obtain ⟨haccepted, hloaded⟩ := Process.answered_of_run hrun hr
  exact ⟨haccepted, Verdict.justified hloaded⟩

def Entry.rejects : Entry → Bool
  | .initialized _ _ _ => false
  | .answered r => !r.accepted

theorem answers_follow_policy_sample :
    ∃ p r, run (Process.step sampleMachine) {} sampleActions = some p ∧
      .answered r ∈ p.history ∧ r.accepted = false ∧
      r.verdict.Justified sampleMachine.host r := by
  have hrejects : ((run (Process.step sampleMachine) {} sampleActions).map
      fun p => p.history.any Entry.rejects) = some true := by decide +kernel
  obtain ⟨p, entry, hrun, hentry, hrejected⟩ := exists_entry_of_any hrejects
  cases entry with
  | initialized gCtx log stopped => cases hrejected
  | answered r =>
      refine ⟨p, r, hrun, hentry, ?_, (answers_follow_policy hrun hentry).2⟩
      rw [Entry.rejects, Bool.not_eq_true'] at hrejected
      exact hrejected

end PwFilter
