import PwFilter.Deployment
import PwFilter.PolicyRuns

/-!
# The policy of a fresh machine

On a machine that never had a policy, whatever the scripts have done since, the
package works with the built-in settings.  What it lets pass without an error
then has the properties that those settings stand for.
-/

namespace PwFilter

open ActionRuns ConsecutiveRuns

/-- What the built-in settings ask of a password, with the word lists of the
host. -/
structure MeetsDefaults (host : Host) (password account full : List UInt16) :
    Prop where
  long : 12 ≤ password.length
  short : password.length ≤ 256
  classes : 3 ≤ (classesOf password).card
  repeats : ¬ HasRun (fun a b => a = b) 5 password
  sequences : ¬ HasRun StepUp 4 password ∧ ¬ HasRun StepDown 4 password
  keyboard : ∀ window, window <:+: password → window.length = 4 →
    ¬ IsKeyboardWalk window
  account : 3 ≤ account.length → ¬ lowered account <:+: lowered password
  fullName : ∀ token, IsNameToken full token → 3 ≤ token.length →
    ¬ lowered token <:+: lowered password
  terms : ∀ term ∈ host.terms, term ≠ [] →
    ¬ lowered term <:+: lowered password
  banned : ¬ host.banned.Bans password

theorem meetsDefaults_of_policy
    {host : Host} (hpolicy : host.policy = { companyTerms := host.terms })
    {ctx : FilterContext} {args : CallArgs}
    (hclean : ∀ rule ∈ evaluationOrder, ¬ host.Violates ctx args rule) :
    MeetsDefaults host (viewString args.password) (viewString args.account)
      (viewString args.full) := by
  unfold Host.Violates at hclean
  rw [hpolicy] at hclean
  have htwo : 2 ≤ 4 := by decide
  constructor
  case long => exact Nat.le_of_not_lt (hclean .tooShort (by decide))
  case short => exact Nat.le_of_not_lt (hclean .tooLong (by decide))
  case classes =>
    have hclasses : ¬ ((0 : ℤ) < 3 ∧
        ((classesOf (viewString args.password)).card : ℤ) < 3) :=
      hclean .notEnoughClasses (by decide)
    omega
  case repeats =>
    intro hrun
    exact hclean .repeatRun (by decide) ⟨Nat.succ_pos 3, hrun⟩
  case sequences =>
    constructor
    · intro hrun
      exact hclean .sequence (by decide) ⟨rfl, htwo, .inl hrun⟩
    · intro hrun
      exact hclean .sequence (by decide) ⟨rfl, htwo, .inr hrun⟩
  case keyboard =>
    intro window hwindow hlength hwalk
    exact hclean .keyboardPattern (by decide)
      ⟨rfl, htwo, window, hwindow, hlength, hwalk⟩
  case account =>
    intro hlength hpart
    have hne : viewString args.account ≠ [] :=
      List.ne_nil_of_length_pos (by omega)
    exact hclean .containsAccountName (by decide) ⟨rfl, hne, hlength, hpart⟩
  case fullName =>
    intro token htoken hlength hpart
    exact hclean .containsFullName (by decide)
      ⟨rfl, token, htoken, hlength, hpart⟩
  case terms =>
    intro term hterm hne hpart
    exact hclean .companyTerm (by decide) ⟨term, hterm, hne, hpart⟩
  case banned =>
    intro hbans
    exact hclean .blacklisted (by decide) ⟨host.banned, rfl, hbans⟩

section

variable {κ : Type} [DecidableEq κ] (fold : String → κ)

theorem Host.policy_deployed
    {host : Host} {runs : List (ScriptRun × List Bool)} {s : Deployment}
    (hfresh : s.policy = none)
    (hregistry : host.registry = (deploy fold runs s).policy) :
    host.policy = { companyTerms := host.terms } := by
  have hbuiltIn : (deploy fold runs s).policyInForce = {} := by
    rcases (Deployment.keeps_deploy fold runs s).policy with hsame | hplain
    · rw [Deployment.policyInForce, hsame, hfresh]
    · exact hplain.policyInForce
  unfold Deployment.policyInForce at hbuiltIn
  rw [← hregistry] at hbuiltIn
  unfold Host.policy
  cases hkey : host.registry with
  | none => rfl
  | some key =>
      simp only [hkey] at hbuiltIn
      simp only [hbuiltIn]

/-- On a machine that had no policy, after any runs of the scripts, complete
or not and with errors hidden or not, every password that a run of the package
lets pass has what the built-in settings ask for, unless there was no context,
no password to look at or an error on the way. -/
theorem installed_policy_holds
    {runs : List (ScriptRun × List Bool)} {s : Deployment}
    (hfresh : s.policy = none)
    {m : Machine} (hregistry : m.host.registry = (deploy fold runs s).policy)
    {Thread : Type} [DecidableEq Thread] {actions : List (Action Thread)}
    {p : Process Thread}
    (hrun : run (Process.step m) {} actions = some p)
    {r : Answered} (hr : .answered r ∈ p.history)
    (haccepted : r.accepted = true) :
    r.gCtx = none ∨ ¬ r.args.HasPassword ∨
      (∃ fault, r.verdict = .failed fault) ∨
      MeetsDefaults m.host (viewString r.args.password)
        (viewString r.args.account) (viewString r.args.full) := by
  obtain ⟨hanswer, hloaded⟩ := Process.answered_of_run hrun hr
  have hjustified := Verdict.justified hloaded
  cases hverdict : r.verdict with
  | rejected rule =>
      rw [haccepted, hverdict] at hanswer
      cases hanswer
  | failed fault => exact .inr (.inr (.inl ⟨fault, rfl⟩))
  | accepted =>
      rw [hverdict] at hjustified
      rcases hjustified with hnone | hmalformed | ⟨ctx, _, _, hclean⟩
      · exact .inl hnone
      · exact .inr (.inl hmalformed)
      · exact .inr (.inr (.inr (meetsDefaults_of_policy
          (Host.policy_deployed fold hfresh hregistry) hclean)))

end

/-- One run of the installer to its end, on a machine without a policy. -/
def freshInstall : Deployment :=
  deploy String.toLower
    [ScriptRun.complete (.install
      { dllSource := some [0x4D, 0x5A]
        dllDest := []
        dataDir := []
        examples := fun _ => none })]
    { packages := some ["rassfm", "scecli"]
      policy := none
      source := none
      dll := none
      files := fun _ => none }

def freshMachine : Machine :=
  { sampleMachine with
    host := { plainHost with registry := freshInstall.policy } }

def Entry.passes : Entry → Bool
  | .initialized _ _ _ => false
  | .answered r => r.accepted && r.gCtx.isSome

theorem installed_policy_holds_sample :
    ∃ p r, run (Process.step freshMachine) {} strongActions = some p ∧
      .answered r ∈ p.history ∧ r.gCtx.isSome = true ∧
      (r.gCtx = none ∨ ¬ r.args.HasPassword ∨
        (∃ fault, r.verdict = .failed fault) ∨
        MeetsDefaults freshMachine.host (viewString r.args.password)
          (viewString r.args.account) (viewString r.args.full)) := by
  have hpasses : ((run (Process.step freshMachine) {} strongActions).map
      fun p => p.history.any Entry.passes) = some true := by decide +kernel
  obtain ⟨p, entry, hrun, hentry, hpass⟩ := exists_entry_of_any hpasses
  cases entry with
  | initialized gCtx log stopped => cases hpass
  | answered r =>
      rw [Entry.passes, Bool.and_eq_true] at hpass
      exact ⟨p, r, hrun, hentry, hpass.2,
        installed_policy_holds String.toLower rfl rfl hrun hentry hpass.1⟩

end PwFilter
