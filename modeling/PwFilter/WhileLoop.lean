import Mathlib.Tactic

/-!
# While loops

A loop that might never stop is run on fuel, and has no result when the fuel
runs out.  An invariant together with a variant that falls in every round gives
both: fuel above the variant is enough, and the invariant holds at the end.
-/

namespace WhileLoop

variable {σ : Type*}

def run (test : σ → Bool) (body : σ → σ) : ℕ → σ → Option σ
  | 0, _ => none
  | fuel + 1, s => if test s then run test body fuel (body s) else some s

theorem run_of_true
    {test : σ → Bool} {s : σ} (body : σ → σ) (fuel : ℕ)
    (htest : test s = true) :
    run test body (fuel + 1) s = run test body fuel (body s) := by
  rw [run, if_pos htest]

theorem run_of_false
    {test : σ → Bool} {s : σ} (body : σ → σ) (fuel : ℕ)
    (htest : test s = false) : run test body (fuel + 1) s = some s := by
  rw [run, if_neg (by rw [htest]; decide)]

/-- What the body of a loop has to do for an invariant and a variant. -/
structure Keeps
    (test : σ → Bool) (body : σ → σ) (inv : σ → Prop) (variant : σ → ℕ) :
    Prop where
  kept : ∀ s, inv s → test s = true → inv (body s)
  falls : ∀ s, inv s → test s = true → variant (body s) < variant s

/-- Total correctness of a loop. -/
theorem Keeps.result
    {test : σ → Bool} {body : σ → σ} {inv : σ → Prop} {variant : σ → ℕ}
    (hkeeps : Keeps test body inv variant) (fuel : ℕ) {s : σ} (hinv : inv s)
    (hfuel : variant s < fuel) :
    ∃ s', run test body fuel s = some s' ∧ inv s' ∧ test s' = false := by
  induction fuel generalizing s with
  | zero => exact absurd hfuel (Nat.not_lt_zero _)
  | succ fuel ih =>
      cases htest : test s with
      | false => exact ⟨s, run_of_false body fuel htest, hinv, htest⟩
      | true =>
          have hless := hkeeps.falls s hinv htest
          obtain ⟨s', hrun, hend⟩ :=
            ih (hkeeps.kept s hinv htest) (by omega)
          exact ⟨s', (run_of_true body fuel htest).trans hrun, hend⟩

end WhileLoop
