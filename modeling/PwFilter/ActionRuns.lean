import Mathlib.Tactic

/-!
# Runs of a partial step function

A step function may refuse an action.  What every step keeps, a run keeps, and
a party with a bounded number of steps left is done when it has taken them,
whatever the others do in between.  A script is a fixed list of steps that
cannot be refused but may stop after any of them.
-/

namespace ActionRuns

variable {σ α : Type*}

def run (step : σ → α → Option σ) (s : σ) (actions : List α) : Option σ :=
  actions.foldlM step s

theorem run_cons (step : σ → α → Option σ) (s : σ) (a : α) (actions : List α) :
    run step s (a :: actions) = (step s a).bind fun s' => run step s' actions :=
  List.foldlM_cons

theorem run_cons_some
    {step : σ → α → Option σ} {s s' : σ} {a : α} {actions : List α}
    (hrun : run step s (a :: actions) = some s') :
    ∃ next, step s a = some next ∧ run step next actions = some s' := by
  rw [run_cons] at hrun
  exact Option.bind_eq_some_iff.mp hrun

/-- What every allowed action keeps, a run of allowed actions keeps. -/
theorem invariant_of_allowed
    {step : σ → α → Option σ} {inv : σ → Prop} {allowed : α → Prop}
    (hstep : ∀ s a s', allowed a → inv s → step s a = some s' → inv s')
    {s s' : σ} {actions : List α} (hallowed : ∀ a ∈ actions, allowed a)
    (hinv : inv s) (hrun : run step s actions = some s') : inv s' := by
  induction actions generalizing s with
  | nil =>
      cases hrun
      exact hinv
  | cons a actions ih =>
      obtain ⟨next, hnext, hrest⟩ := run_cons_some hrun
      have hkept := hstep s a next (hallowed a List.mem_cons_self) hinv hnext
      exact ih (fun b hb => hallowed b (List.mem_cons_of_mem a hb)) hkept hrest

/-- An invariant of the steps is an invariant of the runs. -/
theorem invariant_of_step
    {step : σ → α → Option σ} {inv : σ → Prop}
    (hstep : ∀ s a s', inv s → step s a = some s' → inv s') {s s' : σ}
    {actions : List α} (hinv : inv s) (hrun : run step s actions = some s') :
    inv s' := by
  have hany : ∀ s a s', True → inv s → step s a = some s' → inv s' :=
    fun s a s' _ => hstep s a s'
  exact invariant_of_allowed hany (fun _ _ => trivial) hinv hrun

/-- A party that waits with `n` is done after `n` actions of its own, if each
of them brings it closer and no other action holds it up. -/
theorem progress_of_step
    {step : σ → α → Option σ} {waits : ℕ → σ → Prop} {done : σ → Prop}
    {own : α → Bool}
    (hstep : ∀ n s a s', waits n s → step s a = some s' →
      done s' ∨ ∃ n', waits n' s' ∧ n' + (own a).toNat ≤ n)
    (hdone : ∀ s a s', done s → step s a = some s' → done s')
    {n : ℕ} {s s' : σ} {actions : List α} (hwaits : waits n s)
    (hrun : run step s actions = some s') :
    done s' ∨ ∃ n', waits n' s' ∧ n' + actions.countP own ≤ n := by
  induction actions generalizing n s with
  | nil =>
      cases hrun
      exact .inr ⟨n, hwaits, Nat.le_refl n⟩
  | cons a actions ih =>
      obtain ⟨next, hnext, hrest⟩ := run_cons_some hrun
      rcases hstep n s a next hwaits hnext with hfinished | ⟨k, hk, hless⟩
      · exact .inl (invariant_of_step hdone hfinished hrest)
      · rcases ih hk hrest with hfinished | ⟨k', hk', hless'⟩
        · exact .inl hfinished
        · refine .inr ⟨k', hk', ?_⟩
          rw [List.countP_cons]
          cases hown : own a with
          | true =>
              rw [hown, Bool.toNat_true] at hless
              rw [if_pos rfl]
              omega
          | false =>
              rw [hown, Bool.toNat_false] at hless
              rw [if_neg Bool.false_ne_true]
              omega

/-! ## Scripts -/

def execute (apply : α → σ → σ) (script : List α) (s : σ) : σ :=
  script.foldl (fun s a => apply a s) s

theorem execute_append
    (apply : α → σ → σ) (first rest : List α) (s : σ) :
    execute apply (first ++ rest) s =
      execute apply rest (execute apply first s) :=
  List.foldl_append

theorem execute_cons (apply : α → σ → σ) (a : α) (rest : List α) (s : σ) :
    execute apply (a :: rest) s = execute apply rest (apply a s) := rfl

theorem execute_invariant
    {apply : α → σ → σ} {inv : σ → Prop} {script : List α}
    (hstep : ∀ a ∈ script, ∀ s, inv s → inv (apply a s)) {s : σ}
    (hinv : inv s) : inv (execute apply script s) := by
  induction script generalizing s with
  | nil => exact hinv
  | cons a script ih =>
      exact ih (fun b hb => hstep b (List.mem_cons_of_mem a hb))
        (hstep a List.mem_cons_self s hinv)

/-- A script of which the first steps are carried out, each with an outcome:
it stops before a given step or somewhere behind it. -/
theorem zip_around {β : Type*} (before after : List α) (a : α)
    (outcomes : List β) :
    (before ++ a :: after).zip outcomes = before.zip outcomes ∨
      ∃ first b rest, (before ++ a :: after).zip outcomes =
        before.zip first ++ (a, b) :: after.zip rest := by
  induction before generalizing outcomes with
  | nil =>
      cases outcomes with
      | nil => exact .inl rfl
      | cons b outcomes => exact .inr ⟨[], b, outcomes, rfl⟩
  | cons x before ih =>
      cases outcomes with
      | nil => exact .inl rfl
      | cons c outcomes =>
          rw [List.cons_append, List.zip_cons_cons, List.zip_cons_cons]
          rcases ih outcomes with hstops | ⟨first, b, rest, hsplit⟩
          · exact .inl (by rw [hstops])
          · refine .inr ⟨c :: first, b, rest, ?_⟩
            rw [hsplit, List.zip_cons_cons, List.cons_append]

end ActionRuns
