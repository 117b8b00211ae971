import PwFilter.ContextContents
import PwFilter.DllMain

/-!
# Loading under memory pressure

Every throwing allocation that fails leaves `Create`, which is noexcept, so a
single failure ends the process unless an earlier nothrow allocation already
made `Create` give up.
-/

namespace PwFilter

open Allocation

/-! ## What is built -/

structure FilterContext.Ready (host : Host) (ctx : FilterContext) : Prop where
  cfg : ∃ terms, ctx.cfg =
    { (readSettings host {}).cfg with companyTerms := terms }
  validator : ctx.validator = some (ctx.makeValidator host)

namespace FilterContext

theorem Holds.ready
    {host : Host} {ctx : FilterContext} (hctx : Holds host ctx) :
    Ready host ctx where
  cfg := by
    refine ⟨host.terms, ?_⟩
    rw [hctx.cfg, readSettings_cfg]
    rfl
  validator := hctx.validator

theorem LoadedBy.ready
    {host : Host} {ctx : FilterContext} (hloaded : LoadedBy host ctx) :
    Ready host ctx :=
  hloaded.holds.ready

end FilterContext

/-! ## The run of `InitializeChangeNotify` -/

theorem initializeChangeNotify_terminates
    {host : Host} {fails : ℕ → Bool}
    (hraises : Raises fails (createPlan host) 0) :
    (initializeChangeNotify host fails 0).1 = .terminated := by
  have hbody := (FilterContext.builds_holds host).raised fails 0 hraises
  cases hrun : FilterContext.createBody host fails 0 with
  | mk outcome c =>
      rw [hrun] at hbody
      cases outcome with
      | done object => cases hbody
      | terminated => cases hbody
      | raised =>
          change (Alloc.bind (initWorker host none) _ fails 0).1 = _
          simp only [Alloc.bind, initWorker, Alloc.tryCatch,
            FilterContext.create, Alloc.noexcept, hrun]

theorem initializeChangeNotify_returns
    {host : Host} {fails : ℕ → Bool}
    (hcalm : ¬ Raises fails (createPlan host) 0) :
    ∃ gCtx c, initializeChangeNotify host fails 0 =
        (.done (true, gCtx), c) ∧
      ∀ ctx ∈ gCtx, FilterContext.Ready host ctx := by
  obtain ⟨gCtx, c, hrun, hholds⟩ :=
    (FilterContext.builds_holds host).returns fails 0 hcalm
  refine ⟨gCtx, c, ?_, fun ctx hctx => (hholds ctx hctx).ready⟩
  have hworker : initWorker host none fails 0 = (.done gCtx, c) := by
    simp only [initWorker, Alloc.tryCatch, FilterContext.create,
      Alloc.noexcept, hrun]
  exact Alloc.bind_of_done hworker _

/-- The process is alive and the package loaded, and either there is no
context, so that every later call accepts, or there is one with a
validator. -/
def InitSurvives (host : Host) (fails : ℕ → Bool) : Prop :=
  ∃ gCtx c, initializeChangeNotify host fails 0 = (.done (true, gCtx), c) ∧
    ((gCtx = none ∧ ∀ account full password faults,
        passwordFilter gCtx account full password faults = true) ∨
      ∃ ctx, gCtx = some ctx ∧ ctx.validator ≠ none)

theorem initSurvives_iff_not_raises (host : Host) (fails : ℕ → Bool) :
    InitSurvives host fails ↔ ¬ Raises fails (createPlan host) 0 := by
  constructor
  · intro h hraises
    obtain ⟨gCtx, c, hrun, _⟩ := h
    have hdead := initializeChangeNotify_terminates hraises
    rw [hrun] at hdead
    cases hdead
  · intro hcalm
    obtain ⟨gCtx, c, hrun, hready⟩ := initializeChangeNotify_returns hcalm
    refine ⟨gCtx, c, hrun, ?_⟩
    cases gCtx with
    | none => exact Or.inl ⟨rfl, fun _ _ _ _ => rfl⟩
    | some ctx =>
        refine Or.inr ⟨ctx, rfl, ?_⟩
        rw [(hready ctx rfl).validator]
        exact Option.some_ne_none _

/-- Loading survives a schedule of failures exactly when every throwing
allocation that fails comes after a failed nothrow one that `Create` gives up
on. -/
theorem init_survives_iff (host : Host) (fails : ℕ → Bool) :
    InitSurvives host fails ↔
      ∀ i, (createPlan host)[i]? = some .throwing → fails i = true →
        ∃ j < i, (createPlan host)[j]? = some .required ∧ fails j = true := by
  rw [initSurvives_iff_not_raises, raises_iff]
  simp only [Nat.zero_add, not_exists, not_and]
  refine forall_congr' fun i => forall_congr' fun _ => forall_congr' fun _ => ?_
  constructor
  · intro h
    by_contra hnone
    apply h
    intro j hj hsite
    cases hfails : fails j with
    | false => rfl
    | true => exact absurd ⟨j, hj, hsite, hfails⟩ hnone
  · intro h hall
    obtain ⟨j, hj, hsite, hfails⟩ := h
    rw [hall j hj hsite] at hfails
    cases hfails

def plainHost : Host where
  programData := none
  registry := none
  files := fun _ => plainFile [0x71]
  pathMemory := Vector.replicate 260 0
  stack := Vector.replicate 4096 0
  shaMemory := Vector.replicate 64 0

/-- The string for the only line of the blacklist cannot be allocated. -/
theorem line_allocation_kills :
    ¬ InitSurvives plainHost fun i => decide (i = 4) := by
  rw [initSurvives_iff_not_raises, not_not, raises_iff]
  refine ⟨4, rfl, rfl, ?_⟩
  intro j hj _
  rw [Nat.zero_add, decide_eq_false_iff_not]
  omega

end PwFilter
