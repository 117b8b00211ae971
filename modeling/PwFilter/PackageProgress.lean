import PwFilter.PackageRuns

/-!
# Calls come to an end

A call never waits for another thread.  Its own steps are the look at `g_ctx`,
the look at the validator, one for each test, and the answer, so a call that
has taken as many has been answered, whatever the other threads do in between.
-/

namespace PwFilter

open HandleTable ActionRuns

/-- The tests that a call can come to. -/
def testCount (gCtx : Option FilterContext) : ℕ :=
  match gCtx.bind fun ctx => ctx.validator with
  | none => 0
  | some v => 10 + v.cfg.companyTerms.length

/-- The steps that are left, the answer included. -/
def Call.remaining (call : Call) (gCtx : Option FilterContext) : ℕ :=
  match call.stage with
  | .entered => testCount gCtx + 3
  | .checked => testCount gCtx + 2
  | .testing _ tests => tests.length + 1
  | .rejecting _ => 1

theorem checks_length
    (v : Validator) (password accountName fullName : List UInt16) :
    (v.checks password accountName fullName).length =
      10 + v.cfg.companyTerms.length := by
  simp only [Validator.checks, Validator.localChecks, List.length_append,
    List.length_map, List.length_cons, List.length_nil]
  omega

theorem Call.remaining_pos (call : Call) (gCtx : Option FilterContext) :
    0 < call.remaining gCtx := by
  unfold remaining
  cases call.stage with
  | entered => exact Nat.succ_pos _
  | checked => exact Nat.succ_pos _
  | testing mayThrow tests => exact Nat.succ_pos _
  | rejecting rule => exact Nat.one_pos

/-- A step that does not answer brings the answer nearer. -/
theorem Call.advance_remaining
    {call call' : Call} {gCtx : Option FilterContext} {log : EventLog}
    {memory : LogMemory} {fault : Option Fault}
    (hstep : call.advance gCtx log memory fault = .goesOn call') :
    call'.remaining gCtx + 1 ≤ call.remaining gCtx ∧
      call'.args = call.args := by
  obtain ⟨args, stage, faults⟩ := call
  cases stage with
  | entered =>
      simp only [advance] at hstep
      cases gCtx with
      | none => cases hstep
      | some ctx =>
          cases hpassword : args.password with
          | none =>
              simp only [hpassword] at hstep
              cases hstep
          | some s =>
              simp only [hpassword] at hstep
              split at hstep
              · cases hstep
              · cases hstep
                exact ⟨Nat.le_refl _, rfl⟩
  | checked =>
      simp only [advance] at hstep
      cases hvalidator : gCtx.bind fun ctx => ctx.validator with
      | none =>
          simp only [hvalidator] at hstep
          cases hstep
      | some v =>
          simp only [hvalidator] at hstep
          cases hstep
          refine ⟨?_, rfl⟩
          simp only [remaining, testCount, hvalidator, checks_length]
          exact Nat.le_refl _
  | testing mayThrow tests =>
      cases tests with
      | nil => cases hstep
      | cons test rest =>
          obtain ⟨rule, hit⟩ := test
          simp only [advance] at hstep
          cases hfault : faultAt (mayThrow rule) fault with
          | some raised =>
              simp only [hfault] at hstep
              cases hstep
          | none =>
              simp only [hfault] at hstep
              cases hit with
              | true =>
                  cases hstep
                  refine ⟨?_, rfl⟩
                  simp only [remaining, List.length_cons]
                  omega
              | false =>
                  cases hstep
                  exact ⟨Nat.le_refl _, rfl⟩
  | rejecting rule =>
      simp only [advance] at hstep
      split at hstep
      · cases hstep
      · cases hstep

def Action.isStepOf {Thread : Type} [DecidableEq Thread] (thread : Thread) :
    Action Thread → Bool
  | .advance other _ => other = thread
  | _ => false

namespace Process

variable {Thread : Type}

/-- The call of `thread` is under way, with `n` steps left, since the history
had `k` entries. -/
def Waits (thread : Thread) (args : CallArgs) (k n : ℕ) (p : Process Thread) :
    Prop :=
  p.phase = .initialized ∧ k ≤ p.history.length ∧
    ∃ call, p.calls thread = some call ∧ call.args = args ∧
      call.remaining p.context ≤ n

/-- It has been answered, or the process is gone. -/
def Finished (args : CallArgs) (k : ℕ) (p : Process Thread) : Prop :=
  ¬ p.Running ∨ ∃ r, .answered r ∈ p.history.drop k ∧ r.args = args

variable [DecidableEq Thread] {m : Machine} {thread : Thread} {args : CallArgs}
  {k n : ℕ} {p p' : Process Thread} {a : Action Thread}

theorem Finished.step
    (hp : p.Finished args k) (hstep : step m p a = some p') :
    p'.Finished args k := by
  rcases hp with hgone | ⟨r, hr, hargs⟩
  · rcases step_cases hstep with ⟨_, _, hphase, _⟩ | ⟨_, _, _, hrunning, _⟩ |
      ⟨_, _, _, _, hrunning, _⟩ | ⟨_, hrunning, _⟩ | ⟨_, hrunning, _⟩
    · exact absurd (Or.inl hphase) hgone
    · exact absurd hrunning hgone
    · exact absurd hrunning hgone
    · exact absurd hrunning hgone
    · exact absurd hrunning hgone
  · have hgrows : ∃ more, p'.history = p.history ++ more := by
      rcases step_cases hstep with ⟨s, _, _, rfl⟩ |
        ⟨_, _, _, _, _, rfl⟩ | ⟨other, fault, call, _, _, _, rfl⟩ |
        ⟨_, _, rfl⟩ | ⟨_, _, rfl⟩
      · rcases loadPackage_cases m p s with ⟨_, _, _, hload⟩ | ⟨_, _, hload⟩
        · rw [hload]
          exact ⟨_, rfl⟩
        · rw [hload]
          exact ⟨[], (List.append_nil _).symm⟩
      · exact ⟨[], (List.append_nil _).symm⟩
      · unfold advanceCall
        cases call.advance p.context p.gLog m.memory fault with
        | goesOn call' => exact ⟨[], (List.append_nil _).symm⟩
        | answers accepted faults reportFaults events => exact ⟨_, rfl⟩
      · exact ⟨[], (List.append_nil _).symm⟩
      · exact ⟨[], (List.append_nil _).symm⟩
    obtain ⟨more, hmore⟩ := hgrows
    refine .inr ⟨r, ?_, hargs⟩
    rw [hmore, List.drop_append]
    exact List.mem_append_left _ hr

theorem Waits.advance
    (hp : p.Waits thread args k n) (fault : Option Fault) {call : Call}
    (hcall : p.calls thread = some call) :
    (p.advanceCall m thread call fault).Finished args k ∨
      ∃ n', (p.advanceCall m thread call fault).Waits thread args k n' ∧
        n' + 1 ≤ n := by
  obtain ⟨hphase, hk, own, hown, hargs, hleft⟩ := hp
  rw [hown, Option.some.injEq] at hcall
  rw [hcall] at hargs hleft
  unfold advanceCall
  cases hstep : call.advance p.context p.gLog m.memory fault with
  | goesOn call' =>
      obtain ⟨hless, hsame⟩ := Call.advance_remaining hstep
      refine .inr ⟨call'.remaining p.context, ?_, by omega⟩
      exact ⟨hphase, hk, call', Function.update_self thread (some call') p.calls,
        hsame.trans hargs, Nat.le_refl _⟩
  | answers accepted faults reportFaults events =>
      rw [← hargs]
      refine .inl (.inr ⟨{ args := call.args, gCtx := p.context, log := p.gLog
                           faults := faults, reportFaults := reportFaults
                           accepted := accepted }, ?_, rfl⟩)
      rw [List.drop_append, Nat.sub_eq_zero_of_le hk, List.drop_zero]
      exact List.mem_append_right _ List.mem_cons_self

theorem Waits.step
    (hp : p.Waits thread args k n) (hstep : step m p a = some p') :
    p'.Finished args k ∨
      ∃ n', p'.Waits thread args k n' ∧ n' + (a.isStepOf thread).toNat ≤ n := by
  have hwaits := hp
  obtain ⟨hphase, hk, call, hcall, hargs, hleft⟩ := hp
  rcases step_cases hstep with ⟨_, _, hattached, _⟩ |
    ⟨other, otherArgs, rfl, _, hfree, rfl⟩ |
    ⟨other, fault, otherCall, rfl, _, hother, rfl⟩ | ⟨rfl, _, rfl⟩ |
    ⟨rfl, _, rfl⟩
  · rw [hphase] at hattached
    cases hattached
  · have hne : thread ≠ other := by
      intro hsame
      rw [← hsame, hcall] at hfree
      cases hfree
    refine .inr ⟨n, ⟨hphase, hk, call, ?_, hargs, hleft⟩, Nat.le_refl n⟩
    exact (Function.update_of_ne hne _ _).trans hcall
  · by_cases hsame : other = thread
    · rw [hsame] at hother
      have hone : ((Action.advance other fault).isStepOf thread).toNat = 1 := by
        simp [Action.isStepOf, hsame]
      rw [hone, hsame]
      exact hwaits.advance fault hother
    · have hzero : ((Action.advance other fault).isStepOf thread).toNat = 0 := by
        simp [Action.isStepOf, hsame]
      rw [hzero]
      refine .inr ⟨n, ?_, Nat.le_refl n⟩
      unfold advanceCall
      cases otherCall.advance p.context p.gLog m.memory fault with
      | goesOn call' =>
          refine ⟨hphase, hk, call, ?_, hargs, hleft⟩
          exact (Function.update_of_ne (Ne.symm hsame) _ _).trans hcall
      | answers accepted faults reportFaults events =>
          refine ⟨hphase, ?_, call, ?_, hargs, hleft⟩
          · rw [List.length_append]
            exact Nat.le_add_right_of_le hk
          · exact (Function.update_of_ne (Ne.symm hsame) _ _).trans hcall
  · exact .inr ⟨n, hwaits, Nat.le_refl n⟩
  · refine .inl (.inl ?_)
    intro hrunning
    rcases hrunning with h | h
    · cases h
    · cases h

/-- After initialization, a call is answered by the time its thread has taken
thirteen steps and one for each company term, in any interleaving with other
calls, as long as the process runs. -/
theorem calls_finish
    {actions : List (Action Thread)} (hphase : p.phase = .initialized)
    (hrun : run (step m) p (.passwordFilter thread args :: actions) = some p')
    (hrunning : p'.Running)
    (hsteps : testCount p.context + 3 ≤
      actions.countP (Action.isStepOf thread)) :
    ∃ r, .answered r ∈ p'.history.drop p.history.length ∧ r.args = args := by
  obtain ⟨entered, hentered, hrest⟩ := run_cons_some hrun
  have hwaits : entered.Waits thread args p.history.length
      (testCount p.context + 3) := by
    rcases step_cases hentered with ⟨_, h, _⟩ |
      ⟨other, otherArgs, h, _, _, rfl⟩ | ⟨_, _, _, h, _⟩ | ⟨h, _⟩ | ⟨h, _⟩
    · cases h
    · cases h
      exact ⟨hphase, Nat.le_refl _, _, Function.update_self thread _ p.calls,
        rfl, Nat.le_refl _⟩
    · cases h
    · cases h
    · cases h
  have hstep : ∀ n (s : Process Thread) a s',
      s.Waits thread args p.history.length n → step m s a = some s' →
      s'.Finished args p.history.length ∨
        ∃ n', s'.Waits thread args p.history.length n' ∧
          n' + (Action.isStepOf thread a).toNat ≤ n :=
    fun _ _ _ _ hs hstep => hs.step hstep
  have hdone : ∀ (s : Process Thread) a s',
      s.Finished args p.history.length → step m s a = some s' →
      s'.Finished args p.history.length :=
    fun _ _ _ hs hstep => hs.step hstep
  rcases progress_of_step hstep hdone hwaits hrest with
    hfinished | ⟨left, hleft, hcount⟩
  · rcases hfinished with hgone | hanswered
    · exact absurd hrunning hgone
    · exact hanswered
  · obtain ⟨_, _, call, _, _, hremaining⟩ := hleft
    have hpos := call.remaining_pos p'.context
    omega

end Process

/-- Each of these calls is rejected in its fourth step; another thread asks in
between. -/
def repeatedCalls : List (Action Bool) :=
  (List.replicate 4
    [.advance false none, .advance false none, .passwordFilter true sampleArgs,
      .advance true none, .advance false none, .advance false none,
      .advance true none, .advance true none, .advance true none,
      .passwordFilter false sampleArgs]).flatten

theorem calls_finish_sample :
    ∃ p' r, run (Process.step sampleMachine)
        (Process.loadPackage sampleMachine {} calmSchedule)
        (.passwordFilter false sampleArgs :: repeatedCalls) = some p' ∧
      .answered r ∈ p'.history.drop 1 ∧ r.args = sampleArgs := by
  have hphase : (Process.loadPackage sampleMachine ({} : Process Bool)
      calmSchedule).phase = .initialized := by decide +kernel
  have hends : ((run (Process.step sampleMachine)
      (Process.loadPackage sampleMachine {} calmSchedule)
      (.passwordFilter false sampleArgs :: repeatedCalls)).map
        fun p => decide p.Running) = some true := by decide +kernel
  have hsteps : testCount (Process.loadPackage sampleMachine ({} : Process Bool)
      calmSchedule).context + 3 ≤
        repeatedCalls.countP (Action.isStepOf false) := by decide +kernel
  obtain ⟨p', hrun, hrunning⟩ := Option.map_eq_some_iff.mp hends
  obtain ⟨r, hr, hargs⟩ := Process.calls_finish hphase hrun
    (decide_eq_true_eq.mp hrunning) hsteps
  exact ⟨p', r, hrun, hr, hargs⟩

end PwFilter
