import PwFilter.ActionRuns
import PwFilter.Initialization
import PwFilter.Package

/-!
# Runs of the package

Whatever the threads do in between, each call is answered as it is on its own,
with the one context that was loaded or with none, and the event log is what
these calls report, in the order of their answers.
-/

namespace PwFilter

open Allocation HandleTable ActionRuns

/-! ## A call under way -/

/-- The errors of a call, none at the tests it did not come to. -/
def schedule (faults : List (Option Fault)) : ℕ → Option Fault :=
  fun i => faults.getD i none

def CallArgs.evaluate (args : CallArgs) (v : Validator)
    (faults : ℕ → Option Fault) : Evaluation :=
  v.evaluateUnder faults (viewString args.password) (viewString args.account)
    (viewString args.full)

/-- The argument that `DoFilter` looks at is not malformed. -/
def CallArgs.HasPassword (args : CallArgs) : Prop :=
  ∃ s, args.password = some s ∧ ¬ (s.buffer = none ∧ s.length ≠ 0)

/-- How the tests that are left continue the evaluation of the whole. -/
def Call.Consistent (call : Call) (gCtx : Option FilterContext) : Prop :=
  match call.stage with
  | .entered => call.faults = []
  | .checked =>
      call.faults = [] ∧ call.args.HasPassword ∧ ∃ ctx, gCtx = some ctx
  | .testing mayThrow tests =>
      call.args.HasPassword ∧ ∃ ctx v, gCtx = some ctx ∧
        ctx.validator = some v ∧
        ∀ more, call.args.evaluate v (schedule (call.faults ++ more)) =
          evaluateFrom mayThrow (schedule (call.faults ++ more))
            call.faults.length tests
  | .rejecting rule =>
      call.args.HasPassword ∧ ∃ ctx v, gCtx = some ctx ∧
        ctx.validator = some v ∧
        call.args.evaluate v (schedule call.faults) =
          .completed (.reject rule)

theorem schedule_next
    (faults more : List (Option Fault)) (fault : Option Fault) :
    schedule (faults ++ fault :: more) faults.length = fault := by
  rw [schedule, List.getD_eq_getElem?_getD,
    List.getElem?_append_right (Nat.le_refl _), Nat.sub_self]
  rfl

theorem passwordFilterRun_of_context
    {ctx : FilterContext} {args : CallArgs} (hargs : args.HasPassword)
    (log : EventLog) (memory : LogMemory) (faults : ℕ → Option Fault)
    (reportFaults : Bool) :
    passwordFilterRun (some ctx) log memory args faults reportFaults =
      match ctx.validator with
      | none => (true, exceptionEvents log .structuredException)
      | some v =>
          match args.evaluate v faults with
          | .completed r =>
              if r.allowed then (true, [])
              else if reportFaults then
                (true, exceptionEvents log .structuredException)
              else (false, rejectionEvents log memory args r.rule)
          | .raised fault => (true, exceptionEvents log fault) := by
  obtain ⟨s, hpassword, hbuffer⟩ := hargs
  simp only [passwordFilterRun, doFilterRun, hpassword, if_neg hbuffer,
    CallArgs.evaluate]
  cases ctx.validator with
  | none => rfl
  | some v =>
      dsimp only
      cases v.evaluateUnder faults (viewString (some s))
          (viewString args.account) (viewString args.full) with
      | completed r =>
          dsimp only
          cases r.allowed with
          | true => rfl
          | false =>
              cases reportFaults with
              | true => rfl
              | false => rfl
      | raised fault =>
          cases fault with
          | cppException => rfl
          | structuredException => rfl

section

variable {gCtx : Option FilterContext} {log : EventLog} {memory : LogMemory}
  {call call' : Call} {fault : Option Fault}

theorem Call.Consistent.advance_goesOn
    (hcall : call.Consistent gCtx)
    (hstep : call.advance gCtx log memory fault = .goesOn call') :
    call'.Consistent gCtx ∧ call'.args = call.args := by
  obtain ⟨args, stage, faults⟩ := call
  cases stage with
  | entered =>
      simp only [Call.advance] at hstep
      cases gCtx with
      | none => cases hstep
      | some ctx =>
          cases hpassword : args.password with
          | none =>
              simp only [hpassword] at hstep
              cases hstep
          | some s =>
              simp only [hpassword] at hstep
              split at hstep
              · cases hstep
              · rename_i hbuffer
                cases hstep
                exact ⟨⟨hcall, ⟨s, hpassword, hbuffer⟩, ctx, rfl⟩, rfl⟩
  | checked =>
      obtain ⟨hfaults, hargs, ctx, hctx⟩ := hcall
      have hnone : faults = [] := hfaults
      simp only [Call.advance, hctx, Option.bind_some] at hstep
      cases hvalidator : ctx.validator with
      | none =>
          simp only [hvalidator] at hstep
          cases hstep
      | some v =>
          simp only [hvalidator] at hstep
          cases hstep
          refine ⟨⟨hargs, ctx, v, hctx, hvalidator, ?_⟩, rfl⟩
          intro more
          show _ = evaluateFrom _ _ faults.length _
          rw [hnone]
          rfl
  | testing mayThrow tests =>
      obtain ⟨hargs, ctx, v, hctx, hvalidator, hrest⟩ := hcall
      cases tests with
      | nil => cases hstep
      | cons test rest =>
          obtain ⟨rule, hit⟩ := test
          simp only [Call.advance] at hstep
          cases hfault : faultAt (mayThrow rule) fault with
          | some raised =>
              simp only [hfault] at hstep
              cases hstep
          | none =>
              have hnext : ∀ more, args.evaluate v
                  (schedule ((faults ++ [fault]) ++ more)) =
                    if hit then .completed (.reject rule)
                    else evaluateFrom mayThrow
                      (schedule ((faults ++ [fault]) ++ more))
                      (faults ++ [fault]).length rest := by
                intro more
                have hwhole := hrest (fault :: more)
                rw [evaluateFrom, schedule_next, hfault] at hwhole
                rw [List.append_assoc, List.singleton_append,
                  List.length_append]
                exact hwhole
              simp only [hfault] at hstep
              cases hit with
              | true =>
                  cases hstep
                  have hlast := hnext []
                  rw [List.append_nil] at hlast
                  exact ⟨⟨hargs, ctx, v, hctx, hvalidator, hlast⟩, rfl⟩
              | false =>
                  cases hstep
                  exact ⟨⟨hargs, ctx, v, hctx, hvalidator, hnext⟩, rfl⟩
  | rejecting rule =>
      simp only [Call.advance] at hstep
      split at hstep
      · cases hstep
      · cases hstep

/-- The last step of a call answers and reports what the whole call does. -/
theorem Call.Consistent.advance_answers
    {accepted reportFaults : Bool} {faults : List (Option Fault)}
    {events : List Event} (hcall : call.Consistent gCtx)
    (hstep : call.advance gCtx log memory fault =
      .answers accepted faults reportFaults events) :
    passwordFilterRun gCtx log memory call.args (schedule faults)
      reportFaults = (accepted, events) := by
  obtain ⟨args, stage, before⟩ := call
  cases stage with
  | entered =>
      simp only [Call.advance] at hstep
      cases gCtx with
      | none =>
          cases hstep
          rfl
      | some ctx =>
          cases hpassword : args.password with
          | none =>
              simp only [hpassword] at hstep
              cases hstep
              simp only [passwordFilterRun, doFilterRun, hpassword]
          | some s =>
              simp only [hpassword] at hstep
              split at hstep
              · rename_i hbuffer
                cases hstep
                simp only [passwordFilterRun, doFilterRun, hpassword,
                  if_pos hbuffer]
              · cases hstep
  | checked =>
      obtain ⟨_, hargs, ctx, hctx⟩ := hcall
      simp only [Call.advance, hctx, Option.bind_some] at hstep
      cases hvalidator : ctx.validator with
      | none =>
          simp only [hvalidator] at hstep
          cases hstep
          rw [hctx, passwordFilterRun_of_context hargs, hvalidator]
      | some v =>
          simp only [hvalidator] at hstep
          cases hstep
  | testing mayThrow tests =>
      obtain ⟨hargs, ctx, v, hctx, hvalidator, hrest⟩ := hcall
      rw [hctx, passwordFilterRun_of_context hargs, hvalidator]
      dsimp only
      cases tests with
      | nil =>
          cases hstep
          have hallow := hrest []
          rw [List.append_nil] at hallow
          simp only [hallow, evaluateFrom, ValidationResult.allow_allowed,
            if_true]
      | cons test rest =>
          obtain ⟨rule, hit⟩ := test
          simp only [Call.advance] at hstep
          cases hfault : faultAt (mayThrow rule) fault with
          | some raised =>
              simp only [hfault] at hstep
              cases hstep
              have hwhole := hrest [fault]
              rw [evaluateFrom, schedule_next, hfault] at hwhole
              simp only [hwhole]
          | none =>
              simp only [hfault] at hstep
              cases hit with
              | true => cases hstep
              | false => cases hstep
  | rejecting rule =>
      obtain ⟨hargs, ctx, v, hctx, hvalidator, hrejects⟩ := hcall
      rw [hctx, passwordFilterRun_of_context hargs, hvalidator]
      simp only [Call.advance] at hstep
      split at hstep
      · cases hstep
        simp only [hrejects, ValidationResult.reject_allowed,
          Bool.false_eq_true, if_false, if_true]
      · cases hstep
        simp only [hrejects, ValidationResult.reject_allowed,
          Bool.false_eq_true, if_false]
        rfl

end

/-! ## Loading -/

/-- A context that is loaded is one that this host's `Create` makes. -/
theorem create_done
    {host : Host} {t t' : Table WinObject} {s : Schedule} {c c' : Count}
    {object : Option HeldContext}
    (hrun : WithHandles.create host t s c = (.done object, t', c')) :
    ∀ ctx ∈ object.map HeldContext.ctx, ctx.LoadedBy host := by
  obtain ⟨plain, hplain, hsame⟩ :=
    (WithHandles.simulates_create host).done hrun
  intro ctx hctx
  rw [hsame, Option.mem_def] at hctx
  rw [hctx] at hplain
  exact ⟨s.fails, c.allocations, c'.allocations, hplain⟩

theorem create_not_raised
    (host : Host) (t : Table WinObject) (s : Schedule) (c : Count) :
    (WithHandles.create host t s c).1 ≠ .raised := by
  unfold WithHandles.create Sys.noexcept
  cases WithHandles.createBody host t s c with
  | mk ending rest =>
      cases ending with
      | done a => intro h; cases h
      | raised => intro h; cases h
      | terminated => intro h; cases h
      | faulted => intro h; cases h

theorem create_not_faulted
    (host : Host) (t : Table WinObject) {s : Schedule} (hcalm : s.Calm)
    (c : Count) : (WithHandles.create host t s c).1 ≠ .faulted := by
  intro hfault
  rcases WithHandles.simulates_create host t s c with hcut | ⟨hrelated, _⟩
  · exact hcut.not_calm hcalm
  · rw [hfault] at hrelated
    cases hrelated

theorem quiet_initLog (registers : Bool) :
    Quiet (initLog registers) fun _ => True := by
  unfold initLog
  split
  · exact (quiet_acquire _).bind fun h _ => quiet_pure trivial
  · exact quiet_pure trivial

theorem stoppedAt_calm
    {s : Schedule} (hcalm : s.Calm) (operations reports : ℕ) :
    stoppedAt s operations reports = none := by
  rw [stoppedAt, List.find?_eq_none]
  intro i _
  rw [hcalm]
  exact Bool.false_ne_true

/-- The ways in which initialization can end. -/
inductive InitEnds (m : Machine) (gLog : EventLog) (gCtx : Option HeldContext)
    (t : Table WinObject) (s : Schedule) :
    Option Loaded × Table WinObject → Prop
  | returned {log : EventLog} {t₁ t' : Table WinObject} {c c' : Count}
      {object : Option HeldContext}
      (hlog : initLog m.registers t s {} = (.done log, t₁, c))
      (hcreate : WithHandles.create m.host t₁ s c = (.done object, t', c')) :
      InitEnds m gLog gCtx t s
        (some
          { log := log
            gCtx := object
            stopped := stoppedAt s c'.operations
              (loadEvents log m.memory
                (object.map HeldContext.ctx)).length }, t')
  | interrupted {log : EventLog} {t₁ t' : Table WinObject} {c c' : Count}
      (hlog : initLog m.registers t s {} = (.done log, t₁, c))
      (hcreate : WithHandles.create m.host t₁ s c = (.faulted, t', c')) :
      InitEnds m gLog gCtx t s
        (some { log := log, gCtx := gCtx, stopped := some 0 }, t')
  | unlogged {t' : Table WinObject} {c : Count}
      (hlog : initLog m.registers t s {} = (.faulted, t', c)) :
      InitEnds m gLog gCtx t s
        (some { log := gLog, gCtx := gCtx, stopped := some 0 }, t')
  | terminated {log : EventLog} {t₁ t' : Table WinObject} {c c' : Count}
      (hlog : initLog m.registers t s {} = (.done log, t₁, c))
      (hcreate : WithHandles.create m.host t₁ s c = (.terminated, t', c')) :
      InitEnds m gLog gCtx t s (none, t')

theorem initWorkerRun_ends
    (m : Machine) (gLog : EventLog) (gCtx : Option HeldContext)
    (t : Table WinObject) (s : Schedule) :
    InitEnds m gLog gCtx t s (initWorkerRun m gLog gCtx t s) := by
  unfold initWorkerRun
  rcases quiet_initLog m.registers t s {} with
    ⟨hcut, _⟩ | ⟨log, t₁, c, hlog, _, _⟩
  · cases hlog : initLog m.registers t s {} with
    | mk ending rest =>
        obtain ⟨t', c⟩ := rest
        rw [hlog] at hcut
        have hending : ending = .faulted := hcut
        rw [hending] at hlog ⊢
        exact .unlogged hlog
  · rw [hlog]
    have hraised := create_not_raised m.host t₁ s c
    cases hcreate : WithHandles.create m.host t₁ s c with
    | mk ending rest =>
        obtain ⟨t', c'⟩ := rest
        rw [hcreate] at hraised
        simp only [hcreate]
        cases ending with
        | done object => exact .returned hlog hcreate
        | raised => exact absurd rfl hraised
        | terminated => exact .terminated hlog hcreate
        | faulted => exact .interrupted hlog hcreate

section

variable {m : Machine} {gLog : EventLog} {gCtx : Option HeldContext}
  {t : Table WinObject} {s : Schedule} {result : Option Loaded × Table WinObject}
  {loaded : Loaded}

theorem InitEnds.loadedBy
    (h : InitEnds m gLog none t s result) (hloaded : loaded ∈ result.1) :
    ∀ ctx ∈ loaded.context, ctx.LoadedBy m.host := by
  cases h with
  | returned hlog hcreate =>
      cases hloaded
      exact create_done hcreate
  | interrupted hlog hcreate =>
      cases hloaded
      intro ctx hctx
      cases hctx
  | unlogged hlog =>
      cases hloaded
      intro ctx hctx
      cases hctx
  | terminated hlog hcreate => cases hloaded

theorem InitEnds.stopped_none
    (h : InitEnds m gLog gCtx t s result) (hcalm : s.Calm)
    (hloaded : loaded ∈ result.1) : loaded.stopped = none := by
  cases h with
  | returned hlog hcreate =>
      cases hloaded
      exact stoppedAt_calm hcalm _ _
  | interrupted hlog hcreate =>
      exact absurd (congrArg Prod.fst hcreate)
        (create_not_faulted m.host _ hcalm _)
  | unlogged hlog =>
      rcases quiet_initLog m.registers t s {} with
        hcut | ⟨_, _, _, hrun, _⟩
      · exact absurd hcalm hcut.not_calm
      · rw [hlog] at hrun
        cases hrun
  | terminated hlog hcreate => cases hloaded

end

/-! ## Steps of the process -/

namespace Process

variable {Thread : Type}

theorem loadPackage_cases
    (m : Machine) (p : Process Thread) (s : Schedule) :
    (∃ loaded handles,
      InitEnds m p.gLog p.gCtx p.handles s (some loaded, handles) ∧
        p.loadPackage m s =
          { p with
            phase := .initialized
            gCtx := loaded.gCtx
            gLog := loaded.log
            handles := handles
            events := p.events ++ loaded.events m.memory
            history := p.history ++
              [.initialized loaded.context loaded.log loaded.stopped] }) ∨
      ∃ handles, InitEnds m p.gLog p.gCtx p.handles s (none, handles) ∧
        p.loadPackage m s =
          { p with phase := .terminated, handles := handles } := by
  have hends := initWorkerRun_ends m p.gLog p.gCtx p.handles s
  unfold loadPackage
  cases hrun : initWorkerRun m p.gLog p.gCtx p.handles s with
  | mk loaded handles =>
      rw [hrun] at hends
      cases loaded with
      | none => exact .inr ⟨handles, hends, rfl⟩
      | some loaded => exact .inl ⟨loaded, handles, hends, rfl⟩

theorem step_cases
    [DecidableEq Thread] {m : Machine} {p p' : Process Thread} {a : Action Thread}
    (hstep : step m p a = some p') :
    (∃ s, a = .initializeChangeNotify s ∧ p.phase = .attached ∧
        p' = p.loadPackage m s) ∨
      (∃ thread args, a = .passwordFilter thread args ∧ p.Running ∧
        p.calls thread = none ∧
        p' = { p with
          calls := Function.update p.calls thread (some { args := args }) }) ∨
      (∃ thread fault call, a = .advance thread fault ∧ p.Running ∧
        p.calls thread = some call ∧
        p' = p.advanceCall m thread call fault) ∨
      (a = .passwordChangeNotify ∧ p.Running ∧ p' = p) ∨
      (a = .processDetach ∧ p.Running ∧ p' = p.detach) := by
  cases a with
  | initializeChangeNotify s =>
      simp only [step] at hstep
      split at hstep
      · rename_i hphase
        cases hstep
        exact .inl ⟨s, rfl, hphase, rfl⟩
      · cases hstep
  | passwordFilter thread args =>
      simp only [step] at hstep
      split at hstep
      · rename_i hfree
        cases hstep
        exact .inr (.inl ⟨thread, args, rfl, hfree.1,
          Option.isNone_iff_eq_none.mp hfree.2, rfl⟩)
      · cases hstep
  | advance thread fault =>
      simp only [step] at hstep
      split at hstep
      · rename_i hrunning
        obtain ⟨call, hcall, hnext⟩ := Option.map_eq_some_iff.mp hstep
        exact .inr (.inr (.inl ⟨thread, fault, call, rfl, hrunning, hcall,
          hnext.symm⟩))
      · cases hstep
  | passwordChangeNotify =>
      simp only [step] at hstep
      split at hstep
      · rename_i hrunning
        cases hstep
        exact .inr (.inr (.inr (.inl ⟨rfl, hrunning, rfl⟩)))
      · cases hstep
  | processDetach =>
      simp only [step] at hstep
      split at hstep
      · rename_i hrunning
        cases hstep
        exact .inr (.inr (.inr (.inr ⟨rfl, hrunning, rfl⟩)))
      · cases hstep

end Process

/-! ## Verdicts -/

/-- What a call comes to. -/
inductive Verdict where
  | accepted
  | rejected (rule : RuleId)
  | failed (fault : Fault)
  deriving DecidableEq

def Verdict.accepts : Verdict → Bool
  | .rejected _ => false
  | _ => true

/-- The report of a verdict; it takes nothing else from the call but the
account and the kind of operation. -/
def Verdict.events (log : EventLog) (memory : LogMemory)
    (account : Option UnicodeString) (setOperation : UInt8) :
    Verdict → List Event
  | .accepted => []
  | .rejected rule =>
      log.reportRejected (copyName memory.accountBuf.toList 256 account)
        (setOperation ≠ 0) rule
  | .failed fault => exceptionEvents log fault

def callVerdict (gCtx : Option FilterContext) (args : CallArgs)
    (faults : ℕ → Option Fault) (reportFaults : Bool) : Verdict :=
  match gCtx with
  | none => .accepted
  | some ctx =>
      match args.password with
      | none => .accepted
      | some s =>
          if s.buffer = none ∧ s.length ≠ 0 then .accepted
          else
            match ctx.validator with
            | none => .failed .structuredException
            | some v =>
                match args.evaluate v faults with
                | .completed r =>
                    if r.allowed then .accepted
                    else if reportFaults then .failed .structuredException
                    else .rejected r.rule
                | .raised fault => .failed fault

theorem passwordFilterRun_eq_verdict
    (gCtx : Option FilterContext) (log : EventLog) (memory : LogMemory)
    (args : CallArgs) (faults : ℕ → Option Fault) (reportFaults : Bool) :
    passwordFilterRun gCtx log memory args faults reportFaults =
      ((callVerdict gCtx args faults reportFaults).accepts,
        (callVerdict gCtx args faults reportFaults).events log memory
          args.account args.setOperation) := by
  cases gCtx with
  | none => rfl
  | some ctx =>
      cases hpassword : args.password with
      | none =>
          simp only [passwordFilterRun, doFilterRun, callVerdict, hpassword]
          rfl
      | some s =>
          by_cases hbuffer : s.buffer = none ∧ s.length ≠ 0
          · simp only [passwordFilterRun, doFilterRun, callVerdict, hpassword,
              if_pos hbuffer]
            rfl
          · rw [passwordFilterRun_of_context ⟨s, hpassword, hbuffer⟩]
            simp only [callVerdict, hpassword, if_neg hbuffer]
            cases ctx.validator with
            | none => rfl
            | some v =>
                dsimp only
                cases args.evaluate v faults with
                | completed r =>
                    dsimp only
                    cases r.allowed with
                    | true => rfl
                    | false =>
                        cases reportFaults with
                        | true => rfl
                        | false => rfl
                | raised fault => rfl

def Answered.verdict (r : Answered) : Verdict :=
  callVerdict r.gCtx r.args (schedule r.faults) r.reportFaults

/-! ## The package taken call by call -/

/-- The globals before and after initialization. -/
def globals (loaded : Option (Option FilterContext × EventLog)) :
    Option FilterContext × EventLog :=
  loaded.getD (none, {})

/-- The histories, with the events they leave, of a package that is
initialized at most once and takes every call in a single step.  When an
exception ended the initialization, the first reports were made. -/
inductive Replays (m : Machine) :
    Option (Option FilterContext × EventLog) → List Entry → List Event → Prop
  | start : Replays m none [] []
  | initialized {entries : List Entry} {events : List Event}
      {gCtx : Option FilterContext} {log : EventLog} {stopped : Option ℕ}
      (before : Replays m none entries events)
      (made : ∀ ctx ∈ gCtx, ctx.LoadedBy m.host) :
      Replays m (some (gCtx, log)) (entries ++ [.initialized gCtx log stopped])
        (events ++ madeReports stopped (loadEvents log m.memory gCtx))
  | answered {loaded : Option (Option FilterContext × EventLog)}
      {entries : List Entry} {events reported : List Event} {r : Answered}
      (before : Replays m loaded entries events)
      (met : (r.gCtx, r.log) = globals loaded)
      (alone : passwordFilterRun r.gCtx r.log m.memory r.args
        (schedule r.faults) r.reportFaults = (r.accepted, reported)) :
      Replays m loaded (entries ++ [.answered r]) (events ++ reported)

def Entry.reports (memory : LogMemory) : Entry → List Event
  | .initialized gCtx log stopped =>
      madeReports stopped (loadEvents log memory gCtx)
  | .answered r =>
      r.verdict.events r.log memory r.args.account r.args.setOperation

section

variable {m : Machine} {loaded : Option (Option FilterContext × EventLog)}
  {entries : List Entry} {events : List Event}

theorem Replays.loadedBy
    (h : Replays m loaded entries events) :
    ∀ ctx ∈ (globals loaded).1, ctx.LoadedBy m.host := by
  induction h with
  | start =>
      intro ctx hctx
      cases hctx
  | initialized before made ih => exact made
  | answered before met alone ih => exact ih

theorem Replays.of_answered
    (h : Replays m loaded entries events) {r : Answered}
    (hr : .answered r ∈ entries) :
    r.accepted = r.verdict.accepts ∧
      ∀ ctx ∈ r.gCtx, ctx.LoadedBy m.host := by
  induction h with
  | start => cases hr
  | initialized before made ih =>
      rcases List.mem_append.mp hr with hold | hnew
      · exact ih hold
      · cases List.mem_singleton.mp hnew
  | answered before met alone ih =>
      rcases List.mem_append.mp hr with hold | hnew
      · exact ih hold
      · cases List.mem_singleton.mp hnew
        rw [passwordFilterRun_eq_verdict, Prod.mk.injEq] at alone
        obtain ⟨haccepted, _⟩ := alone
        refine ⟨haccepted.symm, ?_⟩
        have hmade := before.loadedBy
        rw [← met] at hmade
        exact hmade

theorem Replays.events_eq
    (h : Replays m loaded entries events) :
    events = entries.flatMap (Entry.reports m.memory) := by
  induction h with
  | start => rfl
  | initialized before made ih =>
      rw [List.flatMap_append, List.flatMap_singleton, ← ih]
      rfl
  | answered before met alone ih =>
      rw [passwordFilterRun_eq_verdict, Prod.mk.injEq] at alone
      obtain ⟨_, hreported⟩ := alone
      rw [List.flatMap_append, List.flatMap_singleton, ← ih, ← hreported]
      rfl

end

/-- No structured exception is scheduled in the initialization. -/
def Action.Calm {Thread : Type} : Action Thread → Prop
  | .initializeChangeNotify s => s.Calm
  | _ => True

/-- All reports of the entry were made. -/
def Entry.Complete : Entry → Prop
  | .initialized _ _ stopped => stopped = none
  | .answered _ => True

/-! ## Whole runs -/

namespace Process

variable {Thread : Type}

/-- What holds in every state of a run. -/
structure Sequential (m : Machine) (p : Process Thread) : Prop where
  calls : ∀ thread call, p.calls thread = some call →
    call.Consistent p.context
  replays : ∃ loaded, Replays m loaded p.history p.events ∧
    (p.phase = .attached → loaded = none) ∧
    (p.Running → (p.context, p.gLog) = globals loaded)

variable {m : Machine} {p : Process Thread}

/-- Before initialization every call is still at its first look at `g_ctx`. -/
theorem Sequential.consistent_of_attached
    (hp : Sequential m p) (hphase : p.phase = .attached)
    (gCtx : Option FilterContext) {thread : Thread} {call : Call}
    (hcall : p.calls thread = some call) : call.Consistent gCtx := by
  have hold := hp.calls thread call hcall
  obtain ⟨loaded, _, hattached, hcurrent⟩ := hp.replays
  have hglobals := hcurrent (Or.inl hphase)
  rw [hattached hphase, globals, Option.getD_none, Prod.mk.injEq] at hglobals
  rw [hglobals.1] at hold
  obtain ⟨args, stage, faults⟩ := call
  cases stage with
  | entered => exact hold
  | checked =>
      obtain ⟨_, _, ctx, hctx⟩ := hold
      cases hctx
  | testing mayThrow tests =>
      obtain ⟨_, ctx, v, hctx, _⟩ := hold
      cases hctx
  | rejecting rule =>
      obtain ⟨_, ctx, v, hctx, _⟩ := hold
      cases hctx

theorem Sequential.load
    (hp : Sequential m p) (hphase : p.phase = .attached) (s : Schedule) :
    Sequential m (p.loadPackage m s) := by
  obtain ⟨loaded, hreplays, hattached, hcurrent⟩ := hp.replays
  have hnone := hattached hphase
  have hglobals := hcurrent (Or.inl hphase)
  rw [hnone, globals, Option.getD_none, Prod.mk.injEq] at hglobals
  have hctx : p.gCtx = none := Option.map_eq_none_iff.mp hglobals.1
  rw [hnone] at hreplays
  rcases loadPackage_cases m p s with
    ⟨after, handles, hends, hload⟩ | ⟨handles, _, hload⟩
  · rw [hctx] at hends
    rw [hload]
    refine ⟨?_, some (after.context, after.log), ?_, ?_, ?_⟩
    · intro thread call hcall
      exact hp.consistent_of_attached hphase _ hcall
    · exact hreplays.initialized (hends.loadedBy rfl)
    · intro hattached'
      cases hattached'
    · intro _
      rfl
  · rw [hload]
    refine ⟨hp.calls, none, hreplays, fun _ => rfl, ?_⟩
    intro hrunning
    rcases hrunning with h | h
    · cases h
    · cases h

theorem Sequential.advance
    [DecidableEq Thread] (hp : Sequential m p) (hrunning : p.Running)
    {thread : Thread} {call : Call} (hcall : p.calls thread = some call)
    (fault : Option Fault) :
    Sequential m (p.advanceCall m thread call fault) := by
  have hconsistent := hp.calls thread call hcall
  obtain ⟨loaded, hreplays, hattached, hcurrent⟩ := hp.replays
  unfold advanceCall
  cases hstep : call.advance p.context p.gLog m.memory fault with
  | goesOn call' =>
      refine ⟨?_, loaded, hreplays, hattached, hcurrent⟩
      intro other otherCall hother
      by_cases hsame : other = thread
      · rw [hsame] at hother
        simp only [Function.update_self, Option.some.injEq] at hother
        rw [← hother]
        exact (hconsistent.advance_goesOn hstep).1
      · simp only [Function.update_of_ne hsame] at hother
        exact hp.calls other otherCall hother
  | answers accepted faults reportFaults events =>
      refine ⟨?_, loaded, ?_, hattached, hcurrent⟩
      · intro other otherCall hother
        by_cases hsame : other = thread
        · rw [hsame] at hother
          simp only [Function.update_self] at hother
          cases hother
        · simp only [Function.update_of_ne hsame] at hother
          exact hp.calls other otherCall hother
      · exact hreplays.answered (hcurrent hrunning)
          (hconsistent.advance_answers hstep)

theorem Sequential.step
    [DecidableEq Thread] {p' : Process Thread} {a : Action Thread}
    (hp : Sequential m p) (hstep : step m p a = some p') :
    Sequential m p' := by
  rcases step_cases hstep with ⟨s, _, hphase, rfl⟩ |
    ⟨thread, args, _, _, _, rfl⟩ |
    ⟨thread, fault, call, _, hrunning, hcall, rfl⟩ |
    ⟨_, _, rfl⟩ | ⟨_, _, rfl⟩
  · exact hp.load hphase s
  · refine ⟨?_, hp.replays⟩
    intro other otherCall hother
    by_cases hsame : other = thread
    · rw [hsame] at hother
      simp only [Function.update_self, Option.some.injEq] at hother
      rw [← hother]
      exact rfl
    · simp only [Function.update_of_ne hsame] at hother
      exact hp.calls other otherCall hother
  · exact hp.advance hrunning hcall fault
  · exact hp
  · obtain ⟨loaded, hreplays, _, _⟩ := hp.replays
    refine ⟨?_, loaded, hreplays, ?_, ?_⟩
    · intro thread call hcall
      cases hcall
    · intro hphase
      cases hphase
    · intro hrunning
      rcases hrunning with h | h
      · cases h
      · cases h

theorem sequential_start (m : Machine) :
    Sequential m ({} : Process Thread) := by
  refine ⟨?_, none, Replays.start, fun _ => rfl, fun _ => rfl⟩
  intro thread call hcall
  cases hcall

theorem sequential_of_run
    [DecidableEq Thread] {actions : List (Action Thread)}
    (hrun : run (Process.step m) {} actions = some p) : Sequential m p :=
  invariant_of_step (fun _ _ _ hp hstep => hp.step hstep)
    (sequential_start m) hrun

theorem answered_of_run
    [DecidableEq Thread] {actions : List (Action Thread)}
    (hrun : run (Process.step m) {} actions = some p) {r : Answered}
    (hr : .answered r ∈ p.history) :
    r.accepted = r.verdict.accepts ∧
      ∀ ctx ∈ r.gCtx, ctx.LoadedBy m.host := by
  obtain ⟨loaded, hreplays, _⟩ := (sequential_of_run hrun).replays
  exact hreplays.of_answered hr

/-! ### Runs without a structured exception in initialization -/

theorem complete_step
    [DecidableEq Thread] {p' : Process Thread} {a : Action Thread}
    (hcalm : a.Calm) (hp : ∀ entry ∈ p.history, entry.Complete)
    (hstep : step m p a = some p') : ∀ entry ∈ p'.history, entry.Complete := by
  rcases step_cases hstep with ⟨s, rfl, _, rfl⟩ | ⟨_, _, _, _, _, rfl⟩ |
    ⟨_, fault, call, _, _, _, rfl⟩ | ⟨_, _, rfl⟩ | ⟨_, _, rfl⟩
  · rcases loadPackage_cases m p s with
      ⟨after, handles, hends, hload⟩ | ⟨handles, _, hload⟩
    · rw [hload]
      intro entry hentry
      rcases List.mem_append.mp hentry with hold | hnew
      · exact hp entry hold
      · rw [List.mem_singleton.mp hnew]
        exact hends.stopped_none hcalm rfl
    · rw [hload]
      exact hp
  · exact hp
  · unfold advanceCall
    cases call.advance p.context p.gLog m.memory fault with
    | goesOn call' => exact hp
    | answers accepted faults reportFaults events =>
        intro entry hentry
        rcases List.mem_append.mp hentry with hold | hnew
        · exact hp entry hold
        · rw [List.mem_singleton.mp hnew]
          exact trivial
  · exact hp
  · exact hp

theorem complete_of_run
    [DecidableEq Thread] {actions : List (Action Thread)}
    (hcalm : ∀ a ∈ actions, a.Calm)
    (hrun : run (Process.step m) {} actions = some p) :
    ∀ entry ∈ p.history, entry.Complete := by
  refine invariant_of_allowed (fun _ _ _ ha hp hstep => complete_step ha hp hstep)
    hcalm ?_ hrun
  intro entry hentry
  cases hentry

/-- However the threads interleave, the answers and the event log are those of
the package taken call by call, and while the process runs it has the context
that this history loaded.  Only a structured exception in the initialization
keeps back some of its reports. -/
theorem runs_replay
    [DecidableEq Thread] {actions : List (Action Thread)}
    (hrun : run (Process.step m) {} actions = some p) :
    (∃ loaded, Replays m loaded p.history p.events ∧
      (p.Running → (p.context, p.gLog) = globals loaded)) ∧
      ((∀ a ∈ actions, a.Calm) → ∀ entry ∈ p.history, entry.Complete) := by
  obtain ⟨loaded, hreplays, _, hcurrent⟩ := (sequential_of_run hrun).replays
  exact ⟨⟨loaded, hreplays, hcurrent⟩, fun hcalm => complete_of_run hcalm hrun⟩

end Process

def sampleMachine : Machine where
  host := plainHost
  memory :=
    { tmp := Vector.replicate 11 0
      countBuf := Vector.replicate 11 0
      accountBuf := Vector.replicate 256 0 }
  registers := true

def sampleArgs : CallArgs where
  account := some { length := 6, buffer := some (asciiUnits "bob".toList) }
  full := none
  password := some { length := 2, buffer := some [0x71] }
  setOperation := 0

def calmSchedule : Schedule where
  fails := fun _ => false

/-- The first call is entered before initialization and looks at the context
after it; the second is still under way when the process detaches. -/
def sampleActions : List (Action Bool) :=
  [.passwordFilter false sampleArgs, .initializeChangeNotify calmSchedule,
    .passwordFilter true sampleArgs, .advance true none, .advance false none,
    .advance false none, .advance true none, .advance false none,
    .advance false none, .processDetach]

/-- The password passes every test of the built-in settings. -/
def strongArgs : CallArgs where
  account := some { length := 6, buffer := some (asciiUnits "bob".toList) }
  full := none
  password := some
    { length := 32
      buffer := some (asciiUnits "Wm7!Kp4@Zb9#Vt2$".toList) }
  setOperation := 1

/-- With one company term the call takes fourteen steps. -/
def strongActions : List (Action Bool) :=
  .initializeChangeNotify calmSchedule ::
    .passwordFilter true strongArgs :: List.replicate 14 (.advance true none)

/-- An entry that was found by evaluating a run. -/
theorem exists_entry_of_any
    {Thread : Type} [DecidableEq Thread] {m : Machine}
    {actions : List (Action Thread)} {found : Entry → Bool}
    (hany : ((run (Process.step m) {} actions).map
      fun p => p.history.any found) = some true) :
    ∃ p entry, run (Process.step m) {} actions = some p ∧
      entry ∈ p.history ∧ found entry = true := by
  obtain ⟨p, hrun, hfound⟩ := Option.map_eq_some_iff.mp hany
  obtain ⟨entry, hentry, hthis⟩ := List.any_eq_true.mp hfound
  exact ⟨p, entry, hrun, hentry, hthis⟩

theorem sampleActions_run :
    (run (Process.step sampleMachine) {} sampleActions).isSome = true := by
  decide +kernel

theorem sampleActions_calm : ∀ a ∈ sampleActions, a.Calm := by
  intro a ha
  simp only [sampleActions, List.mem_cons, List.not_mem_nil, or_false] at ha
  rcases ha with rfl | rfl | rfl | rfl | rfl | rfl | rfl | rfl | rfl | rfl
  case inr.inl => exact fun _ => rfl
  all_goals exact trivial

theorem runs_replay_sample :
    ∃ p loaded, run (Process.step sampleMachine) {} sampleActions = some p ∧
      Replays sampleMachine loaded p.history p.events ∧
      ∀ entry ∈ p.history, entry.Complete := by
  obtain ⟨p, hrun⟩ := Option.isSome_iff_exists.mp sampleActions_run
  obtain ⟨⟨loaded, hreplays, _⟩, hcomplete⟩ := Process.runs_replay hrun
  exact ⟨p, loaded, hrun, hreplays, hcomplete sampleActions_calm⟩

end PwFilter
