import PwFilter.ContextHandles
import PwFilter.EventLog

/-!
# The package in its process

The DLL as LSASS runs it: it is attached, initialized once, asked about
passwords by any number of threads, and detached when the process ends, which
takes the threads with it.  A thread asks by stepping through `DoFilter`; what
another thread does comes between any two of its steps.  A structured exception
may end initialization anywhere, and leaves the globals as they are.

`passwordFilterRun` is one call on its own, with the events it reports.
-/

namespace PwFilter

open Allocation HandleTable

structure CallArgs where
  account : Option UnicodeString
  full : Option UnicodeString
  password : Option UnicodeString
  setOperation : UInt8

/-- What the process runs on: the host, the memory of the reports, and whether
the event source can be registered. -/
structure Machine where
  host : Host
  memory : LogMemory
  registers : Bool

/-! ## What is reported -/

def exceptionEvents (log : EventLog) : Fault → List Event
  | .cppException =>
      log.reportInternalError (asciiUnits "exception".toList) []
  | .structuredException =>
      log.reportInternalError (asciiUnits "structured exception".toList) []

/-- `CopyName` and `ReportRejected`. -/
def rejectionEvents (log : EventLog) (memory : LogMemory) (args : CallArgs)
    (rule : RuleId) : List Event :=
  log.reportRejected (copyName memory.accountBuf.toList 256 args.account)
    (args.setOperation ≠ 0) rule

def breachEnabled (ctx : FilterContext) : Bool := ctx.checker.isSome

def blacklistCount (ctx : FilterContext) : UInt32 :=
  match ctx.blacklist with
  | some blacklist => UInt32.ofNat blacklist.size
  | none => 0

def loadEvents (log : EventLog) (memory : LogMemory) :
    Option FilterContext → List Event
  | none => []
  | some ctx =>
      log.reportInitialized memory (breachEnabled ctx) (blacklistCount ctx) ++
        if !breachEnabled ctx ∧ ctx.bloomError ≠ "" then
          log.reportBloomUnavailable (asciiUnits ctx.bloomError.toList)
        else []

/-! ## One call -/

/-- `DoFilter` with its reports.  `reportFaults` says that reporting a
rejection raises a structured exception. -/
def doFilterRun (gCtx : Option FilterContext) (log : EventLog)
    (memory : LogMemory) (args : CallArgs) (faults : ℕ → Option Fault)
    (reportFaults : Bool) : Frame × List Event :=
  match gCtx with
  | none => (.returns true, [])
  | some ctx =>
      match args.password with
      | none => (.returns true, [])
      | some s =>
          if s.buffer = none ∧ s.length ≠ 0 then (.returns true, [])
          else
            match ctx.validator with
            | none => (.unwinds, [])
            | some validator =>
                match validator.evaluateUnder faults (viewString args.password)
                    (viewString args.account) (viewString args.full) with
                | .completed r =>
                    if r.allowed then (.returns true, [])
                    else if reportFaults then (.unwinds, [])
                    else
                      (.returns false, rejectionEvents log memory args r.rule)
                | .raised .cppException =>
                    (.returns true, exceptionEvents log .cppException)
                | .raised .structuredException => (.unwinds, [])

def passwordFilterRun (gCtx : Option FilterContext) (log : EventLog)
    (memory : LogMemory) (args : CallArgs) (faults : ℕ → Option Fault)
    (reportFaults : Bool) : Bool × List Event :=
  match doFilterRun gCtx log memory args faults reportFaults with
  | (.returns accepted, events) => (accepted, events)
  | (.unwinds, events) =>
      (true, events ++ exceptionEvents log .structuredException)

/-- As long as no exception comes while a rejection is reported, the reports
change no answer. -/
theorem doFilterRun_answer
    (gCtx : Option FilterContext) (log : EventLog) (memory : LogMemory)
    (args : CallArgs) (faults : ℕ → Option Fault) :
    (doFilterRun gCtx log memory args faults false).1 =
      doFilter gCtx args.account args.full args.password faults := by
  unfold doFilterRun doFilter
  cases gCtx with
  | none => rfl
  | some ctx =>
      cases args.password with
      | none => rfl
      | some s =>
          dsimp only
          split
          · rfl
          · cases ctx.validator with
            | none => rfl
            | some validator =>
                dsimp only
                cases validator.evaluateUnder faults (viewString (some s))
                    (viewString args.account) (viewString args.full) with
                | completed r =>
                    cases hallowed : r.allowed with
                    | true => simp only [hallowed, if_true]
                    | false =>
                        simp only [hallowed, Bool.false_eq_true, if_false]
                | raised fault =>
                    cases fault with
                    | cppException => rfl
                    | structuredException => rfl

theorem passwordFilterRun_answer
    (gCtx : Option FilterContext) (log : EventLog) (memory : LogMemory)
    (args : CallArgs) (faults : ℕ → Option Fault) :
    (passwordFilterRun gCtx log memory args faults false).1 =
      passwordFilter gCtx args.account args.full args.password faults := by
  rw [passwordFilter, ← doFilterRun_answer gCtx log memory, passwordFilterRun]
  cases doFilterRun gCtx log memory args faults false with
  | mk frame events =>
      cases frame with
      | returns accepted => rfl
      | unwinds => rfl

/-! ## One call step by step -/

inductive Stage where
  /-- Before `g_ctx == nullptr`. -/
  | entered
  /-- Before `g_ctx->validator()`. -/
  | checked
  | testing (mayThrow : RuleId → Bool) (tests : List (RuleId × Bool))
  | rejecting (rule : RuleId)

/-- A call under way, with the errors scheduled at its tests so far. -/
structure Call where
  args : CallArgs
  stage : Stage := .entered
  faults : List (Option Fault) := []

inductive Progress where
  | goesOn (call : Call)
  | answers (accepted : Bool) (faults : List (Option Fault))
      (reportFaults : Bool) (events : List Event)

def Call.advance (call : Call) (gCtx : Option FilterContext) (log : EventLog)
    (memory : LogMemory) (fault : Option Fault) : Progress :=
  let faults := call.faults ++ [fault]
  match call.stage with
  | .entered =>
      match gCtx with
      | none => .answers true [] false []
      | some _ =>
          match call.args.password with
          | none => .answers true [] false []
          | some s =>
              if s.buffer = none ∧ s.length ≠ 0 then .answers true [] false []
              else .goesOn { call with stage := .checked }
  | .checked =>
      match gCtx.bind fun ctx => ctx.validator with
      | none =>
          .answers true [] false (exceptionEvents log .structuredException)
      | some validator =>
          .goesOn { call with
            stage := .testing validator.mayThrow
              (validator.checks (viewString call.args.password)
                (viewString call.args.account) (viewString call.args.full)) }
  | .testing _ [] => .answers true call.faults false []
  | .testing mayThrow ((rule, hit) :: rest) =>
      match faultAt (mayThrow rule) fault with
      | some raised => .answers true faults false (exceptionEvents log raised)
      | none =>
          if hit then
            .goesOn { call with stage := .rejecting rule, faults := faults }
          else
            .goesOn { call with
              stage := .testing mayThrow rest
              faults := faults }
  | .rejecting rule =>
      if fault = some .structuredException then
        .answers true call.faults true
          (exceptionEvents log .structuredException)
      else
        .answers false call.faults false
          (rejectionEvents log memory call.args rule)

/-! ## The process -/

inductive Phase where
  | attached
  | initialized
  | detached
  | terminated
  deriving DecidableEq

/-- A call that was answered, with the context and the source it met. -/
structure Answered where
  args : CallArgs
  gCtx : Option FilterContext
  log : EventLog
  faults : List (Option Fault)
  reportFaults : Bool
  accepted : Bool

/-- Of an initialization that an exception ended, the history keeps how many
reports had been made. -/
inductive Entry where
  | initialized (gCtx : Option FilterContext) (log : EventLog)
      (stopped : Option ℕ)
  | answered (record : Answered)

/-- The globals, the handles, the event log, and the calls under way; the
history is kept for the statements about runs. -/
structure Process (Thread : Type) where
  phase : Phase := .attached
  gCtx : Option HeldContext := none
  gLog : EventLog := {}
  handles : Table WinObject := {}
  events : List Event := []
  calls : Thread → Option Call := fun _ => none
  history : List Entry := []

def Process.context {Thread : Type} (p : Process Thread) :
    Option FilterContext :=
  p.gCtx.map HeldContext.ctx

/-- `RegisterEventSourceW` -/
def initLog (registers : Bool) : WinSys EventLog :=
  if registers then do
    let h ← Sys.acquire .eventSource
    pure { source := some h }
  else pure {}

/-- What initialization leaves in the globals. -/
structure Loaded where
  log : EventLog
  gCtx : Option HeldContext
  /-- The number of reports made, when an exception ended it. -/
  stopped : Option ℕ

def Loaded.context (loaded : Loaded) : Option FilterContext :=
  loaded.gCtx.map HeldContext.ctx

/-- The first of `reports` calls that meets a structured exception. -/
def stoppedAt (s : Schedule) (operations reports : ℕ) : Option ℕ :=
  (List.range reports).find? fun i => s.faults (operations + i)

def madeReports (stopped : Option ℕ) (events : List Event) : List Event :=
  match stopped with
  | none => events
  | some n => events.take n

def Loaded.events (loaded : Loaded) (memory : LogMemory) : List Event :=
  madeReports loaded.stopped (loadEvents loaded.log memory loaded.context)

/-- `InitWorker` inside the `__try` of `InitializeChangeNotify`: the source,
`Create` and the reports.  It gives nothing when the process is terminated. -/
def initWorkerRun (m : Machine) (gLog : EventLog) (gCtx : Option HeldContext)
    (t : Table WinObject) (s : Schedule) : Option Loaded × Table WinObject :=
  match initLog m.registers t s {} with
  | (.done log, t, c) =>
      match WithHandles.create m.host t s c with
      | (.done object, t, c) =>
          let reports := loadEvents log m.memory (object.map HeldContext.ctx)
          (some
            { log := log
              gCtx := object
              stopped := stoppedAt s c.operations reports.length }, t)
      | (.terminated, t, _) => (none, t)
      -- `catch (...)` and `__except`: `g_ctx` has not been assigned
      | (_, t, _) => (some { log := log, gCtx := gCtx, stopped := some 0 }, t)
  | (.terminated, t, _) => (none, t)
  | (_, t, _) => (some { log := gLog, gCtx := gCtx, stopped := some 0 }, t)

/-- `delete g_ctx` and `g_log.Shutdown()`. -/
def detachRun (gCtx : Option HeldContext) (log : EventLog) : WinSys Unit := do
  match gCtx with
  | some c => WithHandles.destroy c
  | none => pure ()
  WithHandles.closeField .eventSource log.source

inductive Action (Thread : Type) where
  | initializeChangeNotify (schedule : Schedule)
  | passwordFilter (thread : Thread) (args : CallArgs)
  | advance (thread : Thread) (fault : Option Fault)
  | passwordChangeNotify
  | processDetach

namespace Process

variable {Thread : Type} [DecidableEq Thread]

def Running (p : Process Thread) : Prop :=
  p.phase = .attached ∨ p.phase = .initialized

instance (p : Process Thread) : Decidable p.Running :=
  inferInstanceAs (Decidable (_ ∨ _))

def loadPackage (m : Machine) (p : Process Thread) (s : Schedule) :
    Process Thread :=
  match initWorkerRun m p.gLog p.gCtx p.handles s with
  | (some loaded, handles) =>
      { p with
        phase := .initialized
        gCtx := loaded.gCtx
        gLog := loaded.log
        handles := handles
        events := p.events ++ loaded.events m.memory
        history := p.history ++
          [.initialized loaded.context loaded.log loaded.stopped] }
  | (none, handles) => { p with phase := .terminated, handles := handles }

def advanceCall (m : Machine) (p : Process Thread) (thread : Thread)
    (call : Call) (fault : Option Fault) : Process Thread :=
  match call.advance p.context p.gLog m.memory fault with
  | .goesOn call =>
      { p with calls := Function.update p.calls thread (some call) }
  | .answers accepted faults reportFaults events =>
      { p with
        calls := Function.update p.calls thread none
        events := p.events ++ events
        history := p.history ++
          [.answered
            { args := call.args
              gCtx := p.context
              log := p.gLog
              faults := faults
              reportFaults := reportFaults
              accepted := accepted }] }

def detach (p : Process Thread) : Process Thread :=
  { p with
    phase := .detached
    gCtx := none
    gLog := {}
    handles := (detachRun p.gCtx p.gLog p.handles { fails := fun _ => false } {}).2.1
    calls := fun _ => none }

/-- A thread is in at most one call, and initialization comes once. -/
def step (m : Machine) (p : Process Thread) :
    Action Thread → Option (Process Thread)
  | .initializeChangeNotify schedule =>
      if p.phase = .attached then some (p.loadPackage m schedule) else none
  | .passwordFilter thread args =>
      if p.Running ∧ (p.calls thread).isNone then
        some { p with
          calls := Function.update p.calls thread (some { args := args }) }
      else none
  | .advance thread fault =>
      if p.Running then
        (p.calls thread).map fun call => p.advanceCall m thread call fault
      else none
  | .passwordChangeNotify => if p.Running then some p else none
  | .processDetach => if p.Running then some p.detach else none

end Process

end PwFilter
