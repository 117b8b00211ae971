import PwFilter.PackageRuns

/-!
# What the event log holds

The events of a run are a function of a few facts about each entry: of a call,
the account, the kind of operation and the verdict.  The password, the full
name and the entries of the lists are not among them, and what lay in the
arrays on the stack does not show.
-/

namespace PwFilter

open HandleTable ActionRuns

/-- What is said of an entry, and whether there is a source to say it to. -/
inductive Metadata where
  | initialized (registered : Bool)
      (loaded : Option (Bool × UInt32 × String)) (stopped : Option ℕ)
  | answered (registered : Bool) (account : List UInt16) (setOperation : Bool)
      (verdict : Verdict)

def Entry.metadata : Entry → Metadata
  | .initialized gCtx log stopped =>
      .initialized log.source.isSome
        (gCtx.map fun ctx =>
          (breachEnabled ctx, blacklistCount ctx, ctx.bloomError)) stopped
  | .answered r =>
      .answered r.log.source.isSome (viewString r.args.account)
        (r.args.setOperation ≠ 0) r.verdict

def faultText : Fault → List UInt16
  | .cppException => asciiUnits "exception".toList
  | .structuredException => asciiUnits "structured exception".toList

def loadNotices (enabled : Bool) (count : UInt32) (error : String) :
    List Event :=
  { type := .information
    message := .filterInitialized
    strings :=
      [ if enabled then asciiUnits "enabled".toList
        else asciiUnits "disabled".toList,
        decimal count.toNat ] } ::
    if !enabled ∧ error ≠ "" then
      [ { type := .warning
          message := .bloomUnavailable
          strings := [asciiUnits error.toList] } ]
    else []

def Metadata.notices : Metadata → List Event
  | .initialized true (some (enabled, count, error)) stopped =>
      madeReports stopped (loadNotices enabled count error)
  | .answered true account setOperation (.rejected rule) =>
      [ { type := .information
          message := .passwordRejected
          strings :=
            [ cString (account.take 255),
              if setOperation then asciiUnits "admin set".toList
              else asciiUnits "user change".toList,
              ruleNameW rule ] } ]
  | .answered true _ _ (.failed fault) =>
      [ { type := .warning
          message := .internalError
          strings := [faultText fault, []] } ]
  | _ => []

theorem madeReports_nil (stopped : Option ℕ) : madeReports stopped [] = [] := by
  cases stopped with
  | none => rfl
  | some n => exact List.take_nil

theorem madeReports_loadEvents
    (log : EventLog) (memory : LogMemory) (gCtx : Option FilterContext)
    (stopped : Option ℕ) :
    madeReports stopped (loadEvents log memory gCtx) =
      (Metadata.initialized log.source.isSome
        (gCtx.map fun ctx =>
          (breachEnabled ctx, blacklistCount ctx, ctx.bloomError))
        stopped).notices := by
  cases gCtx with
  | none =>
      rw [loadEvents, madeReports_nil]
      cases log.source with
      | none => rfl
      | some h => rfl
  | some ctx =>
      obtain ⟨source⟩ := log
      cases source with
      | none =>
          simp only [loadEvents, EventLog.reportInitialized, EventLog.report,
            EventLog.reportBloomUnavailable, Option.isSome_none, List.nil_append,
            Option.map_some, Metadata.notices, ite_self, madeReports_nil]
      | some h =>
          obtain ⟨_, _, _, hholds⟩ := ulongToW_exact (blacklistCount ctx)
            memory.tmp memory.countBuf [] []
          have hcount := hholds.cString
          rw [List.append_nil, List.append_nil] at hcount
          simp only [loadEvents, EventLog.reportInitialized, EventLog.report,
            EventLog.reportBloomUnavailable, Option.isSome_some,
            Option.map_some, Metadata.notices, loadNotices, hcount]
          rfl

theorem verdictEvents_eq
    (log : EventLog) (memory : LogMemory) {account : Option UnicodeString}
    (haccount : ∀ name ∈ account, name.WellFormed) (setOperation : UInt8)
    (verdict : Verdict) :
    verdict.events log memory account setOperation =
      (Metadata.answered log.source.isSome (viewString account)
        (setOperation ≠ 0) verdict).notices := by
  obtain ⟨source⟩ := log
  cases verdict with
  | accepted =>
      cases source with
      | none => rfl
      | some h => rfl
  | failed fault =>
      cases source with
      | none =>
          cases fault with
          | cppException => rfl
          | structuredException => rfl
      | some h =>
          cases fault with
          | cppException => rfl
          | structuredException => rfl
  | rejected rule =>
      cases source with
      | none => rfl
      | some h =>
          have hname := (copyName_exact memory.accountBuf.toList []
            (by norm_num) Vector.length_toList haccount).cString
          rw [List.append_nil] at hname
          simp only [Verdict.events, EventLog.reportRejected, EventLog.report,
            Option.isSome_some, Metadata.notices, hname]

/-- In every run whose account names are whole, the event log is given by the
metadata of the history alone. -/
theorem log_is_metadata
    {Thread : Type} [DecidableEq Thread] {m : Machine}
    {actions : List (Action Thread)} {p : Process Thread}
    (hrun : run (Process.step m) {} actions = some p)
    (haccounts : ∀ r, .answered r ∈ p.history →
      ∀ name ∈ r.args.account, name.WellFormed) :
    p.events = (p.history.map Entry.metadata).flatMap Metadata.notices := by
  obtain ⟨loaded, hreplays, _⟩ := (Process.sequential_of_run hrun).replays
  rw [hreplays.events_eq, List.flatMap_map]
  apply List.flatMap_congr
  intro entry hentry
  cases entry with
  | initialized gCtx log stopped =>
      exact madeReports_loadEvents log m.memory gCtx stopped
  | answered r =>
      exact verdictEvents_eq r.log m.memory (haccounts r hentry) _ _

/-- An answered call whose account name is there and lies in its buffer. -/
def Entry.named : Entry → Bool
  | .initialized _ _ _ => true
  | .answered r =>
      r.args.account.any fun name =>
        decide (name.length.toNat % 2 = 0) &&
          name.buffer.any fun units =>
            decide (name.length.toNat / 2 ≤ units.length)

theorem wellFormed_of_named
    {r : Answered} (hnamed : (Entry.answered r).named = true) :
    ∀ name ∈ r.args.account, name.WellFormed := by
  intro name hname
  rw [Entry.named, show r.args.account = some name from hname,
    Option.any_some, Bool.and_eq_true, decide_eq_true_eq] at hnamed
  obtain ⟨heven, hbuffer⟩ := hnamed
  refine ⟨heven, ?_⟩
  cases hunits : name.buffer with
  | none =>
      rw [hunits] at hbuffer
      cases hbuffer
  | some units =>
      rw [hunits, Option.any_some, decide_eq_true_eq] at hbuffer
      exact hbuffer

theorem log_is_metadata_sample :
    ∃ p, run (Process.step sampleMachine) {} sampleActions = some p ∧
      p.events = (p.history.map Entry.metadata).flatMap Metadata.notices := by
  have hnamed : ((run (Process.step sampleMachine) {} sampleActions).map
      fun p => p.history.all Entry.named) = some true := by decide +kernel
  obtain ⟨p, hrun, hall⟩ := Option.map_eq_some_iff.mp hnamed
  refine ⟨p, hrun, log_is_metadata hrun ?_⟩
  intro r hr
  exact wellFormed_of_named (List.all_eq_true.mp hall _ hr)

end PwFilter
