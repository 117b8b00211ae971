import PwFilter.PackageRuns

/-!
# The handles of the package

What is open at any time is what the globals hold, and what a structured
exception in `Create` left behind: nobody has those handles any more.  Without
one, the end of the process closes everything.
-/

namespace PwFilter

open Allocation HandleTable ActionRuns

def loadedHandles (loaded : EventLog × Option HeldContext) :
    Finset (WinObject × ℕ) :=
  objectHandles loaded.2 ∪ fieldHandles .eventSource loaded.1.source

theorem triple_initLog (registers : Bool) :
    Triple 0 ∅ (initLog registers) fun log =>
      fieldHandles .eventSource log.source := by
  unfold initLog
  split
  · exact (triple_acquire _).bind fun h => triple_pure rfl
  · exact triple_pure rfl

/-- Of what initialization opened, the globals have all but at most three
handles, and all of it when it was not interrupted. -/
theorem InitEnds.handles
    {m : Machine} {t t' : Table WinObject} {s : Schedule}
    {result : Option Loaded} (h : InitEnds m {} none t s (result, t'))
    (hsound : t.Sound) (hempty : t.live = ∅) :
    t'.Sound ∧ ∀ loaded ∈ result, ∃ leaked,
      t'.live = loadedHandles (loaded.log, loaded.gCtx) ∪ leaked ∧
        Disjoint (loadedHandles (loaded.log, loaded.gCtx)) leaked ∧
        leaked.card ≤ 3 ∧ (loaded.stopped = none → leaked = ∅) := by
  obtain ⟨left, hleaves, hsound₁, hlive₁, _⟩ := triple_initLog m.registers t ∅
    hsound (by rw [hempty, Finset.empty_union]) (Finset.disjoint_empty_left _)
    s {}
  rw [Finset.union_empty] at hlive₁
  have hcreated : ∀ {log : EventLog} {t₁ : Table WinObject} {c : Count},
      initLog m.registers t s {} = (.done log, t₁, c) →
      ∃ left, Leaves 3 objectHandles (WithHandles.create m.host t₁ s c).1 left ∧
        (WithHandles.create m.host t₁ s c).2.1.Sound ∧
        (WithHandles.create m.host t₁ s c).2.1.live =
          left ∪ fieldHandles .eventSource log.source ∧
        Disjoint left (fieldHandles .eventSource log.source) := by
    intro log t₁ c hlog
    rw [hlog] at hleaves hsound₁ hlive₁
    have hleft : left = fieldHandles .eventSource log.source := hleaves
    refine WithHandles.triple_create m.host t₁ _ hsound₁ ?_
      (Finset.disjoint_empty_left _) s c
    rw [hlive₁, hleft, Finset.empty_union]
  cases h with
  | returned hlog hcreate =>
      obtain ⟨held, hheld, hsound₂, hlive₂, _⟩ := hcreated hlog
      rw [hcreate] at hheld hsound₂ hlive₂
      refine ⟨hsound₂, ?_⟩
      intro loaded hloaded
      cases hloaded
      refine ⟨∅, ?_, Finset.disjoint_empty_right _, Nat.zero_le 3, fun _ => rfl⟩
      rw [Finset.union_empty, hlive₂, show held = _ from hheld]
      rfl
  | interrupted hlog hcreate =>
      obtain ⟨lost, hlost, hsound₂, hlive₂, hdisjoint⟩ := hcreated hlog
      rw [hcreate] at hlost hsound₂ hlive₂
      refine ⟨hsound₂, ?_⟩
      intro loaded hloaded
      cases hloaded
      rw [loadedHandles, objectHandles, Finset.empty_union]
      refine ⟨lost, ?_, hdisjoint.symm, hlost, fun hstopped => by cases hstopped⟩
      rw [hlive₂, Finset.union_comm]
  | unlogged hlog =>
      rw [hlog] at hleaves hsound₁ hlive₁
      refine ⟨hsound₁, ?_⟩
      intro loaded hloaded
      cases hloaded
      have hnothing : left = ∅ := Finset.card_eq_zero.mp (Nat.le_zero.mp hleaves)
      refine ⟨∅, ?_, Finset.disjoint_empty_right _, Nat.zero_le 3, fun _ => rfl⟩
      rw [hlive₁, hnothing]
      rfl
  | terminated hlog hcreate =>
      obtain ⟨_, _, hsound₂, _⟩ := hcreated hlog
      rw [hcreate] at hsound₂
      refine ⟨hsound₂, ?_⟩
      intro loaded hloaded
      cases hloaded

theorem quiet_detachRun (gCtx : Option HeldContext) (log : EventLog) :
    Quiet (detachRun gCtx log) fun _ => True := by
  unfold detachRun
  cases gCtx with
  | none => exact WithHandles.quiet_closeField _ _
  | some held =>
      exact (WithHandles.quiet_destroy held).bind fun _ _ =>
        WithHandles.quiet_closeField _ _

theorem detachRun_done
    (gCtx : Option HeldContext) (log : EventLog) (t : Table WinObject)
    {s : Schedule} (hcalm : s.Calm) (c : Count) :
    ∃ t' c', detachRun gCtx log t s c = (.done (), t', c') := by
  rcases quiet_detachRun gCtx log t s c with hcut | ⟨_, t', c', hrun, _⟩
  · exact absurd hcalm hcut.not_calm
  · exact ⟨t', c', hrun⟩

theorem disjoint_objectHandles
    (gCtx : Option HeldContext) (source : Option ℕ) :
    Disjoint (objectHandles gCtx) (fieldHandles .eventSource source) := by
  cases gCtx with
  | none => exact Finset.disjoint_empty_left _
  | some held =>
      simp only [objectHandles, HeldContext.handles,
        Finset.disjoint_union_left]
      exact ⟨disjoint_fieldHandles (by decide) _ _,
        disjoint_fieldHandles (by decide) _ _,
        disjoint_fieldHandles (by decide) _ _⟩

theorem triple_detachRun (gCtx : Option HeldContext) (log : EventLog) :
    Triple 4 (loadedHandles (log, gCtx)) (detachRun gCtx log) fun _ => ∅ := by
  have hcount : 3 + (fieldHandles .eventSource log.source).card ≤ 4 :=
    Nat.add_le_add_left (fieldHandles_card_le _ _) 3
  unfold detachRun loadedHandles
  cases gCtx with
  | none =>
      rw [objectHandles, Finset.empty_union]
      exact (WithHandles.triple_closeField _ _).mono (by decide)
  | some held =>
      refine (WithHandles.triple_destroy held).bind_frame
        (disjoint_objectHandles (some held) _) hcount fun _ => ?_
      rw [Finset.empty_union]
      exact (WithHandles.triple_closeField _ _).mono (by decide)

namespace Process

variable {Thread : Type}

/-! ## Whole runs -/

/-- Until the process is terminated, the handles in the fields of the globals
are open, and at most three that an interrupted initialization left. -/
structure HandlesOwned (p : Process Thread)
    (leaked : Finset (WinObject × ℕ)) : Prop where
  sound : p.handles.Sound
  live : p.phase ≠ .terminated →
    p.handles.live = loadedHandles (p.gLog, p.gCtx) ∪ leaked
  apart : p.phase ≠ .terminated →
    Disjoint (loadedHandles (p.gLog, p.gCtx)) leaked
  few : leaked.card ≤ 3
  complete : (∀ entry ∈ p.history, entry.Complete) → leaked = ∅
  attached : p.phase = .attached →
    p.gCtx = none ∧ p.gLog = {} ∧ leaked = ∅
  detached : p.phase = .detached → p.gCtx = none ∧ p.gLog = {}

variable {m : Machine} {p : Process Thread} {leaked : Finset (WinObject × ℕ)}

theorem Running.not_terminated (hp : p.Running) : p.phase ≠ .terminated := by
  rcases hp with h | h
  · rw [h]
    intro heq
    cases heq
  · rw [h]
    intro heq
    cases heq

theorem HandlesOwned.load
    (hp : p.HandlesOwned leaked) (hphase : p.phase = .attached)
    (s : Schedule) : ∃ leaked', (p.loadPackage m s).HandlesOwned leaked' := by
  obtain ⟨hctx, hlog, hnone⟩ := hp.attached hphase
  have hempty : p.handles.live = ∅ := by
    rw [hp.live (Running.not_terminated (Or.inl hphase)), hctx, hlog, hnone]
    rfl
  rcases loadPackage_cases m p s with
    ⟨loaded, handles, hends, hload⟩ | ⟨handles, hends, hload⟩
  · rw [hctx, hlog] at hends
    obtain ⟨hsound, howned⟩ := hends.handles hp.sound hempty
    obtain ⟨lost, hlive, hapart, hfew, hcomplete⟩ := howned loaded rfl
    rw [hload]
    refine ⟨lost, hsound, fun _ => hlive, fun _ => hapart, hfew, ?_, ?_, ?_⟩
    · intro hall
      exact hcomplete (hall _ (List.mem_append_right _ List.mem_cons_self))
    · intro h
      cases h
    · intro h
      cases h
  · rw [hctx, hlog] at hends
    obtain ⟨hsound, _⟩ := hends.handles hp.sound hempty
    rw [hload]
    refine ⟨∅, hsound, fun h => absurd rfl h, fun h => absurd rfl h,
      Nat.zero_le 3, fun _ => rfl, ?_, ?_⟩
    · intro h
      cases h
    · intro h
      cases h

theorem HandlesOwned.advance
    [DecidableEq Thread] (hp : p.HandlesOwned leaked) (thread : Thread)
    (call : Call) (fault : Option Fault) :
    (p.advanceCall m thread call fault).HandlesOwned leaked := by
  unfold advanceCall
  cases call.advance p.context p.gLog m.memory fault with
  | goesOn call' =>
      exact ⟨hp.sound, hp.live, hp.apart, hp.few, hp.complete, hp.attached,
        hp.detached⟩
  | answers accepted faults reportFaults events =>
      refine ⟨hp.sound, hp.live, hp.apart, hp.few, ?_, hp.attached,
        hp.detached⟩
      intro hall
      exact hp.complete fun entry hentry =>
        hall entry (List.mem_append_left _ hentry)

theorem HandlesOwned.detach
    (hp : p.HandlesOwned leaked) (hrunning : p.Running) :
    p.detach.HandlesOwned leaked := by
  have halive := hrunning.not_terminated
  obtain ⟨t', c', hrun⟩ := detachRun_done p.gCtx p.gLog p.handles
    (s := { fails := fun _ => false }) (fun _ => rfl) {}
  obtain ⟨left, hleaves, hsound, hlive, _⟩ := triple_detachRun p.gCtx p.gLog
    p.handles leaked hp.sound (hp.live halive) (hp.apart halive)
    { fails := fun _ => false } {}
  rw [hrun] at hleaves hsound hlive
  have hhandles : p.detach.handles = t' := by
    rw [Process.detach, hrun]
  refine ⟨?_, fun _ => ?_, fun _ => Finset.disjoint_empty_left _, hp.few,
    hp.complete, ?_, fun _ => ⟨rfl, rfl⟩⟩
  · rw [hhandles]
    exact hsound
  · rw [hhandles, hlive, show left = ∅ from hleaves]
    rfl
  · intro h
    cases h

theorem HandlesOwned.step
    [DecidableEq Thread] {p' : Process Thread} {a : Action Thread}
    (hp : p.HandlesOwned leaked) (hstep : step m p a = some p') :
    ∃ leaked', p'.HandlesOwned leaked' := by
  rcases step_cases hstep with ⟨s, _, hphase, rfl⟩ |
    ⟨thread, args, _, _, _, rfl⟩ | ⟨thread, fault, call, _, _, _, rfl⟩ |
    ⟨_, _, rfl⟩ | ⟨_, hrunning, rfl⟩
  · exact hp.load hphase s
  · exact ⟨leaked, hp.sound, hp.live, hp.apart, hp.few, hp.complete,
      hp.attached, hp.detached⟩
  · exact ⟨leaked, hp.advance thread call fault⟩
  · exact ⟨leaked, hp⟩
  · exact ⟨leaked, hp.detach hrunning⟩

theorem handlesOwned_start : ({} : Process Thread).HandlesOwned ∅ where
  sound := ⟨by simp, rfl⟩
  live := fun _ => rfl
  apart := fun _ => Finset.disjoint_empty_right _
  few := Nat.zero_le 3
  complete := fun _ => rfl
  attached := fun _ => ⟨rfl, rfl, rfl⟩
  detached := fun h => by cases h

/-- In every run, no handle is released twice or as another kind.  As long as
the process is not terminated, the open ones are those of the loaded context
and of the event source, and at most three that a structured exception in the
initialization left; after the process has detached, only these are left. -/
theorem handles_balanced
    [DecidableEq Thread] {actions : List (Action Thread)}
    (hrun : run (Process.step m) {} actions = some p) :
    p.handles.misused = false ∧
      (p.phase ≠ .terminated → ∃ leaked,
        p.handles.live = loadedHandles (p.gLog, p.gCtx) ∪ leaked ∧
          Disjoint (loadedHandles (p.gLog, p.gCtx)) leaked ∧
          leaked.card ≤ 3 ∧ ((∀ a ∈ actions, a.Calm) → leaked = ∅) ∧
          (p.phase = .detached → p.handles.live = leaked)) := by
  have howned : ∃ leaked, p.HandlesOwned leaked := by
    have hstep : ∀ (p : Process Thread) (a : Action Thread) (p' : Process Thread),
        (∃ leaked, p.HandlesOwned leaked) → step m p a = some p' →
          ∃ leaked, p'.HandlesOwned leaked := by
      intro p a p' hp hstep
      obtain ⟨leaked, hleaked⟩ := hp
      exact hleaked.step hstep
    exact invariant_of_step hstep ⟨∅, handlesOwned_start⟩ hrun
  obtain ⟨leaked, hp⟩ := howned
  refine ⟨hp.sound.unused, fun halive => ?_⟩
  refine ⟨leaked, hp.live halive, hp.apart halive, hp.few, ?_, ?_⟩
  · intro hcalm
    exact hp.complete (complete_of_run hcalm hrun)
  · intro hphase
    obtain ⟨hctx, hlog⟩ := hp.detached hphase
    rw [hp.live halive, hctx, hlog]
    exact Finset.empty_union leaked

end Process

theorem sampleActions_detached :
    (run (Process.step sampleMachine) {} sampleActions).map
      (fun p => p.phase) = some .detached := by
  decide +kernel

theorem handles_balanced_sample :
    ∃ p, run (Process.step sampleMachine) {} sampleActions = some p ∧
      p.handles.misused = false ∧ p.phase = .detached ∧
      p.handles.live = ∅ := by
  obtain ⟨p, hrun, hphase⟩ := Option.map_eq_some_iff.mp sampleActions_detached
  have halive : p.phase ≠ .terminated := by
    rw [hphase]
    intro h
    cases h
  obtain ⟨hunused, howned⟩ := Process.handles_balanced hrun
  obtain ⟨leaked, _, _, _, hcalm, hleft⟩ := howned halive
  refine ⟨p, hrun, hunused, hphase, ?_⟩
  rw [hleft hphase, hcalm sampleActions_calm]

/-- The mapped page of the Bloom image that `FromMemory` reads first cannot be
brought in. -/
def pageErrorSchedule : Schedule where
  fails := fun _ => false
  faults := fun i => i = 15

def pageErrorActions : List (Action Bool) :=
  [.initializeChangeNotify pageErrorSchedule, .processDetach]

-- the file, its mapping and its view stay open
example : (run (Process.step sampleMachine) {} pageErrorActions).map
    (fun p => (p.phase, p.handles.live)) =
      some (.detached, {(.view, 5), (.mapping, 4), (.file, 3)}) := by
  decide +kernel

end PwFilter
