import PwFilter.FilterContext
import PwFilter.HandleTable

/-!
# The handles of the filter state

`Create` and the destructor with the handles they open and close.  The
functions are those of the filter state, each next to its own in the source;
forgetting the handles gives them back.

A structured exception may come at any operation.  Local objects are not
destroyed then, so what is open stays open; at most three handles are.
-/

namespace PwFilter

open Allocation HandleTable

inductive WinObject where
  | registryKey
  | file
  | mapping
  | view
  | eventSource
  deriving DecidableEq

abbrev WinSys := Sys WinObject

/-- A context with the handles in its fields. -/
structure HeldContext where
  ctx : FilterContext := {}
  file : Option ℕ := none
  mapping : Option ℕ := none
  view : Option ℕ := none

namespace WithHandles

def readWholeFile (file : WinFile) : WinSys (Option (List UInt8)) :=
  if !file.opens then pure none
  else do
    let h ← Sys.acquire .file
    if !file.sizeKnown ∨ file.content.length > kMaxConfigFile then do
      Sys.release .file h
      pure none
    else if file.content.isEmpty then do
      Sys.release .file h
      pure (some [])
    else do
      Sys.lift Alloc.allocate  -- when this raises, the file stays open
      Sys.release .file h
      if file.delivers file.content.length = some file.content.length then
        pure (some file.content)
      else pure none

def loadBlacklistFile (bl : Blacklist) (file : WinFile) : WinSys Blacklist := do
  match ← readWholeFile file with
  | none => pure bl
  | some data => Sys.lift (forEachConfigLine data addLine bl)

def loadTermsFile (terms : List (List UInt16)) (file : WinFile) :
    WinSys (List (List UInt16)) := do
  match ← readWholeFile file with
  | none => pure terms
  | some data => Sys.lift (forEachConfigLine data pushLine terms)

def mapBloom (c : HeldContext) (file : WinFile) : WinSys HeldContext :=
  if !file.opens then
    pure { c with ctx := { c.ctx with bloomError := "file not found" } }
  else do
    let h ← Sys.acquire .file
    let c := { c with file := some h }
    if !file.sizeKnown ∨ file.content.length = 0 then
      pure { c with ctx := { c.ctx with bloomError := "empty file" } }
    else if !file.maps then
      pure { c with ctx := { c.ctx with bloomError := "mapping failed" } }
    else do
      let h ← Sys.acquire .mapping
      let c := { c with mapping := some h }
      if !file.views then
        pure { c with ctx := { c.ctx with bloomError := "map view failed" } }
      else do
        let h ← Sys.acquire .view
        pure { c with
          view := some h
          ctx := { c.ctx with view := some file.content } }

def openBloom (c : HeldContext) (file : WinFile) : WinSys HeldContext :=
  if c.ctx.cfg.checkBreach then do
    let c ← mapBloom c file
    match c.ctx.view with
    | none => pure c
    | some data => do
        Sys.touch  -- `FromMemory` reads the mapped header
        match BloomFilter.fromMemory (some data) with
        | some bf => do
            let checker ← Sys.lift (Alloc.newNothrow bf)
            pure { c with
              ctx := { c.ctx with bloom := some bf, checker := checker } }
        | none =>
            pure { c with
              ctx := { c.ctx with bloomError := "invalid bloom format" } }
  else pure c

def closeField (kind : WinObject) : Option ℕ → WinSys Unit
  | some h => Sys.release kind h
  | none => pure ()

/-- `~FilterContext` -/
def destroy (c : HeldContext) : WinSys Unit := do
  closeField .view c.view
  closeField .mapping c.mapping
  closeField .file c.file

def addValidator (c : HeldContext) (host : Host) :
    WinSys (Option HeldContext) := do
  match ← Sys.lift (Alloc.newNothrow ()) with
  | none => do
      destroy c
      pure none
  | some _ => do
      Sys.lift Alloc.allocate
      pure (some { c with
        ctx := { c.ctx with validator := some (c.ctx.makeValidator host) } })

/-- `RegOpenKeyExW`, the values, `RegCloseKey` -/
def readSettings (host : Host) (cfg : PolicyConfig) : WinSys Settings :=
  match host.registry with
  | none => pure (PwFilter.readSettings host cfg)
  | some _ => do
      let key ← Sys.acquire .registryKey
      let settings := PwFilter.readSettings host cfg
      Sys.release .registryKey key
      pure settings

def loadLists (c : HeldContext) (settings : Settings) (host : Host) :
    WinSys HeldContext := do
  Sys.lift Alloc.allocate
  let blacklist ← loadBlacklistFile (Blacklist.new settings.caseInsensitive)
    (settings.file host settings.blacklistName)
  let terms ← loadTermsFile c.ctx.cfg.companyTerms
    (settings.file host settings.termsName)
  pure { c with
    ctx :=
      { c.ctx with
        cfg := { c.ctx.cfg with companyTerms := terms }
        blacklist := some blacklist } }

def createBody (host : Host) : WinSys (Option HeldContext) := do
  match ← Sys.lift (Alloc.newNothrow ({} : FilterContext)) with
  | none => pure none
  | some ctx => do
      let settings ← readSettings host ctx.cfg
      let c : HeldContext := { ctx := { ctx with cfg := settings.cfg } }
      match ← Sys.lift (Alloc.newNothrow ()) with
      | none => do
          destroy c
          pure none
      | some _ => do
          let c ← loadLists c settings host
          let c ← openBloom c (settings.file host settings.bloomName)
          addValidator c host

def create (host : Host) : WinSys (Option HeldContext) :=
  Sys.noexcept (createBody host)

/-! ## Without the handles -/

theorem simulates_readWholeFile (file : WinFile) :
    Simulates (· = ·) (readWholeFile file) (PwFilter.readWholeFile file) := by
  unfold readWholeFile PwFilter.readWholeFile
  split
  · exact simulates_pure rfl
  · refine Simulates.skip (quiet_acquire _) fun h _ => ?_
    split
    · exact Simulates.skip (quiet_release _ h) fun _ _ => simulates_pure rfl
    · split
      · exact Simulates.skip (quiet_release _ h) fun _ _ => simulates_pure rfl
      · refine (simulates_lift _).bind fun _ _ _ => ?_
        refine Simulates.skip (quiet_release _ h) fun _ _ => ?_
        split
        · exact simulates_pure rfl
        · exact simulates_pure rfl

theorem simulates_loadBlacklistFile (bl : Blacklist) (file : WinFile) :
    Simulates (· = ·) (loadBlacklistFile bl file)
      (PwFilter.loadBlacklistFile bl file) := by
  refine (simulates_readWholeFile file).bind fun data data' hdata => ?_
  subst hdata
  cases data with
  | none => exact simulates_pure rfl
  | some data => exact simulates_lift _

theorem simulates_loadTermsFile
    (terms : List (List UInt16)) (file : WinFile) :
    Simulates (· = ·) (loadTermsFile terms file)
      (PwFilter.loadTermsFile terms file) := by
  refine (simulates_readWholeFile file).bind fun data data' hdata => ?_
  subst hdata
  cases data with
  | none => exact simulates_pure rfl
  | some data => exact simulates_lift _

theorem quiet_mapBloom (c : HeldContext) (file : WinFile) :
    Quiet (mapBloom c file) fun c' => c'.ctx = c.ctx.mapBloom file := by
  unfold mapBloom FilterContext.mapBloom
  split
  · exact quiet_pure rfl
  · refine (quiet_acquire _).bind fun h _ => ?_
    split
    · exact quiet_pure rfl
    · split
      · exact quiet_pure rfl
      · refine (quiet_acquire _).bind fun h' _ => ?_
        split
        · exact quiet_pure rfl
        · exact (quiet_acquire _).bind fun h'' _ => quiet_pure rfl

theorem quiet_closeField (kind : WinObject) (field : Option ℕ) :
    Quiet (closeField kind field) fun _ => True := by
  cases field with
  | none => exact quiet_pure trivial
  | some h => exact quiet_release kind h

theorem quiet_destroy (c : HeldContext) : Quiet (destroy c) fun _ => True :=
  (quiet_closeField _ _).bind fun _ _ =>
    (quiet_closeField _ _).bind fun _ _ => quiet_closeField _ _

theorem quiet_readSettings (host : Host) (cfg : PolicyConfig) :
    Quiet (readSettings host cfg) (· = PwFilter.readSettings host cfg) := by
  unfold readSettings
  cases host.registry with
  | none => exact quiet_pure rfl
  | some _ =>
      refine (quiet_acquire _).bind fun key _ => ?_
      exact (quiet_release _ key).bind fun _ _ => quiet_pure rfl

def Same (c : HeldContext) (ctx : FilterContext) : Prop := c.ctx = ctx

def SameObject (object : Option HeldContext) (plain : Option FilterContext) :
    Prop :=
  object.map HeldContext.ctx = plain

theorem simulates_same (c : HeldContext) :
    Simulates Same (pure c : WinSys HeldContext)
      (pure c.ctx : Alloc FilterContext) :=
  simulates_pure rfl

theorem simulates_object (object : Option HeldContext) :
    Simulates SameObject (pure object : WinSys (Option HeldContext))
      (pure (object.map HeldContext.ctx) : Alloc (Option FilterContext)) :=
  simulates_pure rfl

theorem simulates_openBloom (c : HeldContext) (file : WinFile) :
    Simulates Same (openBloom c file) (c.ctx.openBloom file) := by
  unfold openBloom FilterContext.openBloom
  split
  · refine Simulates.skip (quiet_mapBloom c file) fun c' hc' => ?_
    simp only [← hc']
    cases c'.ctx.view with
    | none => exact simulates_same _
    | some data =>
        refine Simulates.skip quiet_touch fun _ _ => ?_
        dsimp only
        cases BloomFilter.fromMemory (some data) with
        | none => exact simulates_same _
        | some bf =>
            refine (simulates_lift _).bind fun checker checker' hchecker => ?_
            subst hchecker
            exact simulates_same _
  · exact simulates_same _

theorem simulates_addValidator (c : HeldContext) (host : Host) :
    Simulates SameObject (addValidator c host) (c.ctx.addValidator host) := by
  refine (simulates_lift _).bind fun object object' hobject => ?_
  subst hobject
  cases object with
  | none =>
      exact Simulates.skip (quiet_destroy c) fun _ _ =>
        simulates_object _
  | some _ =>
      refine (simulates_lift _).bind fun _ _ _ => ?_
      exact simulates_object _

theorem simulates_loadLists
    (c : HeldContext) (settings : Settings) (host : Host) :
    Simulates Same (loadLists c settings host)
      (c.ctx.loadLists settings host) := by
  refine (simulates_lift _).bind fun _ _ _ => ?_
  refine (simulates_loadBlacklistFile _ _).bind fun blacklist _ hblacklist => ?_
  subst hblacklist
  refine (simulates_loadTermsFile _ _).bind fun terms _ hterms => ?_
  subst hterms
  exact simulates_same _

theorem simulates_createBody (host : Host) :
    Simulates SameObject (createBody host) (FilterContext.createBody host) := by
  refine (simulates_lift _).bind fun object _ hobject => ?_
  subst hobject
  cases object with
  | none => exact simulates_object _
  | some ctx =>
      refine Simulates.skip (quiet_readSettings host _) fun settings hread => ?_
      subst hread
      refine (simulates_lift _).bind fun list _ hlist => ?_
      subst hlist
      cases list with
      | none =>
          exact Simulates.skip (quiet_destroy _) fun _ _ =>
            simulates_object _
      | some _ =>
          refine (simulates_loadLists _ _ host).bind fun c _ hc => ?_
          subst hc
          refine (simulates_openBloom c _).bind fun c' _ hc' => ?_
          subst hc'
          exact simulates_addValidator c' host

/-- Without its handles, and unless a structured exception comes, this is the
`Create` of the filter state. -/
theorem simulates_create (host : Host) :
    Simulates SameObject (create host) (FilterContext.create host) :=
  (simulates_createBody host).noexcept

end WithHandles

/-! ## What is owned -/

def fieldHandles (kind : WinObject) : Option ℕ → Finset (WinObject × ℕ)
  | some h => {(kind, h)}
  | none => ∅

def HeldContext.handles (c : HeldContext) : Finset (WinObject × ℕ) :=
  fieldHandles .view c.view ∪
    (fieldHandles .mapping c.mapping ∪ fieldHandles .file c.file)

def objectHandles : Option HeldContext → Finset (WinObject × ℕ)
  | some c => c.handles
  | none => ∅

theorem disjoint_fieldHandles
    {kind kind' : WinObject} (hkind : kind ≠ kind') (field field' : Option ℕ) :
    Disjoint (fieldHandles kind field) (fieldHandles kind' field') := by
  cases field with
  | none => exact Finset.disjoint_empty_left _
  | some h =>
      cases field' with
      | none => exact Finset.disjoint_empty_right _
      | some h' =>
          rw [fieldHandles, fieldHandles, Finset.disjoint_singleton]
          intro heq
          exact hkind (congrArg Prod.fst heq)

theorem fieldHandles_card_le (kind : WinObject) (field : Option ℕ) :
    (fieldHandles kind field).card ≤ 1 := by
  cases field with
  | none => exact Nat.zero_le 1
  | some h => exact Nat.le_refl 1

theorem HeldContext.handles_card_le (c : HeldContext) : c.handles.card ≤ 3 := by
  have hview := fieldHandles_card_le .view c.view
  have hmapping := fieldHandles_card_le .mapping c.mapping
  have hfile := fieldHandles_card_le .file c.file
  have hall := Finset.card_union_le (fieldHandles .view c.view)
    (fieldHandles .mapping c.mapping ∪ fieldHandles .file c.file)
  have htwo := Finset.card_union_le (fieldHandles .mapping c.mapping)
    (fieldHandles .file c.file)
  rw [handles]
  omega

namespace WithHandles

/-- A list file is closed on every path that returns, and no other handle is
open in between. -/
theorem triple_readWholeFile (file : WinFile) :
    Triple 1 ∅ (readWholeFile file) fun _ => ∅ := by
  have hone : 1 ≤ 1 := Nat.le_refl 1
  unfold readWholeFile
  split
  · exact triple_pure rfl
  · refine (triple_acquire _).bind fun h => ?_
    split
    · exact (triple_release hone _ h).bind fun _ => triple_pure rfl
    · split
      · exact (triple_release hone _ h).bind fun _ => triple_pure rfl
      · refine (triple_lift hone _).bind fun _ => ?_
        refine (triple_release hone _ h).bind fun _ => ?_
        split
        · exact triple_pure rfl
        · exact triple_pure rfl

theorem triple_loadBlacklistFile (bl : Blacklist) (file : WinFile) :
    Triple 1 ∅ (loadBlacklistFile bl file) fun _ => ∅ := by
  refine (triple_readWholeFile file).bind fun data => ?_
  cases data with
  | none => exact triple_pure rfl
  | some data => exact triple_lift (Nat.zero_le 1) _

theorem triple_loadTermsFile (terms : List (List UInt16)) (file : WinFile) :
    Triple 1 ∅ (loadTermsFile terms file) fun _ => ∅ := by
  refine (triple_readWholeFile file).bind fun data => ?_
  cases data with
  | none => exact triple_pure rfl
  | some data => exact triple_lift (Nat.zero_le 1) _

theorem triple_readSettings (host : Host) (cfg : PolicyConfig) :
    Triple 1 ∅ (readSettings host cfg) fun _ => ∅ := by
  unfold readSettings
  cases host.registry with
  | none => exact triple_pure rfl
  | some _ =>
      refine (triple_acquire _).bind fun key => ?_
      exact (triple_release (Nat.le_refl 1) _ key).bind fun _ => triple_pure rfl

def NothingHeld (c : HeldContext) : Prop :=
  c.file = none ∧ c.mapping = none ∧ c.view = none

theorem NothingHeld.handles {c : HeldContext} (hc : NothingHeld c) :
    c.handles = ∅ := by
  obtain ⟨hfile, hmapping, hview⟩ := hc
  rw [HeldContext.handles, hfile, hmapping, hview]
  rfl

theorem triple_closeField (kind : WinObject) (field : Option ℕ) :
    Triple 1 (fieldHandles kind field) (closeField kind field) fun _ => ∅ := by
  cases field with
  | none => exact triple_pure rfl
  | some h => exact triple_release (Nat.le_refl 1) kind h

theorem triple_destroy (c : HeldContext) :
    Triple 3 c.handles (destroy c) fun _ => ∅ := by
  have hmapping := fieldHandles_card_le .mapping c.mapping
  have hfile := fieldHandles_card_le .file c.file
  have htwo := Finset.card_union_le (fieldHandles .mapping c.mapping)
    (fieldHandles .file c.file)
  refine (triple_closeField _ _).bind_frame ?_ (by omega) fun _ => ?_
  · rw [Finset.disjoint_union_right]
    exact ⟨disjoint_fieldHandles (by decide) _ _,
      disjoint_fieldHandles (by decide) _ _⟩
  · rw [Finset.empty_union]
    refine (triple_closeField _ _).bind_frame
      (disjoint_fieldHandles (by decide) _ _) (by omega) fun _ => ?_
    rw [Finset.empty_union]
    exact (triple_closeField _ _).mono (by omega)

theorem triple_mapBloom
    {c : HeldContext} (hc : NothingHeld c) (file : WinFile) :
    Triple 3 ∅ (mapBloom c file) HeldContext.handles := by
  obtain ⟨hfile, hmapping, hview⟩ := hc
  unfold mapBloom
  split
  · exact triple_pure (NothingHeld.handles ⟨hfile, hmapping, hview⟩).symm
  · refine (triple_acquire _).bind fun h => ?_
    split
    · exact triple_pure (by simp [HeldContext.handles, fieldHandles, hmapping,
        hview])
    · split
      · exact triple_pure (by simp [HeldContext.handles, fieldHandles,
          hmapping, hview])
      · have hone : ({(WinObject.file, h)} : Finset _).card = 1 := rfl
        rw [← Finset.empty_union {(WinObject.file, h)}]
        refine Triple.bind_frame (n := 0) (triple_acquire _)
          (Finset.disjoint_empty_left _) (by omega) fun m => ?_
        dsimp only
        split
        · exact triple_pure (by simp [HeldContext.handles, fieldHandles,
            hview])
        · have htwo := Finset.card_union_le {(WinObject.mapping, m)}
            {(WinObject.file, h)}
          have hm : ({(WinObject.mapping, m)} : Finset _).card = 1 := rfl
          rw [← Finset.empty_union ({(WinObject.mapping, m)} ∪ _)]
          refine Triple.bind_frame (n := 0) (triple_acquire _)
            (Finset.disjoint_empty_left _) (by omega) fun v => ?_
          exact triple_pure rfl

theorem triple_openBloom
    {c : HeldContext} (hc : NothingHeld c) (file : WinFile) :
    Triple 3 ∅ (openBloom c file) HeldContext.handles := by
  unfold openBloom
  split
  · refine (triple_mapBloom hc file).bind fun c' => ?_
    cases c'.ctx.view with
    | none => exact triple_pure rfl
    | some data =>
        refine (triple_touch c'.handles_card_le).bind fun _ => ?_
        cases BloomFilter.fromMemory (some data) with
        | none => exact triple_pure rfl
        | some bf =>
            refine (triple_lift c'.handles_card_le _).bind fun checker => ?_
            exact triple_pure rfl
  · exact triple_pure hc.handles.symm

theorem triple_addValidator (c : HeldContext) (host : Host) :
    Triple 3 c.handles (addValidator c host) objectHandles := by
  refine (triple_lift c.handles_card_le _).bind fun object => ?_
  cases object with
  | none => exact (triple_destroy c).bind fun _ => triple_pure rfl
  | some _ =>
      refine (triple_lift c.handles_card_le _).bind fun _ => ?_
      exact triple_pure rfl

theorem triple_loadLists
    (c : HeldContext) (settings : Settings) (host : Host) :
    Triple 1 ∅ (loadLists c settings host) fun _ => ∅ := by
  refine (triple_lift (Nat.zero_le 1) _).bind fun _ => ?_
  refine (triple_loadBlacklistFile _ _).bind fun blacklist => ?_
  exact (triple_loadTermsFile _ _).bind fun terms => triple_pure rfl

theorem returns_loadLists
    {c : HeldContext} (hc : NothingHeld c) (settings : Settings)
    (host : Host) : Returns (loadLists c settings host) NothingHeld := by
  refine Returns.last _ fun _ => Returns.last _ fun blacklist => ?_
  exact Returns.last _ fun terms => returns_pure hc

/-- A context that `Create` returns owns exactly the handles in its fields and
nothing else is left open; when `Create` does not return, at most three are. -/
theorem triple_create (host : Host) :
    Triple 3 ∅ (create host) objectHandles := by
  have hthree : 1 ≤ 3 := by decide
  refine Triple.noexcept ?_
  refine (triple_lift (Nat.zero_le 3) _).bind fun object => ?_
  cases object with
  | none => exact triple_pure rfl
  | some ctx =>
      refine ((triple_readSettings host _).mono hthree).bind fun settings => ?_
      refine (triple_lift (Nat.zero_le 3) _).bind fun list => ?_
      have hnothing : NothingHeld
          { ctx := { ctx with cfg := settings.cfg } } := ⟨rfl, rfl, rfl⟩
      cases list with
      | none =>
          have hdestroy :=
            triple_destroy { ctx := { ctx with cfg := settings.cfg } }
          rw [hnothing.handles] at hdestroy
          exact hdestroy.bind fun _ => triple_pure rfl
      | some _ =>
          refine ((triple_loadLists _ _ host).mono hthree).bind_returns
            (returns_loadLists hnothing _ host) fun c hc => ?_
          exact (triple_openBloom hc _).bind fun c' =>
            triple_addValidator c' host

end WithHandles

end PwFilter
