import PwFilter.DeclarativePolicy
import PwFilter.FilePaths

/-!
# What is loaded

The plan of `Create` lists its allocations in order.  A context that it returns
holds the whole of what the host declares: the settings of the registry, every
line of the two word lists, and the Bloom image, unless there was no memory for
its checker.
-/

namespace PwFilter

open Allocation

/-! ## The plan -/

def WinFile.bloomFilter (file : WinFile) : Option BloomFilter :=
  if file.opens ∧ file.sizeKnown ∧ file.content.length ≠ 0 ∧ file.maps ∧
      file.views then
    BloomFilter.fromMemory (some file.content)
  else none

/-- The checker is allocated only for a filter that is wanted and valid. -/
def bloomPlan (settings : Settings) (host : Host) : List Site :=
  if settings.cfg.checkBreach then
    match (settings.file host settings.bloomName).bloomFilter with
    | some _ => [.optional]
    | none => []
  else []

def listSites (settings : Settings) (host : Host) : ℕ :=
  1 + ((settings.file host settings.blacklistName).loadSites addCost +
    (settings.file host settings.termsName).loadSites fun _ => 1)

def createPlan (host : Host) : List Site :=
  let settings := readSettings host {}
  .required :: .required ::
    (List.replicate (listSites settings host) .throwing ++
      (bloomPlan settings host ++ [.required, .throwing]))

/-! ## What a host declares -/

def Host.terms (host : Host) : List (List UInt16) :=
  (host.files (filePath host "CompanyTermsFile" "company_terms.txt")).lines

def Host.banned (host : Host) : BannedList where
  caseInsensitive :=
    match host.registry with
    | none => true
    | some key => regDword key "BlacklistCaseInsensitive" 1 ≠ 0
  entries :=
    (host.files (filePath host "BlacklistFile" "blacklist.txt")).lines

def Host.policy (host : Host) : PolicyConfig :=
  let settings : PolicyConfig :=
    match host.registry with
    | none => {}
    | some key => readPolicy key {}
  { settings with companyTerms := host.terms }

/-- The filter that is asked about breaches: none when the check is off or the
file is not a valid image. -/
def Host.bloom (host : Host) : Option BloomFilter :=
  if host.policy.checkBreach then
    (host.files (filePath host "BloomFile" "breach.bloom")).bloomFilter
  else none

def Host.services (host : Host) (checker : Option BloomFilter) : Services where
  banned := some host.banned
  breached := checker.map fun bf =>
    BloomBreachChecker.isBreached bf host.stack host.shaMemory

namespace FilterContext

structure Holds (host : Host) (ctx : FilterContext) : Prop where
  cfg : ctx.cfg = host.policy
  blacklist : ctx.blacklist = some
    (Blacklist.ofEntries host.banned.caseInsensitive host.banned.entries)
  checker : ctx.checker = none ∨ ctx.checker = host.bloom
  bloomError : ctx.bloomError ≠ "" ↔
    host.policy.checkBreach = true ∧ host.bloom = none
  validator : ctx.validator = some (ctx.makeValidator host)

/-! ## Loading -/

def withLists (ctx : FilterContext) (settings : Settings) (host : Host) :
    FilterContext :=
  { ctx with
    cfg :=
      { ctx.cfg with
        companyTerms := ctx.cfg.companyTerms ++
          (settings.file host settings.termsName).lines }
    blacklist := some ((Blacklist.new settings.caseInsensitive).addAll
      (settings.file host settings.blacklistName).lines) }

theorem performs_loadLists
    (ctx : FilterContext) (settings : Settings) (host : Host) :
    Performs (ctx.loadLists settings host) (listSites settings host)
      (ctx.withLists settings host) :=
  performs_allocate.bind
    ((performs_loadBlacklistFile _ _).bind
      ((performs_loadTermsFile _ _).bind (m := 0) (performs_pure _)))

theorem readSettings_cfg (host : Host) :
    (readSettings host {}).cfg =
      match host.registry with
      | none => {}
      | some key => readPolicy key {} := by
  unfold readSettings
  cases host.registry with
  | none => dsimp only
  | some key => dsimp only

theorem readSettings_caseInsensitive (host : Host) :
    (readSettings host {}).caseInsensitive = host.banned.caseInsensitive := by
  unfold readSettings Host.banned
  cases host.registry with
  | none => dsimp only
  | some key => dsimp only

theorem readSettings_companyTerms (host : Host) :
    (readSettings host {}).cfg.companyTerms = [] := by
  rw [readSettings_cfg]
  cases host.registry with
  | none => rfl
  | some key => rfl

theorem readSettings_checkBreach (host : Host) :
    (readSettings host {}).cfg.checkBreach = host.policy.checkBreach := by
  rw [readSettings_cfg]
  rfl

/-- What the Bloom image is opened for: the lists are loaded. -/
structure ListsLoaded (host : Host) (ctx : FilterContext) : Prop where
  cfg : ctx.cfg = host.policy
  blacklist : ctx.blacklist = some
    (Blacklist.ofEntries host.banned.caseInsensitive host.banned.entries)
  view : ctx.view = none
  checker : ctx.checker = none
  bloomError : ctx.bloomError = ""

theorem listsLoaded_withLists (host : Host) :
    ListsLoaded host
      (({ ({} : FilterContext) with cfg := (readSettings host {}).cfg }).withLists
        (readSettings host {}) host) where
  cfg := by
    unfold withLists
    dsimp only
    rw [readSettings_companyTerms, List.nil_append, termsFile_eq,
      readSettings_cfg]
    rfl
  blacklist := by
    unfold withLists
    dsimp only
    rw [blacklistFile_eq, readSettings_caseInsensitive]
    rfl
  view := rfl
  checker := rfl
  bloomError := rfl

theorem builds_validator
    {host : Host} {ctx : FilterContext} (hcfg : ctx.cfg = host.policy)
    (hblacklist : ctx.blacklist = some
      (Blacklist.ofEntries host.banned.caseInsensitive host.banned.entries))
    (hchecker : ctx.checker = none ∨ ctx.checker = host.bloom)
    (herror : ctx.bloomError ≠ "" ↔
      host.policy.checkBreach = true ∧ host.bloom = none) :
    Builds (ctx.addValidator host) [.required, .throwing] (Holds host) := by
  refine Builds.required rfl ?_
  have hlast : Builds
      (pure (some { ctx with validator := some (ctx.makeValidator host) }) :
        Alloc (Option FilterContext)) [] (Holds host) :=
    builds_pure ⟨hcfg, hblacklist, hchecker, herror, rfl⟩
  exact hlast.throwing performs_allocate

/-- Mapping gives the content or says why there is none. -/
theorem mapBloom_cases (ctx : FilterContext) (file : WinFile) :
    (file.opens = true ∧ file.sizeKnown = true ∧ file.content.length ≠ 0 ∧
        file.maps = true ∧ file.views = true ∧
        ctx.mapBloom file = { ctx with view := some file.content }) ∨
      (file.bloomFilter = none ∧ ∃ message, message ≠ "" ∧
        ctx.mapBloom file = { ctx with bloomError := message }) := by
  unfold mapBloom WinFile.bloomFilter
  cases file.opens with
  | false => exact .inr ⟨by simp, "file not found", by decide, by simp⟩
  | true =>
      cases file.sizeKnown with
      | false => exact .inr ⟨by simp, "empty file", by decide, by simp⟩
      | true =>
          by_cases hempty : file.content.length = 0
          · exact .inr ⟨by simp [hempty], "empty file", by decide,
              by simp [hempty]⟩
          · cases file.maps with
            | false =>
                exact .inr ⟨by simp, "mapping failed", by decide,
                  by simp [hempty]⟩
            | true =>
                cases file.views with
                | false =>
                    exact .inr ⟨by simp, "map view failed", by decide,
                      by simp [hempty]⟩
                | true =>
                    exact .inl ⟨rfl, rfl, hempty, rfl, rfl, by simp [hempty]⟩

theorem builds_bloom
    {host : Host} {ctx : FilterContext} (hctx : ListsLoaded host ctx) :
    Builds
      (ctx.openBloom ((readSettings host {}).file host
          (readSettings host {}).bloomName) >>=
        fun ctx => ctx.addValidator host)
      (bloomPlan (readSettings host {}) host ++ [.required, .throwing])
      (Holds host) := by
  unfold openBloom bloomPlan
  rw [readSettings_checkBreach, bloomFile_eq, hctx.cfg]
  cases hcheck : host.policy.checkBreach with
  | false =>
      refine builds_validator hctx.cfg hctx.blacklist (Or.inl hctx.checker) ?_
      simp [hctx.bloomError, hcheck]
  | true =>
      simp only [if_true]
      have hbloom : host.bloom =
          (host.files (filePath host "BloomFile" "breach.bloom")).bloomFilter :=
        if_pos hcheck
      revert hbloom
      generalize host.files (filePath host "BloomFile" "breach.bloom") = file
      intro hbloom
      rcases mapBloom_cases ctx file with
        ⟨hopens, hknown, hlength, hmaps, hviews, hmapped⟩ |
        ⟨hnone, message, hmessage, hmapped⟩
      · have hfilter : file.bloomFilter =
            BloomFilter.fromMemory (some file.content) :=
          if_pos ⟨hopens, hknown, hlength, hmaps, hviews⟩
        rw [hfilter] at hbloom
        simp only [hmapped, hfilter]
        cases hread : BloomFilter.fromMemory (some file.content) with
        | none =>
            rw [hread] at hbloom
            refine builds_validator hctx.cfg hctx.blacklist
              (Or.inl hctx.checker) ?_
            simp [hcheck, hbloom]
        | some bf =>
            rw [hread] at hbloom
            simp only [Alloc.bind_assoc, Alloc.pure_bind]
            refine Builds.optional_cases ?_ ?_
            · refine builds_validator hctx.cfg hctx.blacklist (Or.inl rfl) ?_
              simp [hbloom, hctx.bloomError]
            · refine builds_validator hctx.cfg hctx.blacklist
                (Or.inr hbloom.symm) ?_
              simp [hbloom, hctx.bloomError]
      · rw [hnone] at hbloom
        simp only [hmapped, hnone, hctx.view]
        refine builds_validator hctx.cfg hctx.blacklist (Or.inl hctx.checker) ?_
        simp [hcheck, hbloom, hmessage]

theorem builds_holds (host : Host) :
    Builds (createBody host) (createPlan host) (Holds host) := by
  refine Builds.required rfl (Builds.required rfl ?_)
  refine Builds.throwing (performs_loadLists _ _ _) ?_
  exact builds_bloom (listsLoaded_withLists host)

def LoadedBy (host : Host) (ctx : FilterContext) : Prop :=
  ∃ fails c c', create host fails c = (.done (some ctx), c')

theorem LoadedBy.holds
    {host : Host} {ctx : FilterContext} (hloaded : LoadedBy host ctx) :
    Holds host ctx := by
  obtain ⟨fails, c, c', hrun⟩ := hloaded
  by_cases hraises : Raises fails (createPlan host) c
  · have hbody := (builds_holds host).raised fails c hraises
    rw [create, Alloc.noexcept] at hrun
    cases h : createBody host fails c with
    | mk outcome c'' =>
        rw [h] at hbody hrun
        cases outcome with
        | done object => cases hbody
        | terminated => cases hbody
        | raised => cases hrun
  · obtain ⟨object, c'', hbody, hholds⟩ :=
      (builds_holds host).returns fails c hraises
    rw [create, Alloc.noexcept, hbody] at hrun
    cases hrun
    exact hholds ctx rfl

theorem exists_loadedBy (host : Host) : ∃ ctx, LoadedBy host ctx := by
  obtain ⟨ctx, c, hbody⟩ :=
    (builds_holds host).succeeds (fun _ => false) 0 fun _ => rfl
  refine ⟨ctx, fun _ => false, 0, c, ?_⟩
  rw [create, Alloc.noexcept, hbody]

theorem Holds.makeValidator
    {host : Host} {ctx : FilterContext} (hctx : Holds host ctx) :
    ctx.makeValidator host =
      (host.services ctx.checker).validator host.policy := by
  unfold FilterContext.makeValidator Services.validator
  rw [hctx.cfg, hctx.blacklist]
  rfl

end FilterContext

end PwFilter
