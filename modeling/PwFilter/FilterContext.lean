import PwFilter.BreachBloom
import PwFilter.DataFiles
import PwFilter.WindowsPath

/-!
# Creating the filter state

`FilterContext.create` reads the registry, loads the two word lists, maps the
Bloom image and makes the validator.  A host is all it meets: the environment,
the registry key, the files, and what lies in memory it does not initialize.
-/

namespace PwFilter

open Allocation ByteMemory

/-! ## The registry -/

structure RegValue where
  type : UInt32
  data : List UInt8
  deriving DecidableEq

abbrev RegKey := String → Option RegValue

def regSz : UInt32 := 1

def regExpandSz : UInt32 := 2

def regDwordType : UInt32 := 4

/-- A query with a buffer of four bytes that starts as zero. -/
def regDword (key : RegKey) (name : String) (dflt : UInt32) : UInt32 :=
  match key name with
  | some value =>
      if value.data.length ≤ 4 ∧ value.type = regDwordType then
        UInt32.ofNat (leValue value.data)
      else dflt
  | none => dflt

/-- `v` is stored under `name` as a `REG_DWORD`. -/
def StoresDword (key : RegKey) (name : String) (v : UInt32) : Prop :=
  key name = some { type := regDwordType, data := leBytes 4 v.toNat }

theorem StoresDword.regDword_eq
    {key : RegKey} {name : String} {v : UInt32} (h : StoresDword key name v)
    (dflt : UInt32) : regDword key name dflt = v := by
  have hv : v.toNat < 256 ^ 4 := v.toNat_lt
  have hfits : (leBytes 4 v.toNat).length ≤ 4 := by rw [leBytes_length]
  rw [StoresDword] at h
  simp only [regDword, h, hfits, true_and, if_true, leValue_leBytes hv,
    UInt32.ofNat_toNat]

/-- The wide characters of a value; an odd last byte makes none. -/
def wideUnits : List UInt8 → List UInt16
  | low :: high :: rest =>
      (low.toUInt16 ||| (high.toUInt16 <<< 8)) :: wideUnits rest
  | _ => []

/-- `RegString`, with the buffer when it returns true. -/
def regString (key : RegKey) (name : String) (buf : List UInt16) (cch : ℕ) :
    Option (List UInt16) :=
  match key name with
  | some value =>
      if value.data.length ≤ cch * 2 ∧
          (value.type = regSz ∨ value.type = regExpandSz) then
        let chars := value.data.length / 2
        let chars := if chars ≥ cch then cch - 1 else chars
        some ((store buf 0 (wideUnits value.data)).set chars 0)
      else none
  | none => none

def dwordToInt (v : UInt32) : ℤ := v.toBitVec.toInt

structure Host where
  programData : Option (List UInt16)
  registry : Option RegKey
  files : List UInt16 → WinFile
  /-- What an uninitialized path array holds. -/
  pathMemory : Vector UInt16 260
  /-- The same for the arrays of `IsBreached`. -/
  stack : Vector UInt8 4096
  shaMemory : Vector UInt8 64

/-! ## Settings -/

structure Settings where
  cfg : PolicyConfig
  caseInsensitive : Bool
  dataDir : List UInt16
  bloomName : List UInt16
  blacklistName : List UInt16
  termsName : List UInt16

def readPolicy (key : RegKey) (c : PolicyConfig) : PolicyConfig :=
  { c with
    minLength :=
      (regDword key "MinLength" (UInt32.ofNat c.minLength)).toNat
    maxLength :=
      (regDword key "MaxLength" (UInt32.ofNat c.maxLength)).toNat
    requiredClasses := dwordToInt
      (regDword key "RequiredClasses" (UInt32.ofInt c.requiredClasses))
    rejectKeyboardPatterns := regDword key "RejectKeyboardPatterns" 1 ≠ 0
    rejectSequences := regDword key "RejectSequences" 1 ≠ 0
    sequenceMinRun :=
      (regDword key "SequenceMinRun" (UInt32.ofNat c.sequenceMinRun)).toNat
    keyboardMinRun :=
      (regDword key "KeyboardMinRun" (UInt32.ofNat c.keyboardMinRun)).toNat
    maxRepeatRun :=
      (regDword key "MaxRepeatRun" (UInt32.ofNat c.maxRepeatRun)).toNat
    rejectContainsAccount := regDword key "RejectContainsAccountName" 1 ≠ 0
    rejectContainsFullname := regDword key "RejectContainsFullName" 1 ≠ 0
    minIdentityToken :=
      (regDword key "MinIdentityToken" (UInt32.ofNat c.minIdentityToken)).toNat
    checkBreach := regDword key "CheckBreach" 1 ≠ 0
    failOpenOnError := regDword key "FailOpenOnError" 1 ≠ 0 }

/-- `if (RegString(…, tmp, …)) lstrcpynW(dst, tmp, MAX_PATH);` -/
def readName (host : Host) (key : RegKey) (name : String)
    (dst : List UInt16) : List UInt16 :=
  match regString key name host.pathMemory.toList maxPath with
  | some tmp => lstrcpynW dst 0 tmp maxPath
  | none => dst

/-- The part of `Create` before the blacklist is made. -/
def readSettings (host : Host) (c : PolicyConfig) : Settings :=
  let memory := host.pathMemory.toList
  let named := fun name => lstrcpynW memory 0 (asciiUnits name) maxPath
  let settings : Settings :=
    { cfg := c
      caseInsensitive := true
      dataDir := resolveDefaultDataDir host.programData memory maxPath
      bloomName := named "breach.bloom".toList
      blacklistName := named "blacklist.txt".toList
      termsName := named "company_terms.txt".toList }
  match host.registry with
  | none => settings
  | some key =>
      { cfg := readPolicy key c
        caseInsensitive := regDword key "BlacklistCaseInsensitive" 1 ≠ 0
        dataDir := readName host key "DataDir" settings.dataDir
        bloomName := readName host key "BloomFile" settings.bloomName
        blacklistName := readName host key "BlacklistFile"
          settings.blacklistName
        termsName := readName host key "CompanyTermsFile" settings.termsName }

def Settings.file (settings : Settings) (host : Host) (name : List UInt16) :
    WinFile :=
  host.files (cString
    (joinPath host.pathMemory.toList maxPath settings.dataDir name))

/-! ## The context -/

structure FilterContext where
  cfg : PolicyConfig := {}
  blacklist : Option Blacklist := none
  validator : Option Validator := none
  view : Option (List UInt8) := none
  bloom : Option BloomFilter := none
  checker : Option BloomFilter := none
  bloomError : String := ""

namespace FilterContext

def mapBloom (ctx : FilterContext) (file : WinFile) : FilterContext :=
  if !file.opens then { ctx with bloomError := "file not found" }
  else if !file.sizeKnown ∨ file.content.length = 0 then
    { ctx with bloomError := "empty file" }
  else if !file.maps then { ctx with bloomError := "mapping failed" }
  else if !file.views then { ctx with bloomError := "map view failed" }
  else { ctx with view := some file.content }

def openBloom (ctx : FilterContext) (file : WinFile) : Alloc FilterContext :=
  if ctx.cfg.checkBreach then
    let ctx := ctx.mapBloom file
    match ctx.view with
    | none => pure ctx
    | some data =>
        match BloomFilter.fromMemory (some data) with
        | some bf => do
            let checker ← Alloc.newNothrow bf
            pure { ctx with bloom := some bf, checker := checker }
        | none => pure { ctx with bloomError := "invalid bloom format" }
  else pure ctx

def makeValidator (ctx : FilterContext) (host : Host) : Validator :=
  { cfg := ctx.cfg
    blacklist := ctx.blacklist
    breach := ctx.checker.map fun bf =>
      BloomBreachChecker.isBreached bf host.stack host.shaMemory }

/-- The last part of `Create`: the object, then the copy of the
configuration. -/
def addValidator (ctx : FilterContext) (host : Host) :
    Alloc (Option FilterContext) := do
  match ← Alloc.newNothrow () with
  | none => pure none
  | some _ =>
      Alloc.allocate
      pure (some { ctx with validator := some (ctx.makeValidator host) })

/-- The part of `Create` between the blacklist object and the Bloom image. -/
def loadLists (ctx : FilterContext) (settings : Settings) (host : Host) :
    Alloc FilterContext := do
  Alloc.allocate  -- the constructor of `Blacklist`
  let blacklist ← loadBlacklistFile (Blacklist.new settings.caseInsensitive)
    (settings.file host settings.blacklistName)
  let terms ← loadTermsFile ctx.cfg.companyTerms
    (settings.file host settings.termsName)
  pure { ctx with
    cfg := { ctx.cfg with companyTerms := terms }
    blacklist := some blacklist }

def createBody (host : Host) : Alloc (Option FilterContext) := do
  match ← Alloc.newNothrow ({} : FilterContext) with
  | none => pure none
  | some ctx =>
      let settings := readSettings host ctx.cfg
      let ctx := { ctx with cfg := settings.cfg }
      match ← Alloc.newNothrow () with
      | none => pure none
      | some _ =>
          let ctx ← ctx.loadLists settings host
          let ctx ← ctx.openBloom (settings.file host settings.bloomName)
          ctx.addValidator host

def create (host : Host) : Alloc (Option FilterContext) :=
  Alloc.noexcept (createBody host)

end FilterContext

end PwFilter
