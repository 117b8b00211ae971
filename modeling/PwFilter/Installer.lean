import PwFilter.FilterContext

/-!
# The installer's policy values

Step 3 of the installer makes the policy key, adds each default that the key
does not have, and writes the data directory.  Adding the defaults keeps every
value, but `New-Item -Force` has emptied the key before, so a value survives
only when it is a default itself.
-/

namespace PwFilter

open ByteMemory

/-! ## The registry provider -/

/-- `New-Item -Path $CfgKey -Force`: an existing key is removed first. -/
def newItem (_ : Option RegKey) : RegKey := fun _ => none

/-- `New-ItemProperty … -Force` -/
def newItemProperty (key : RegKey) (name : String) (value : RegValue) :
    RegKey :=
  Function.update key name (some value)

theorem newItemProperty_self (key : RegKey) (name : String) (value : RegValue) :
    newItemProperty key name value name = some value :=
  Function.update_self name _ _

theorem newItemProperty_of_ne
    (key : RegKey) {name other : String} (value : RegValue)
    (hother : other ≠ name) : newItemProperty key name value other = key other :=
  Function.update_of_ne hother _ _

def dwordValue (v : UInt32) : RegValue :=
  { type := regDwordType, data := leBytes 4 v.toNat }

/-- A string is stored with its terminator. -/
def stringValue (s : List UInt16) : RegValue :=
  { type := regSz
    data := (s ++ [0]).flatMap fun (u : UInt16) =>
      [u.toUInt8, (u >>> 8).toUInt8] }

/-! ## Step 3 -/

def defaults : List (String × UInt32) :=
  [ ("MinLength", 12),
    ("MaxLength", 256),
    ("RequiredClasses", 3),
    ("RejectKeyboardPatterns", 1),
    ("RejectSequences", 1),
    ("SequenceMinRun", 4),
    ("KeyboardMinRun", 4),
    ("MaxRepeatRun", 4),
    ("RejectContainsAccountName", 1),
    ("RejectContainsFullName", 1),
    ("MinIdentityToken", 3),
    ("CheckBreach", 1),
    ("FailOpenOnError", 1),
    ("BlacklistCaseInsensitive", 1) ]

/-- Only set if missing. -/
def addDefault (key : RegKey) (entry : String × UInt32) : RegKey :=
  match key entry.1 with
  | none => newItemProperty key entry.1 (dwordValue entry.2)
  | some _ => key

def installPolicy (dataDir : List UInt16) (key : Option RegKey) : RegKey :=
  newItemProperty (defaults.foldl addDefault (newItem key)) "DataDir"
    (stringValue dataDir)

/-- One run of the script for each data directory, in order. -/
def installRuns (key : Option RegKey) (dataDirs : List (List UInt16)) :
    Option RegKey :=
  dataDirs.foldl (fun key dataDir => some (installPolicy dataDir key)) key

/-! ## What a run leaves -/

theorem addDefault_apply
    (key : RegKey) (entry : String × UInt32) (name : String) :
    addDefault key entry name =
      (key name).or
        (if name = entry.1 then some (dwordValue entry.2) else none) := by
  unfold addDefault
  cases hentry : key entry.1 with
  | none =>
      by_cases hname : name = entry.1
      · rw [hname, if_pos rfl, hentry, Option.none_or]
        exact newItemProperty_self _ _ _
      · rw [if_neg hname, Option.or_none]
        exact newItemProperty_of_ne _ _ hname
  | some value =>
      by_cases hname : name = entry.1
      · rw [hname, hentry, Option.some_or]
        exact hentry
      · rw [if_neg hname, Option.or_none]

/-- The loop keeps what the key has and adds what it lacks. -/
theorem addDefaults_apply
    (key : RegKey) (entries : List (String × UInt32)) (name : String) :
    entries.foldl addDefault key name =
      (key name).or ((entries.lookup name).map dwordValue) := by
  induction entries generalizing key with
  | nil => rw [List.foldl_nil, List.lookup_nil, Option.map_none, Option.or_none]
  | cons entry rest ih =>
      rw [List.foldl_cons, ih, addDefault_apply, Option.or_assoc]
      by_cases hname : name = entry.1
      · rw [if_pos hname, List.lookup_cons, beq_iff_eq.mpr hname,
          Option.some_or, Option.map_some]
      · rw [if_neg hname, List.lookup_cons, beq_false_of_ne hname,
          Option.none_or]

theorem installPolicy_apply
    (dataDir : List UInt16) (key : Option RegKey) (name : String) :
    installPolicy dataDir key name =
      if name = "DataDir" then some (stringValue dataDir)
      else (defaults.lookup name).map dwordValue := by
  by_cases hname : name = "DataDir"
  · rw [if_pos hname, hname]
    exact newItemProperty_self _ _ _
  · have hempty : newItem key name = none := rfl
    rw [if_neg hname, installPolicy, newItemProperty_of_ne _ _ hname,
      addDefaults_apply, hempty, Option.none_or]

/-- A run does not look at what the key held, so a second one changes
nothing. -/
theorem installPolicy_again (dataDir : List UInt16) (key : Option RegKey) :
    installPolicy dataDir (some (installPolicy dataDir key)) =
      installPolicy dataDir key := by
  funext name
  rw [installPolicy_apply, installPolicy_apply]

theorem installRuns_append
    (key : Option RegKey) (dataDirs : List (List UInt16))
    (dataDir : List UInt16) :
    installRuns key (dataDirs ++ [dataDir]) =
      some (installPolicy dataDir (installRuns key dataDirs)) := by
  rw [installRuns, List.foldl_append]
  rfl

theorem lookup_of_mem_defaults
    {name : String} {v : UInt32} (hmem : (name, v) ∈ defaults) :
    name ≠ "DataDir" ∧ defaults.lookup name = some v := by
  have hall : (defaults.all fun entry => entry.1 != "DataDir" &&
      defaults.lookup entry.1 == some entry.2) = true := by decide
  have hentry := List.all_eq_true.mp hall _ hmem
  simp only [Bool.and_eq_true, bne_iff_ne, beq_iff_eq] at hentry
  exact hentry

/-- The installed key reads as the built-in policy. -/
theorem readPolicy_installPolicy
    (dataDir : List UInt16) (key : Option RegKey) :
    readPolicy (installPolicy dataDir key) {} = {} := by
  have hread : ∀ name v dflt, (name, v) ∈ defaults →
      regDword (installPolicy dataDir key) name dflt = v := by
    intro name v dflt hmem
    obtain ⟨hname, hlookup⟩ := lookup_of_mem_defaults hmem
    apply StoresDword.regDword_eq
    rw [StoresDword, installPolicy_apply, if_neg hname, hlookup]
    rfl
  unfold readPolicy
  rw [hread "MinLength" 12 _ (by decide), hread "MaxLength" 256 _ (by decide),
    hread "RequiredClasses" 3 _ (by decide),
    hread "RejectKeyboardPatterns" 1 _ (by decide),
    hread "RejectSequences" 1 _ (by decide),
    hread "SequenceMinRun" 4 _ (by decide),
    hread "KeyboardMinRun" 4 _ (by decide),
    hread "MaxRepeatRun" 4 _ (by decide),
    hread "RejectContainsAccountName" 1 _ (by decide),
    hread "RejectContainsFullName" 1 _ (by decide),
    hread "MinIdentityToken" 3 _ (by decide),
    hread "CheckBreach" 1 _ (by decide),
    hread "FailOpenOnError" 1 _ (by decide)]
  rfl

/-! ## Tuned values -/

def valueOf (key : Option RegKey) (name : String) : Option RegValue :=
  key.bind fun key => key name

/-- What re-running the installer promises, over runs with the data
directories `dataDirs` followed by one with `dataDir`. -/
structure PreservesTuned
    (prior : Option RegKey) (dataDirs : List (List UInt16))
    (dataDir : List UInt16) : Prop where
  kept : ∀ name value, name ≠ "DataDir" → valueOf prior name = some value →
    valueOf (installRuns prior (dataDirs ++ [dataDir])) name = some value
  added : ∀ name v, (name, v) ∈ defaults → valueOf prior name = none →
    valueOf (installRuns prior (dataDirs ++ [dataDir])) name =
      some (dwordValue v)
  again : installRuns prior (dataDirs ++ [dataDir, dataDir]) =
    installRuns prior (dataDirs ++ [dataDir])

theorem valueOf_installRuns
    (prior : Option RegKey) (dataDirs : List (List UInt16))
    (dataDir : List UInt16) {name : String} (hname : name ≠ "DataDir") :
    valueOf (installRuns prior (dataDirs ++ [dataDir])) name =
      (defaults.lookup name).map dwordValue := by
  rw [installRuns_append]
  show installPolicy dataDir (installRuns prior dataDirs) name = _
  rw [installPolicy_apply, if_neg hname]

/-- Re-running the installer keeps a key exactly when all it holds, the data
directory apart, are the defaults themselves. -/
theorem reinstall_preserves_iff
    (prior : Option RegKey) (dataDirs : List (List UInt16))
    (dataDir : List UInt16) :
    PreservesTuned prior dataDirs dataDir ↔
      ∀ name value, name ≠ "DataDir" → valueOf prior name = some value →
        ∃ v, (name, v) ∈ defaults ∧ value = dwordValue v := by
  constructor
  · intro hpreserves name value hname hvalue
    have hkept := hpreserves.kept name value hname hvalue
    rw [valueOf_installRuns prior dataDirs dataDir hname,
      Option.map_eq_some_iff] at hkept
    obtain ⟨v, hlookup, hv⟩ := hkept
    refine ⟨v, ?_, hv.symm⟩
    obtain ⟨before, after, hsplit, _⟩ := List.lookup_eq_some_iff.mp hlookup
    rw [hsplit]
    exact List.mem_append_right _ List.mem_cons_self
  · intro hdefaults
    refine ⟨?_, ?_, ?_⟩
    · intro name value hname hvalue
      obtain ⟨v, hmem, hv⟩ := hdefaults name value hname hvalue
      rw [valueOf_installRuns prior dataDirs dataDir hname,
        (lookup_of_mem_defaults hmem).2, hv]
      rfl
    · intro name v hmem _
      obtain ⟨hname, hlookup⟩ := lookup_of_mem_defaults hmem
      rw [valueOf_installRuns prior dataDirs dataDir hname, hlookup]
      rfl
    · have htwice : dataDirs ++ [dataDir, dataDir] =
          (dataDirs ++ [dataDir]) ++ [dataDir] := by
        rw [List.append_assoc]
        rfl
      rw [htwice, installRuns_append, installRuns_append, installPolicy_again]

def tunedKey : RegKey :=
  newItemProperty (fun _ => none) "MinLength" (dwordValue 16)

/-- A minimum length of sixteen is twelve again after the next run. -/
theorem reinstall_resets_minLength :
    valueOf (some tunedKey) "MinLength" = some (dwordValue 16) ∧
      valueOf (installRuns (some tunedKey) [[0x43, 0x3A]]) "MinLength" =
        some (dwordValue 12) ∧
      ¬ PreservesTuned (some tunedKey) [] [0x43, 0x3A] := by
  have htuned : valueOf (some tunedKey) "MinLength" = some (dwordValue 16) :=
    newItemProperty_self (fun _ => none) "MinLength" (dwordValue 16)
  have hreset : valueOf (installRuns (some tunedKey) ([] ++ [[0x43, 0x3A]]))
      "MinLength" = some (dwordValue 12) :=
    valueOf_installRuns _ _ _ (by decide)
  refine ⟨htuned, hreset, ?_⟩
  intro hpreserves
  have hkept := hpreserves.kept "MinLength" _ (by decide) htuned
  rw [hreset] at hkept
  exact absurd hkept (by decide)

end PwFilter
