import PwFilter.ActionRuns
import PwFilter.Installer

/-!
# Installing and uninstalling

The two scripts as lists of steps on what they change: the notification
packages of LSA, the policy key, the key of the event source, the DLL and the
word lists.  A run may stop behind any of its steps, since the scripts end at
the first error.  Some errors are hidden, and the script goes on: what could
not be read counts as missing, and what could not be removed stays.  Package
names are compared by `fold`, which stands for the comparison of strings in the
shell.
-/

namespace PwFilter

open ActionRuns

/-! ## The scripts -/

inductive WordList where
  | blacklist
  | companyTerms
  deriving DecidableEq

structure Deployment where
  /-- The value `Notification Packages`. -/
  packages : Option (List String)
  policy : Option RegKey
  source : Option RegKey
  dll : Option (List UInt8)
  /-- The word lists by data directory. -/
  files : List UInt16 × WordList → Option (List UInt8)

def packageName : String := "PasswordFilterDLL"

inductive Step where
  | copyDll (content : List UInt8)
  | copyExample (target : List UInt16 × WordList)
      (content : Option (List UInt8))
  | newPolicyKey
  | addDefault (entry : String × UInt32)
  | writeDataDir (dataDir : List UInt16)
  | newSourceKey
  | writeSource (name : String) (value : RegValue)
  | register
  | unregister
  | removeSource
  | removePolicy

structure InstallArgs where
  /-- The content at `DllSource`, if there is a file. -/
  dllSource : Option (List UInt8)
  dllDest : List UInt16
  dataDir : List UInt16
  examples : WordList → Option (List UInt8)

def expandStringValue (s : List UInt16) : RegValue :=
  { stringValue s with type := regExpandSz }

def installScript (args : InstallArgs) : List Step :=
  match args.dllSource with
  | none => []  -- `throw "DLL not found: $DllSource"`
  | some content =>
      .copyDll content ::
        ([ .copyExample (args.dataDir, .blacklist) (args.examples .blacklist),
           .copyExample (args.dataDir, .companyTerms)
             (args.examples .companyTerms) ] ++
          .newPolicyKey ::
            (defaults.map .addDefault ++
              [ .writeDataDir args.dataDir,
                .newSourceKey,
                .writeSource "EventMessageFile"
                  (expandStringValue args.dllDest),
                .writeSource "TypesSupported" (dwordValue 7),
                .register ]))

def uninstallScript (keepConfig : Bool) : List Step :=
  [.unregister, .removeSource] ++ if keepConfig then [] else [.removePolicy]

inductive ScriptRun where
  | install (args : InstallArgs)
  | uninstall (keepConfig : Bool)

def ScriptRun.script : ScriptRun → List Step
  | .install args => installScript args
  | .uninstall keepConfig => uninstallScript keepConfig

/-- A run to the end of the script, without an error that it hides. -/
def ScriptRun.complete (kind : ScriptRun) : ScriptRun × List Bool :=
  (kind, kind.script.map fun _ => false)

section

variable {κ : Type} [DecidableEq κ] (fold : String → κ)

/-- `-eq` -/
def isPackage (name : String) : Bool := fold name = fold packageName

/-- `hidden` says whether an error occurred that the step hides with
`-ErrorAction SilentlyContinue`. -/
def Step.apply (hidden : Bool) (step : Step) (s : Deployment) : Deployment :=
  match step with
  | .copyDll content => { s with dll := some content }
  | .copyExample target content =>
      match content with
      | some text =>
          if s.files target = none then
            { s with files := Function.update s.files target (some text) }
          else s
      | none => s
  | .newPolicyKey => { s with policy := some (newItem s.policy) }
  | .addDefault entry =>
      -- a value that could not be read is written as if it were missing
      { s with policy := s.policy.map fun key =>
          if hidden then newItemProperty key entry.1 (dwordValue entry.2)
          else PwFilter.addDefault key entry }
  | .writeDataDir dataDir =>
      { s with policy := s.policy.map fun key =>
          newItemProperty key "DataDir" (stringValue dataDir) }
  | .newSourceKey => { s with source := some (newItem s.source) }
  | .writeSource name value =>
      { s with source := s.source.map fun key =>
          newItemProperty key name value }
  | .register =>
      -- `$null` from a failed read, as from a missing value, is `@()`
      let current := if hidden then [] else s.packages.getD []
      if current.any (isPackage fold) then s
      else { s with packages := some (current ++ [packageName]) }
  | .unregister =>
      match if hidden then none else s.packages with
      | none => s
      | some current =>
          if current.any (isPackage fold) then
            { s with packages := some (current.filter fun name =>
                !isPackage fold name) }
          else s
  | .removeSource => if hidden then s else { s with source := none }
  | .removePolicy => if hidden then s else { s with policy := none }

def attempt (a : Step × Bool) (s : Deployment) : Deployment :=
  a.1.apply fold a.2 s

/-- The runs of an administration.  Each carries out as many steps as it has
outcomes, which say for each step whether it hid an error. -/
def deploy (runs : List (ScriptRun × List Bool)) (s : Deployment) :
    Deployment :=
  runs.foldl (fun s run => execute (attempt fold) (run.1.script.zip run.2) s) s

/-- An installer that could not read the list of packages and went on. -/
def MissesPackages (run : ScriptRun × List Bool) : Prop :=
  (Step.register, true) ∈ run.1.script.zip run.2

end

/-! ## What every run keeps -/

namespace Deployment

section

variable {κ : Type} [DecidableEq κ] (fold : String → κ)

def others (s : Deployment) : List String :=
  (s.packages.getD []).filter fun name => !isPackage fold name

def ownCount (s : Deployment) : ℕ :=
  (s.packages.getD []).countP (isPackage fold)

def Registered (s : Deployment) : Prop := 0 < s.ownCount fold

/-- The policy that the package reads from the registry. -/
def policyInForce (s : Deployment) : PolicyConfig :=
  match s.policy with
  | none => {}
  | some key => readPolicy key {}

/-- A key whose values are defaults, apart from those that are not settings
of the policy. -/
def PlainKey (key : RegKey) : Prop :=
  ∀ name v, (name, v) ∈ defaults →
    key name = none ∨ key name = some (dwordValue v)

def Plain (s : Deployment) : Prop := ∀ key ∈ s.policy, PlainKey key

/-- What a run keeps; `missed` says that it missed the list of packages, which
then holds no other package any more. -/
structure Keeps (missed : Prop) (s s' : Deployment) : Prop where
  others : s'.others fold = s.others fold ∨ (missed ∧ s'.others fold = [])
  own : s'.ownCount fold ≤ max 1 (s.ownCount fold)
  files : ∀ file content, s.files file = some content →
    s'.files file = some content
  /-- LSA is not told of a package that is not there. -/
  backed : (s.Registered fold → s.dll ≠ none) → s'.Registered fold →
    s'.dll ≠ none
  /-- The policy is as it was, or nothing but defaults. -/
  policy : s'.policy = s.policy ∨ s'.Plain

variable {fold}

theorem Keeps.refl (missed : Prop) (s : Deployment) :
    Keeps fold missed s s where
  others := Or.inl rfl
  own := le_max_right _ _
  files := fun _ _ h => h
  backed := fun h => h
  policy := Or.inl rfl

theorem Keeps.trans
    {missed missed' : Prop} {s s' s'' : Deployment}
    (h : Keeps fold missed s s') (h' : Keeps fold missed' s' s'') :
    Keeps fold (missed ∨ missed') s s'' where
  others := by
    rcases h'.others with hsame | ⟨hmissed, hlost⟩
    · rw [hsame]
      exact h.others.imp id fun hlost => ⟨Or.inl hlost.1, hlost.2⟩
    · exact Or.inr ⟨Or.inr hmissed, hlost⟩
  own := by
    have hfirst := h.own
    have hsecond := h'.own
    omega
  files := fun file content hfile => h'.files file content
    (h.files file content hfile)
  backed := fun hbacked => h'.backed (h.backed hbacked)
  policy := by
    rcases h'.policy with hsame | hplain
    · rcases h.policy with hsame' | hplain'
      · exact Or.inl (hsame.trans hsame')
      · refine Or.inr ?_
        unfold Plain
        rw [hsame]
        exact hplain'
    · exact Or.inr hplain

/-! ## One step -/

variable (fold)

theorem register_listed
    {s : Deployment}
    (hlisted : (s.packages.getD []).any (isPackage fold) = true) :
    Step.apply fold false .register s = s := by
  simp only [Step.apply, Bool.false_eq_true, if_false, if_pos hlisted]

theorem register_unlisted
    {s : Deployment}
    (hunlisted : ¬ (s.packages.getD []).any (isPackage fold) = true) :
    Step.apply fold false .register s =
      { s with packages := some (s.packages.getD [] ++ [packageName]) } := by
  simp only [Step.apply, Bool.false_eq_true, if_false, if_neg hunlisted]

theorem unregister_listed
    {s : Deployment} {current : List String}
    (hpackages : s.packages = some current)
    (hlisted : current.any (isPackage fold) = true) :
    Step.apply fold false .unregister s =
      { s with packages := some (current.filter fun name =>
          !isPackage fold name) } := by
  simp only [Step.apply, Bool.false_eq_true, if_false, hpackages,
    if_pos hlisted]

theorem packages_register (hidden : Bool) (s : Deployment) :
    (Step.apply fold hidden .register s).packages = s.packages ∨
      (hidden = false ∧ s.ownCount fold = 0 ∧
        (Step.apply fold hidden .register s).packages =
          some (s.packages.getD [] ++ [packageName])) ∨
      (hidden = true ∧
        (Step.apply fold hidden .register s).packages =
          some [packageName]) := by
  cases hidden with
  | true => exact .inr (.inr ⟨rfl, rfl⟩)
  | false =>
      by_cases hany : (s.packages.getD []).any (isPackage fold) = true
      · refine .inl ?_
        rw [register_listed fold hany]
      · refine .inr (.inl ⟨rfl, ?_, ?_⟩)
        · rw [ownCount, List.countP_eq_zero]
          intro name hname hown
          exact hany (List.any_eq_true.mpr ⟨name, hname, hown⟩)
        · rw [register_unlisted fold hany]

theorem packages_unregister (hidden : Bool) (s : Deployment) :
    (Step.apply fold hidden .unregister s).packages = s.packages ∨
      (Step.apply fold hidden .unregister s).packages =
        some ((s.packages.getD []).filter fun name =>
          !isPackage fold name) := by
  cases hidden with
  | true => exact .inl rfl
  | false =>
      cases hpackages : s.packages with
      | none =>
          refine .inl ?_
          simp only [Step.apply, Bool.false_eq_true, if_false, hpackages]
      | some current =>
          by_cases hany : current.any (isPackage fold) = true
          · refine .inr ?_
            rw [unregister_listed fold hpackages hany, Option.getD_some]
          · refine .inl ?_
            simp only [Step.apply, Bool.false_eq_true, if_false, hpackages,
              if_neg hany]

theorem packages_cases (hidden : Bool) (step : Step) (s : Deployment) :
    (step.apply fold hidden s).packages = s.packages ∨
      (step = .register ∧ hidden = false ∧ s.ownCount fold = 0 ∧
        (step.apply fold hidden s).packages =
          some (s.packages.getD [] ++ [packageName])) ∨
      (step = .register ∧ hidden = true ∧
        (step.apply fold hidden s).packages = some [packageName]) ∨
      (step = .unregister ∧
        (step.apply fold hidden s).packages = some ((s.packages.getD []).filter
          fun name => !isPackage fold name)) := by
  cases step with
  | register =>
      rcases packages_register fold hidden s with h | h | h
      · exact .inl h
      · exact .inr (.inl ⟨rfl, h⟩)
      · exact .inr (.inr (.inl ⟨rfl, h⟩))
  | unregister =>
      rcases packages_unregister fold hidden s with h | h
      · exact .inl h
      · exact .inr (.inr (.inr ⟨rfl, h⟩))
  | copyExample target content =>
      refine .inl ?_
      simp only [Step.apply]
      split
      · split
        · rfl
        · rfl
      · rfl
  | removeSource =>
      cases hidden with
      | true => exact .inl rfl
      | false => exact .inl rfl
  | removePolicy =>
      cases hidden with
      | true => exact .inl rfl
      | false => exact .inl rfl
  | copyDll content => exact .inl rfl
  | newPolicyKey => exact .inl rfl
  | addDefault entry => exact .inl rfl
  | writeDataDir dataDir => exact .inl rfl
  | newSourceKey => exact .inl rfl
  | writeSource name value => exact .inl rfl

/-- A step that has to do with packages has to do with nothing else. -/
theorem frame_cases (hidden : Bool) (step : Step) (s : Deployment) :
    ((step.apply fold hidden s).policy = s.policy ∧
      (step.apply fold hidden s).dll = s.dll ∧
      (step.apply fold hidden s).files = s.files ∧
      (step.apply fold hidden s).source = s.source) ∨
    (step ≠ .register ∧ step ≠ .unregister) := by
  cases step with
  | register =>
      refine .inl ?_
      simp only [Step.apply]
      generalize (if hidden = true then [] else s.packages.getD []) = current
      split
      · exact ⟨rfl, rfl, rfl, rfl⟩
      · exact ⟨rfl, rfl, rfl, rfl⟩
  | unregister =>
      refine .inl ?_
      simp only [Step.apply]
      generalize (if hidden = true then none else s.packages) = current
      split
      · exact ⟨rfl, rfl, rfl, rfl⟩
      · split
        · exact ⟨rfl, rfl, rfl, rfl⟩
        · exact ⟨rfl, rfl, rfl, rfl⟩
  | _ =>
      refine .inr ⟨?_, ?_⟩
      · intro h
        cases h
      · intro h
        cases h

/-- Only a registration that misses the list loses packages, and it loses them
all. -/
theorem others_apply (hidden : Bool) (step : Step) (s : Deployment) :
    (step.apply fold hidden s).others fold = s.others fold ∨
      (step = .register ∧ hidden = true ∧
        (step.apply fold hidden s).others fold = []) := by
  have hself : isPackage fold packageName = true := decide_eq_true rfl
  rcases packages_cases fold hidden step s with
    hsame | ⟨_, _, _, hadded⟩ | ⟨hstep, hhidden, hlost⟩ | ⟨_, hremoved⟩
  · refine .inl ?_
    rw [others, others, hsame]
  · refine .inl ?_
    rw [others, others, hadded, Option.getD_some, List.filter_append,
      List.filter_singleton, hself]
    exact List.append_nil _
  · refine .inr ⟨hstep, hhidden, ?_⟩
    rw [others, hlost, Option.getD_some, List.filter_singleton, hself]
    rfl
  · refine .inl ?_
    rw [others, others, hremoved, Option.getD_some, List.filter_filter]
    simp only [Bool.and_self]

theorem ownCount_apply (hidden : Bool) (step : Step) (s : Deployment) :
    (step.apply fold hidden s).ownCount fold ≤ max 1 (s.ownCount fold) := by
  have hself : isPackage fold packageName = true := decide_eq_true rfl
  rcases packages_cases fold hidden step s with
    hsame | ⟨_, _, hnone, hadded⟩ | ⟨_, _, hlost⟩ | ⟨_, hremoved⟩
  · rw [ownCount, hsame]
    exact le_max_right _ _
  · rw [ownCount, hadded, Option.getD_some, List.countP_append]
    rw [ownCount] at hnone
    rw [hnone, List.countP_singleton, hself]
    exact le_max_left _ _
  · rw [ownCount, hlost, Option.getD_some, List.countP_singleton, hself]
    exact le_max_left _ _
  · have hzero : ((s.packages.getD []).filter
        fun name => !isPackage fold name).countP (isPackage fold) = 0 := by
      rw [List.countP_eq_zero]
      intro name hname hown
      have hother := (List.mem_filter.mp hname).2
      rw [hown] at hother
      cases hother
    rw [ownCount, hremoved, Option.getD_some, hzero]
    exact Nat.zero_le _

theorem files_apply
    (hidden : Bool) (step : Step) {s : Deployment} {file : List UInt16 × WordList}
    {content : List UInt8} (hfile : s.files file = some content) :
    (step.apply fold hidden s).files file = some content := by
  cases step with
  | copyExample target text =>
      simp only [Step.apply]
      split
      · split
        · rename_i hfree
          have hne : file ≠ target := by
            rintro rfl
            rw [hfree] at hfile
            cases hfile
          exact (Function.update_of_ne hne _ _).trans hfile
        · exact hfile
      · exact hfile
  | register =>
      rcases frame_cases fold hidden .register s with
        ⟨_, _, hsame, _⟩ | ⟨hne, _⟩
      · rw [hsame]
        exact hfile
      · exact absurd rfl hne
  | unregister =>
      rcases frame_cases fold hidden .unregister s with
        ⟨_, _, hsame, _⟩ | ⟨_, hne⟩
      · rw [hsame]
        exact hfile
      · exact absurd rfl hne
  | removeSource =>
      cases hidden with
      | true => exact hfile
      | false => exact hfile
  | removePolicy =>
      cases hidden with
      | true => exact hfile
      | false => exact hfile
  | _ => exact hfile

theorem dll_apply
    (hidden : Bool) (step : Step) {s : Deployment} (hdll : s.dll ≠ none) :
    (step.apply fold hidden s).dll ≠ none := by
  cases step with
  | copyDll content => exact Option.some_ne_none content
  | copyExample target text =>
      simp only [Step.apply]
      split
      · split
        · exact hdll
        · exact hdll
      · exact hdll
  | register =>
      rcases frame_cases fold hidden .register s with ⟨_, hsame, _⟩ | ⟨hne, _⟩
      · rw [hsame]
        exact hdll
      · exact absurd rfl hne
  | unregister =>
      rcases frame_cases fold hidden .unregister s with ⟨_, hsame, _⟩ | ⟨_, hne⟩
      · rw [hsame]
        exact hdll
      · exact absurd rfl hne
  | removeSource =>
      cases hidden with
      | true => exact hdll
      | false => exact hdll
  | removePolicy =>
      cases hidden with
      | true => exact hdll
      | false => exact hdll
  | _ => exact hdll

theorem PlainKey.addDefault
    {key : RegKey} (hkey : PlainKey key) {entry : String × UInt32}
    (hentry : entry ∈ defaults) : PlainKey (addDefault key entry) := by
  intro name v hmem
  rw [addDefault_apply]
  rcases hkey name v hmem with hnone | hdefault
  · rw [hnone, Option.none_or]
    by_cases hname : name = entry.1
    · have hlookup := (lookup_of_mem_defaults hmem).2
      rw [hname, (lookup_of_mem_defaults hentry).2, Option.some.injEq]
        at hlookup
      rw [if_pos hname, hlookup]
      exact Or.inr rfl
    · exact Or.inl (if_neg hname)
  · rw [hdefault, Option.some_or]
    exact Or.inr rfl

theorem PlainKey.writeDataDir
    {key : RegKey} (hkey : PlainKey key) (value : RegValue) :
    PlainKey (newItemProperty key "DataDir" value) := by
  intro name v hmem
  rw [newItemProperty_of_ne _ _ (lookup_of_mem_defaults hmem).1]
  exact hkey name v hmem

theorem PlainKey.writeDefault
    {key : RegKey} (hkey : PlainKey key) {entry : String × UInt32}
    (hentry : entry ∈ defaults) :
    PlainKey (newItemProperty key entry.1 (dwordValue entry.2)) := by
  intro name v hmem
  by_cases hname : name = entry.1
  · have hlookup := (lookup_of_mem_defaults hmem).2
    rw [hname, (lookup_of_mem_defaults hentry).2, Option.some.injEq]
      at hlookup
    rw [hname, newItemProperty_self, hlookup]
    exact Or.inr rfl
  · rw [newItemProperty_of_ne _ _ hname]
    exact hkey name v hmem

/-- A plain key reads as the built-in policy. -/
theorem PlainKey.readPolicy {key : RegKey} (hkey : PlainKey key) :
    readPolicy key {} = {} := by
  have hread : ∀ name v dflt, (name, v) ∈ defaults → dflt = v →
      regDword key name dflt = v := by
    intro name v dflt hmem hdflt
    rcases hkey name v hmem with hnone | hdefault
    · rw [regDword, hnone]
      exact hdflt
    · exact StoresDword.regDword_eq hdefault dflt
  unfold PwFilter.readPolicy
  rw [hread "MinLength" 12 (UInt32.ofNat 12) (by decide) rfl,
    hread "MaxLength" 256 (UInt32.ofNat 256) (by decide) rfl,
    hread "RequiredClasses" 3 (UInt32.ofInt 3) (by decide) rfl,
    hread "RejectKeyboardPatterns" 1 _ (by decide) rfl,
    hread "RejectSequences" 1 _ (by decide) rfl,
    hread "SequenceMinRun" 4 (UInt32.ofNat 4) (by decide) rfl,
    hread "KeyboardMinRun" 4 (UInt32.ofNat 4) (by decide) rfl,
    hread "MaxRepeatRun" 4 (UInt32.ofNat 4) (by decide) rfl,
    hread "RejectContainsAccountName" 1 _ (by decide) rfl,
    hread "RejectContainsFullName" 1 _ (by decide) rfl,
    hread "MinIdentityToken" 3 (UInt32.ofNat 3) (by decide) rfl,
    hread "CheckBreach" 1 _ (by decide) rfl,
    hread "FailOpenOnError" 1 _ (by decide) rfl]
  rfl

theorem Plain.policyInForce {s : Deployment} (hs : s.Plain) :
    s.policyInForce = {} := by
  unfold Deployment.policyInForce
  cases hpolicy : s.policy with
  | none => rfl
  | some key => exact PlainKey.readPolicy (hs key hpolicy)

theorem plain_apply
    (hidden : Bool) {step : Step} (hentry : ∀ entry,
      step = .addDefault entry → entry ∈ defaults) {s : Deployment}
    (hs : s.Plain) : (step.apply fold hidden s).Plain := by
  cases step with
  | newPolicyKey =>
      intro key hkey name v _
      rw [← Option.some.inj hkey]
      exact Or.inl rfl
  | addDefault entry =>
      intro key hkey
      obtain ⟨old, hold, rfl⟩ := Option.map_eq_some_iff.mp hkey
      split
      · exact (hs old hold).writeDefault (hentry entry rfl)
      · exact (hs old hold).addDefault (hentry entry rfl)
  | writeDataDir dataDir =>
      intro key hkey
      obtain ⟨old, hold, rfl⟩ := Option.map_eq_some_iff.mp hkey
      exact (hs old hold).writeDataDir _
  | removePolicy =>
      cases hidden with
      | true => exact hs
      | false =>
          intro key hkey
          cases hkey
  | removeSource =>
      cases hidden with
      | true => exact hs
      | false => exact hs
  | copyExample target text =>
      simp only [Step.apply]
      split
      · split
        · exact hs
        · exact hs
      · exact hs
  | register =>
      rcases frame_cases fold hidden .register s with ⟨hsame, _⟩ | ⟨hne, _⟩
      · unfold Plain
        rw [hsame]
        exact hs
      · exact absurd rfl hne
  | unregister =>
      rcases frame_cases fold hidden .unregister s with ⟨hsame, _⟩ | ⟨_, hne⟩
      · unfold Plain
        rw [hsame]
        exact hs
      · exact absurd rfl hne
  | _ => exact hs

/-! ## One run -/

theorem keeps_execute
    {attempts : List (Step × Bool)} {s : Deployment}
    (hbacked : (s.Registered fold → s.dll ≠ none) →
      (execute (attempt fold) attempts s).Registered fold →
      (execute (attempt fold) attempts s).dll ≠ none)
    (hpolicy : (execute (attempt fold) attempts s).policy = s.policy ∨
      (execute (attempt fold) attempts s).Plain) :
    Keeps fold ((Step.register, true) ∈ attempts) s
      (execute (attempt fold) attempts s) := by
  have hothers : ∀ a ∈ attempts, ∀ t : Deployment,
      (t.others fold = s.others fold ∨
        ((Step.register, true) ∈ attempts ∧ t.others fold = [])) →
      (attempt fold a t).others fold = s.others fold ∨
        ((Step.register, true) ∈ attempts ∧
          (attempt fold a t).others fold = []) := by
    rintro ⟨step, hidden⟩ hmem t ht
    rcases others_apply fold hidden step t with hsame | ⟨rfl, rfl, hlost⟩
    · rw [attempt, hsame]
      exact ht
    · exact Or.inr ⟨hmem, hlost⟩
  have hown : ∀ a ∈ attempts, ∀ t : Deployment,
      t.ownCount fold ≤ max 1 (s.ownCount fold) →
      (attempt fold a t).ownCount fold ≤ max 1 (s.ownCount fold) := by
    intro a _ t ht
    have hstep : (attempt fold a t).ownCount fold ≤
        max 1 (t.ownCount fold) := ownCount_apply fold a.2 a.1 t
    omega
  refine ⟨execute_invariant hothers (Or.inl rfl),
    execute_invariant hown (le_max_right _ _), ?_, hbacked, hpolicy⟩
  intro file content hfile
  have hkept : ∀ a ∈ attempts, ∀ t : Deployment,
      t.files file = some content →
      (attempt fold a t).files file = some content :=
    fun a _ _ ht => files_apply fold a.2 a.1 ht
  exact execute_invariant hkept hfile

/-- Nothing before `New-Item` touches the policy key. -/
theorem policy_of_copies
    {attempts : List (Step × Bool)} (hcopies : ∀ a ∈ attempts,
      (∃ content, a.1 = .copyDll content) ∨
        ∃ target content, a.1 = .copyExample target content)
    (s : Deployment) :
    (execute (attempt fold) attempts s).policy = s.policy := by
  have hstep : ∀ a ∈ attempts, ∀ t : Deployment, t.policy = s.policy →
      (attempt fold a t).policy = s.policy := by
    intro a hmem t ht
    unfold attempt
    rcases hcopies a hmem with ⟨content, hcopy⟩ | ⟨target, content, hcopy⟩
    · rw [hcopy]
      exact ht
    · rw [hcopy]
      simp only [Step.apply]
      split
      · split
        · exact ht
        · exact ht
      · exact ht
  exact execute_invariant hstep rfl

theorem plain_execute
    {attempts : List (Step × Bool)} (hentries : ∀ a ∈ attempts, ∀ entry,
      a.1 = .addDefault entry → entry ∈ defaults) {s : Deployment}
    (hs : s.Plain) : (execute (attempt fold) attempts s).Plain := by
  have hstep : ∀ a ∈ attempts, ∀ t : Deployment, t.Plain →
      (attempt fold a t).Plain :=
    fun a hmem _ ht => plain_apply fold a.2 (hentries a hmem) ht
  exact execute_invariant hstep hs

theorem keeps_install
    (args : InstallArgs) (outcomes : List Bool) (s : Deployment) :
    Keeps fold (MissesPackages (.install args, outcomes)) s
      (execute (attempt fold) ((installScript args).zip outcomes) s) := by
  show Keeps fold ((Step.register, true) ∈ (installScript args).zip outcomes) s
    _
  unfold installScript
  cases args.dllSource with
  | none => exact Keeps.refl _ s
  | some content =>
      dsimp only
      refine keeps_execute fold ?_ ?_
      · intro hbacked hregistered
        cases outcomes with
        | nil => exact hbacked hregistered
        | cons hidden outcomes =>
            rw [List.zip_cons_cons, execute_cons]
            have hcopied :
                (attempt fold (.copyDll content, hidden) s).dll ≠ none :=
              Option.some_ne_none content
            have hkept : ∀ a : Step × Bool, ∀ t : Deployment, t.dll ≠ none →
                (attempt fold a t).dll ≠ none :=
              fun a _ ht => dll_apply fold a.2 a.1 ht
            exact execute_invariant (fun a _ => hkept a) hcopied
      · rw [← List.cons_append]
        rcases zip_around _ _ Step.newPolicyKey outcomes with
          hbefore | ⟨first, hidden, rest, hbehind⟩
        · rw [hbefore]
          refine .inl (policy_of_copies fold ?_ s)
          intro a ha
          have hcopy := (List.of_mem_zip ha).1
          simp only [List.mem_cons, List.not_mem_nil, or_false] at hcopy
          rcases hcopy with h | h | h
          · exact .inl ⟨_, h⟩
          · exact .inr ⟨_, _, h⟩
          · exact .inr ⟨_, _, h⟩
        · rw [hbehind, execute_append, execute_cons]
          refine .inr (plain_execute fold ?_ ?_)
          · intro a ha entry hentry
            have hstep := (List.of_mem_zip ha).1
            rw [hentry] at hstep
            rcases List.mem_append.mp hstep with hadded | hother
            · obtain ⟨listed, hlisted, hsame⟩ := List.mem_map.mp hadded
              rw [← Step.addDefault.inj hsame]
              exact hlisted
            · simp at hother
          · intro key hkey name v _
            rw [← Option.some.inj hkey]
            exact Or.inl rfl

theorem uninstall_step
    {keepConfig : Bool} {step : Step}
    (hstep : step ∈ uninstallScript keepConfig) :
    step = .unregister ∨ step = .removeSource ∨ step = .removePolicy := by
  unfold uninstallScript at hstep
  cases keepConfig with
  | true =>
      simp only [if_true, List.append_nil, List.mem_cons, List.not_mem_nil,
        or_false] at hstep
      rcases hstep with h | h
      · exact .inl h
      · exact .inr (.inl h)
  | false =>
      simp only [Bool.false_eq_true, if_false, List.cons_append,
        List.nil_append, List.mem_cons, List.not_mem_nil, or_false] at hstep
      exact hstep

theorem uninstall_backed
    {keepConfig : Bool} {step : Step}
    (hstep : step ∈ uninstallScript keepConfig) (hidden : Bool)
    {t : Deployment} (ht : t.Registered fold → t.dll ≠ none)
    (hregistered : (step.apply fold hidden t).Registered fold) :
    (step.apply fold hidden t).dll ≠ none := by
  apply dll_apply
  apply ht
  have hnot : step ≠ .register := by
    rintro rfl
    rcases uninstall_step hstep with h | h | h
    · cases h
    · cases h
    · cases h
  rcases packages_cases fold hidden step t with
    hsame | ⟨h, _⟩ | ⟨h, _⟩ | ⟨_, hremoved⟩
  · rw [Registered, ownCount, hsame] at hregistered
    exact hregistered
  · exact absurd h hnot
  · exact absurd h hnot
  · rw [Registered, ownCount, hremoved, Option.getD_some,
      List.countP_filter] at hregistered
    simp at hregistered

theorem keeps_uninstall
    (keepConfig : Bool) (outcomes : List Bool) (s : Deployment) :
    Keeps fold (MissesPackages (.uninstall keepConfig, outcomes)) s
      (execute (attempt fold) ((uninstallScript keepConfig).zip outcomes)
        s) := by
  refine keeps_execute fold ?_ ?_
  · intro hbacked
    have hstep : ∀ a ∈ (uninstallScript keepConfig).zip outcomes,
        ∀ t : Deployment, (t.Registered fold → t.dll ≠ none) →
        (attempt fold a t).Registered fold → (attempt fold a t).dll ≠ none :=
      fun a ha _ ht => uninstall_backed fold (List.of_mem_zip ha).1 a.2 ht
    exact execute_invariant hstep hbacked
  · have hstep : ∀ a ∈ (uninstallScript keepConfig).zip outcomes,
        ∀ t : Deployment, (t.policy = s.policy ∨ t.Plain) →
        (attempt fold a t).policy = s.policy ∨ (attempt fold a t).Plain := by
      rintro ⟨step, hidden⟩ ha t ht
      unfold attempt
      rcases uninstall_step (List.of_mem_zip ha).1 with rfl | rfl | rfl
      · rcases frame_cases fold hidden .unregister t with ⟨hsame, _⟩ | ⟨_, hne⟩
        · unfold Plain
          rw [hsame]
          exact ht
        · exact absurd rfl hne
      · cases hidden with
        | true => exact ht
        | false => exact ht
      · cases hidden with
        | true => exact ht
        | false =>
            refine .inr ?_
            intro key hkey
            cases hkey
    exact execute_invariant hstep (Or.inl rfl)

theorem keeps_deploy
    (runs : List (ScriptRun × List Bool)) (s : Deployment) :
    Keeps fold (∃ run ∈ runs, MissesPackages run) s (deploy fold runs s) := by
  induction runs generalizing s with
  | nil => exact Keeps.refl _ s
  | cons run runs ih =>
      have hfirst : Keeps fold (MissesPackages run) s
          (execute (attempt fold) (run.1.script.zip run.2) s) := by
        obtain ⟨kind, outcomes⟩ := run
        cases kind with
        | install args => exact keeps_install fold args outcomes s
        | uninstall keepConfig =>
            exact keeps_uninstall fold keepConfig outcomes s
      simp only [List.exists_mem_cons_iff]
      exact hfirst.trans (ih _)

/-- Whatever is installed and uninstalled, wherever the scripts stop and
whatever errors they hide: the other packages stay, in their order, or an
installer missed the list and there is none left; the package is not added
twice; no word list is overwritten; LSA is not told of a DLL that is not in
place; and the policy read from the registry is the old one or the built-in
one, never a mixture. -/
theorem deploy_keeps
    (runs : List (ScriptRun × List Bool)) (s : Deployment) :
    Keeps fold (∃ run ∈ runs, MissesPackages run) s (deploy fold runs s) ∧
      ((deploy fold runs s).policy = s.policy ∨
        (deploy fold runs s).policyInForce = {}) := by
  have hkeeps := keeps_deploy fold runs s
  exact ⟨hkeeps, hkeeps.policy.imp id Plain.policyInForce⟩

/-- An installer that misses the list leaves no other package. -/
example : (deploy String.toLower
    [(.install
      { dllSource := some [0x4D, 0x5A]
        dllDest := []
        dataDir := []
        examples := fun _ => none }, List.replicate 22 false ++ [true])]
    { packages := some ["rassfm", "scecli"]
      policy := none
      source := none
      dll := none
      files := fun _ => none }).packages = some ["PasswordFilterDLL"] := rfl

/-! ## Complete runs -/

theorem deploy_complete (kind : ScriptRun) (s : Deployment) :
    deploy fold [kind.complete] s =
      execute (Step.apply fold false) kind.script s := by
  have hsteps : kind.script.zip (kind.script.map fun _ => false) =
      kind.script.map fun step => (step, false) := by
    have hzip : (kind.script.map id).zip (kind.script.map fun _ => false) =
        kind.script.map fun step => (step, false) := List.zip_map'
    rw [List.map_id] at hzip
    exact hzip
  rw [deploy, List.foldl_cons, List.foldl_nil, ScriptRun.complete, hsteps,
    execute, List.foldl_map]
  rfl

def install (args : InstallArgs) (s : Deployment) : Deployment :=
  deploy fold [(ScriptRun.install args).complete] s

def uninstall (keepConfig : Bool) (s : Deployment) : Deployment :=
  deploy fold [(ScriptRun.uninstall keepConfig).complete] s

def copyList (args : InstallArgs) (list : WordList) (s : Deployment) :
    Deployment :=
  Step.apply fold false (.copyExample (args.dataDir, list) (args.examples list)) s

theorem execute_addDefaults
    (entries : List (String × UInt32)) {s : Deployment} (key : RegKey)
    (hkey : s.policy = some key) :
    execute (Step.apply fold false) (entries.map .addDefault) s =
      { s with policy := some (entries.foldl addDefault key) } := by
  induction entries generalizing s key with
  | nil =>
      rw [List.foldl_nil, ← hkey]
      rfl
  | cons entry entries ih =>
      have hstep : Step.apply fold false (.addDefault entry) s =
          { s with policy := some (addDefault key entry) } := by
        simp only [Step.apply, hkey, Option.map_some, Bool.false_eq_true,
          if_false]
      rw [List.map_cons, execute_cons, hstep, ih _ rfl]
      rfl

def sourceKey (args : InstallArgs) : RegKey :=
  newItemProperty
    (newItemProperty (fun _ => none) "EventMessageFile"
      (expandStringValue args.dllDest))
    "TypesSupported" (dwordValue 7)

/-- Everything but the registration. -/
def prepare (args : InstallArgs) (content : List UInt8) (s : Deployment) :
    Deployment :=
  { copyList fold args .companyTerms
      (copyList fold args .blacklist { s with dll := some content }) with
    policy := some (installPolicy args.dataDir s.policy)
    source := some (sourceKey args) }

theorem install_eq
    {args : InstallArgs} {content : List UInt8}
    (hsource : args.dllSource = some content) (s : Deployment) :
    install fold args s =
      Step.apply fold false .register (prepare fold args content s) := by
  rw [install, deploy_complete, ScriptRun.script, installScript, hsource]
  dsimp only
  rw [execute_cons, execute_append, execute_cons, execute_append]
  rw [execute_addDefaults fold defaults (newItem none) rfl]
  rfl

theorem copyList_again
    (args : InstallArgs) (list : WordList) (s : Deployment) {t : Deployment}
    (hfiles : ∀ file content, (copyList fold args list s).files file =
      some content → t.files file = some content) :
    copyList fold args list t = t := by
  unfold copyList at hfiles ⊢
  cases hexample : args.examples list with
  | none => rfl
  | some text =>
      rw [hexample] at hfiles
      have hthere : ∃ content, t.files (args.dataDir, list) = some content := by
        by_cases hfree : s.files (args.dataDir, list) = none
        · refine ⟨text, hfiles _ _ ?_⟩
          simp only [Step.apply, if_pos hfree]
          exact Function.update_self _ _ _
        · obtain ⟨content, hcontent⟩ := Option.ne_none_iff_exists'.mp hfree
          refine ⟨content, hfiles _ _ ?_⟩
          simp only [Step.apply, if_neg hfree]
          exact hcontent
      obtain ⟨content, hcontent⟩ := hthere
      have hused : ¬ t.files (args.dataDir, list) = none := by
        rw [hcontent]
        exact Option.some_ne_none content
      simp only [Step.apply, if_neg hused]

theorem register_frame (s : Deployment) :
    (Step.apply fold false .register s).policy = s.policy ∧
      (Step.apply fold false .register s).dll = s.dll ∧
      (Step.apply fold false .register s).files = s.files ∧
      (Step.apply fold false .register s).source = s.source := by
  rcases frame_cases fold false .register s with h | ⟨hne, _⟩
  · exact h
  · exact absurd rfl hne

theorem registered_register (s : Deployment) :
    ((Step.apply fold false .register s).packages.getD []).any (isPackage fold) =
      true := by
  have hself : isPackage fold packageName = true := decide_eq_true rfl
  by_cases hany : (s.packages.getD []).any (isPackage fold) = true
  · rw [register_listed fold hany]
    exact hany
  · rw [register_unlisted fold hany]
    simp only [Option.getD_some, List.any_append, List.any_cons, hself,
      Bool.true_or, Bool.or_true]

theorem copyList_frame (args : InstallArgs) (list : WordList)
    (s : Deployment) :
    (copyList fold args list s).dll = s.dll ∧
      (copyList fold args list s).packages = s.packages := by
  unfold copyList
  simp only [Step.apply]
  split
  · split
    · exact ⟨rfl, rfl⟩
    · exact ⟨rfl, rfl⟩
  · exact ⟨rfl, rfl⟩

theorem prepare_frame (args : InstallArgs) (content : List UInt8)
    (s : Deployment) :
    (prepare fold args content s).dll = some content ∧
      (prepare fold args content s).packages = s.packages := by
  obtain ⟨hdll, hpackages⟩ :=
    copyList_frame fold args .blacklist { s with dll := some content }
  obtain ⟨hdll', hpackages'⟩ := copyList_frame fold args .companyTerms
    (copyList fold args .blacklist { s with dll := some content })
  exact ⟨hdll'.trans hdll, hpackages'.trans hpackages⟩

/-- Preparing a machine that has been prepared finds everything in place. -/
theorem prepare_again
    {args : InstallArgs} {content : List UInt8} {s t : Deployment}
    (hpolicy : t.policy = (prepare fold args content s).policy)
    (hdll : t.dll = (prepare fold args content s).dll)
    (hfiles : t.files = (prepare fold args content s).files)
    (hkey : t.source = (prepare fold args content s).source) :
    prepare fold args content t = t := by
  rw [(prepare_frame fold args content s).1] at hdll
  have hpolicy' : t.policy = some (installPolicy args.dataDir s.policy) :=
    hpolicy
  have hkey' : t.source = some (sourceKey args) := hkey
  have hsameDll : { t with dll := some content } = t := by
    rw [← hdll]
  have hblacklist : copyList fold args .blacklist t = t := by
    refine copyList_again fold args .blacklist
      { s with dll := some content } ?_
    intro file text hfile
    rw [hfiles]
    exact files_apply fold false _ hfile
  have hterms : copyList fold args .companyTerms t = t := by
    refine copyList_again fold args .companyTerms
      (copyList fold args .blacklist { s with dll := some content }) ?_
    intro file text hfile
    rw [hfiles]
    exact hfile
  rw [prepare, hsameDll, hblacklist, hterms, hpolicy', installPolicy_again,
    ← hpolicy', ← hkey']

/-- Installing again changes nothing. -/
theorem install_idempotent (args : InstallArgs) (s : Deployment) :
    install fold args (install fold args s) = install fold args s := by
  cases hsource : args.dllSource with
  | none =>
      have hnothing : ∀ t, install fold args t = t := by
        intro t
        rw [install, deploy_complete, ScriptRun.script, installScript, hsource]
        rfl
      rw [hnothing, hnothing]
  | some content =>
      obtain ⟨hpolicy, hdll, hfiles, hkey⟩ :=
        register_frame fold (prepare fold args content s)
      have hregistered := registered_register fold (prepare fold args content s)
      rw [install_eq fold hsource (install fold args s),
        install_eq fold hsource s,
        prepare_again fold hpolicy hdll hfiles hkey]
      generalize Step.apply fold false .register
        (prepare fold args content s) = t at hregistered ⊢
      exact register_listed fold hregistered

theorem uninstall_eq (keepConfig : Bool) (s : Deployment) :
    uninstall fold keepConfig s =
      { Step.apply fold false .unregister s with
        policy := if keepConfig then (Step.apply fold false .unregister s).policy
          else none
        source := none } := by
  rw [uninstall, deploy_complete]
  cases keepConfig with
  | true => rfl
  | false => rfl

/-- A first installation is active with the built-in policy, and taking it
back leaves the packages as they were, the word lists and the DLL in place. -/
theorem uninstall_undoes_install
    {args : InstallArgs} {content : List UInt8}
    (hsource : args.dllSource = some content) {s : Deployment}
    (hnew : s.ownCount fold = 0) (keepConfig : Bool) :
    let installed := install fold args s
    let removed := uninstall fold keepConfig installed
    installed.Registered fold ∧ installed.dll = some content ∧
      installed.policyInForce = {} ∧
      removed.packages = some (s.packages.getD []) ∧
      removed.source = none ∧
      removed.policy = (if keepConfig then installed.policy else none) ∧
      removed.dll = installed.dll ∧ removed.files = installed.files := by
  have hself : isPackage fold packageName = true := decide_eq_true rfl
  obtain ⟨hpolicy, hdll, _, _⟩ :=
    register_frame fold (prepare fold args content s)
  obtain ⟨hprepared, hpackages⟩ := prepare_frame fold args content s
  rw [ownCount, List.countP_eq_zero] at hnew
  have hnone : ¬ (s.packages.getD []).any (isPackage fold) = true := by
    intro hany
    obtain ⟨name, hname, hown⟩ := List.any_eq_true.mp hany
    exact hnew name hname hown
  have hadded : (Step.apply fold false .register
      (prepare fold args content s)).packages =
        some (s.packages.getD [] ++ [packageName]) := by
    rw [register_unlisted fold (by rw [hpackages]; exact hnone), hpackages]
  have hothers : (s.packages.getD []).filter (fun name =>
      !isPackage fold name) = s.packages.getD [] := by
    rw [List.filter_eq_self]
    intro name hname
    rw [Bool.not_eq_true']
    exact Bool.eq_false_iff.mpr (hnew name hname)
  dsimp only
  rw [install_eq fold hsource, uninstall_eq]
  generalize hinstalled : Step.apply fold false .register
    (prepare fold args content s) = t at hpolicy hdll hadded ⊢
  have hregistered : (s.packages.getD [] ++ [packageName]).any
      (isPackage fold) = true := by
    rw [List.any_append, List.any_cons, hself, Bool.true_or, Bool.or_true]
  have hremoved : Step.apply fold false .unregister t =
      { t with packages := some (s.packages.getD []) } := by
    rw [unregister_listed fold hadded hregistered]
    simp only [List.filter_append, hothers, List.filter_cons, hself,
      Bool.not_true, Bool.false_eq_true, if_false, List.filter_nil,
      List.append_nil]
  rw [hremoved]
  refine ⟨?_, hdll.trans hprepared, ?_, rfl, rfl, rfl, rfl, rfl⟩
  · rw [Registered, ownCount, hadded, Option.getD_some, List.countP_append,
      List.countP_singleton, hself]
    exact Nat.succ_pos _
  · have hkey : t.policy = some (installPolicy args.dataDir s.policy) := hpolicy
    rw [policyInForce, hkey]
    exact readPolicy_installPolicy args.dataDir s.policy

end

/-- Installed next to the package that Windows brings, and taken back. -/
theorem uninstall_undoes_install_sample :
    let args : InstallArgs :=
      { dllSource := some [0x4D, 0x5A]
        dllDest := []
        dataDir := []
        examples := fun _ => none }
    let s : Deployment :=
      { packages := some ["rassfm", "scecli"]
        policy := none
        source := none
        dll := none
        files := fun _ => none }
    (uninstall String.toLower false (install String.toLower args s)).packages =
      some ["rassfm", "scecli"] :=
  (uninstall_undoes_install String.toLower rfl (by decide +kernel)
    false).2.2.2.1

end Deployment

end PwFilter
