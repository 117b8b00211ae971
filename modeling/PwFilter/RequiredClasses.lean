import PwFilter.Initialization

/-!
# The number of required classes

The setting is stored as an unsigned number and compared as a signed one.  So
the rule asks for the stored number of classes as long as that number is below
`2 ^ 31`; from there on it is negative and the rule is off.
-/

namespace PwFilter

open ByteMemory

theorem dwordToInt_of_lt {v : UInt32} (hv : v.toNat < 2 ^ 31) :
    dwordToInt v = v.toNat :=
  BitVec.toInt_eq_toNat_of_lt (by rw [UInt32.toNat_toBitVec]; omega)

theorem dwordToInt_neg {v : UInt32} (hv : 2 ^ 31 ≤ v.toNat) :
    dwordToInt v < 0 := by
  have hlt := v.toNat_lt
  rw [dwordToInt, BitVec.toInt_eq_toNat_cond, UInt32.toNat_toBitVec,
    if_neg (by omega)]
  omega

theorem dwordToInt_pos_iff {v : UInt32} (hv : v.toNat < 2 ^ 31) :
    0 < dwordToInt v ↔ v ≠ 0 := by
  rw [dwordToInt_of_lt hv, ne_eq, ← UInt32.toNat_inj]
  have hzero : UInt32.toNat 0 = 0 := rfl
  omega

/-! ## The rule -/

theorem Validator.classes_of_notEnoughClasses
    {v : Validator} {password accountName fullName : List UInt16}
    (hreject : v.evaluate password accountName fullName =
      .reject .notEnoughClasses) :
    0 < v.cfg.requiredClasses ∧
      ((classesOf password).card : ℤ) < v.cfg.requiredClasses := by
  rw [Validator.evaluate_eq_verdict] at hreject
  have hmem := Validator.mem_of_verdict_reject hreject
  simp only [Validator.checks, Validator.localChecks, List.mem_append,
    List.mem_cons, List.mem_map, List.not_mem_nil, or_false, Prod.mk.injEq,
    reduceCtorEq, false_and, false_or, and_false, exists_false, true_and,
    eq_comm (a := true), decide_eq_true_eq] at hmem
  rw [← countCharClasses_eq]
  exact hmem

/-- The length rules are the only ones that come before. -/
theorem Validator.evaluate_notEnoughClasses_iff
    {v : Validator} {password : List UInt16}
    (hmin : v.cfg.minLength ≤ password.length)
    (hmax : password.length ≤ v.cfg.maxLength)
    (accountName fullName : List UInt16) :
    v.evaluate password accountName fullName = .reject .notEnoughClasses ↔
      0 < v.cfg.requiredClasses ∧
        ((classesOf password).card : ℤ) < v.cfg.requiredClasses := by
  constructor
  · exact Validator.classes_of_notEnoughClasses
  · intro hfires
    rw [← countCharClasses_eq] at hfires
    rw [Validator.evaluate, if_neg (Nat.not_lt.mpr hmin),
      if_neg (Nat.not_lt.mpr hmax), if_pos hfires]

theorem classesOf_card_le (password : List UInt16) :
    (classesOf password).card ≤ 4 :=
  Finset.card_le_univ _

/-- `ctx` was created on a machine where `v` is stored as `RequiredClasses`. -/
def RequiresClasses (ctx : FilterContext) (v : UInt32) : Prop :=
  ∃ host key, host.registry = some key ∧
    StoresDword key "RequiredClasses" v ∧ ctx.LoadedBy host

theorem RequiresClasses.setting
    {ctx : FilterContext} {v : UInt32} (h : RequiresClasses ctx v)
    {validator : Validator} (hvalidator : validator ∈ ctx.validator) :
    validator.cfg.requiredClasses = dwordToInt v := by
  obtain ⟨host, key, hregistry, hstored, hloaded⟩ := h
  have hready := hloaded.ready
  obtain ⟨terms, hcfg⟩ := hready.cfg
  rw [hready.validator, Option.mem_some_iff] at hvalidator
  have hfield : (ctx.makeValidator host).cfg = ctx.cfg := rfl
  rw [← hvalidator, hfield, hcfg, readSettings, hregistry]
  exact congrArg dwordToInt (hstored.regDword_eq _)

/-- The rule asks for at least `v` classes; a smaller positive `v₁` rejects no
password that this one lets pass; and only zero turns the rule off. -/
structure EnforcesClasses
    (validator : Validator) (v : UInt32) (password : List UInt16) : Prop where
  exact : ∀ accountName fullName,
    validator.evaluate password accountName fullName =
        .reject .notEnoughClasses ↔
      0 < v.toNat ∧ (classesOf password).card < v.toNat
  monotone : ∀ (v₁ : UInt32) (ctx₁ : FilterContext), 1 ≤ v₁ → v₁ ≤ v →
    RequiresClasses ctx₁ v₁ → ∀ validator₁ ∈ ctx₁.validator,
    ∀ accountName fullName,
      (validator.evaluate password accountName fullName).allowed = true →
      validator₁.evaluate password accountName fullName ≠
        .reject .notEnoughClasses
  off : ¬ 0 < validator.cfg.requiredClasses ↔ v = 0

theorem RequiresClasses.of_rejected
    {ctx : FilterContext} {v : UInt32} (h : RequiresClasses ctx v)
    {validator : Validator} (hvalidator : validator ∈ ctx.validator)
    {password accountName fullName : List UInt16}
    (hreject : validator.evaluate password accountName fullName =
      .reject .notEnoughClasses) :
    v.toNat < 2 ^ 31 ∧ (classesOf password).card < v.toNat := by
  have hfires := Validator.classes_of_notEnoughClasses hreject
  rw [h.setting hvalidator] at hfires
  have hsmall : v.toNat < 2 ^ 31 := by
    by_contra hlarge
    have hneg := dwordToInt_neg (Nat.le_of_not_lt hlarge)
    omega
  rw [dwordToInt_of_lt hsmall] at hfires
  exact ⟨hsmall, by omega⟩

/-- The rule is enforced as stored exactly when the number has no sign bit. -/
theorem required_classes_enforced_iff
    {ctx : FilterContext} {v : UInt32} (h : RequiresClasses ctx v)
    {validator : Validator} (hvalidator : validator ∈ ctx.validator)
    {password : List UInt16}
    (hmin : validator.cfg.minLength ≤ password.length)
    (hmax : password.length ≤ validator.cfg.maxLength) :
    EnforcesClasses validator v password ↔ v.toNat < 2 ^ 31 := by
  have hcard := classesOf_card_le password
  constructor
  · intro henforces
    by_contra hlarge
    have hreject := (henforces.exact [] []).mpr (by omega)
    exact hlarge (h.of_rejected hvalidator hreject).1
  · intro hsmall
    have hsetting : validator.cfg.requiredClasses = v.toNat := by
      rw [h.setting hvalidator, dwordToInt_of_lt hsmall]
    have hexact : ∀ accountName fullName,
        validator.evaluate password accountName fullName =
            .reject .notEnoughClasses ↔
          0 < v.toNat ∧ (classesOf password).card < v.toNat := by
      intro accountName fullName
      rw [Validator.evaluate_notEnoughClasses_iff hmin hmax, hsetting]
      omega
    refine ⟨hexact, ?_, ?_⟩
    · intro v₁ ctx₁ _ hle h₁ validator₁ hvalidator₁ accountName fullName
        hallowed hreject
      have hfew := (h₁.of_rejected hvalidator₁ hreject).2
      have hle' : v₁.toNat ≤ v.toNat := UInt32.le_iff_toNat_le.mp hle
      have hrejected := (hexact accountName fullName).mpr (by omega)
      rw [hrejected] at hallowed
      cases hallowed
    · rw [h.setting hvalidator, dwordToInt_pos_iff hsmall, not_not]

def classesHost (v : UInt32) : Host :=
  { plainHost with
    registry := some fun name =>
      if name = "RequiredClasses" then
        some { type := regDwordType, data := leBytes 4 v.toNat }
      else none }

theorem classesHost_requires
    {v : UInt32} {ctx : FilterContext} (hloaded : ctx.LoadedBy (classesHost v)) :
    RequiresClasses ctx v :=
  ⟨classesHost v, _, rfl, rfl, hloaded⟩

theorem classesHost_lengths
    {v : UInt32} {ctx : FilterContext} (hloaded : ctx.LoadedBy (classesHost v)) :
    (ctx.makeValidator (classesHost v)).cfg.minLength = 12 ∧
      (ctx.makeValidator (classesHost v)).cfg.maxLength = 256 := by
  obtain ⟨terms, hcfg⟩ := hloaded.ready.cfg
  have hfield : (ctx.makeValidator (classesHost v)).cfg = ctx.cfg := rfl
  rw [hfield, hcfg]
  exact ⟨rfl, rfl⟩

theorem required_classes_enforced_three :
    ∃ ctx : FilterContext, ∃ validator ∈ ctx.validator,
      RequiresClasses ctx 3 ∧
        EnforcesClasses validator 3 (List.replicate 12 0x61) := by
  obtain ⟨ctx, hloaded⟩ := FilterContext.exists_loadedBy (classesHost 3)
  have hrequires := classesHost_requires hloaded
  have hvalidator := hloaded.ready.validator
  obtain ⟨hmin, hmax⟩ := classesHost_lengths hloaded
  refine ⟨ctx, _, hvalidator, hrequires, ?_⟩
  refine (required_classes_enforced_iff hrequires hvalidator ?_ ?_).mpr
    (by decide)
  · rw [hmin, List.length_replicate]
  · rw [hmax, List.length_replicate]
    norm_num

/-- `0x80000000` classes are asked for, and twelve times the letter `a` is not
rejected by the rule. -/
theorem sign_bit_turns_rule_off :
    ∃ ctx : FilterContext, ∃ validator ∈ ctx.validator,
      RequiresClasses ctx 0x80000000 ∧
        validator.cfg.minLength ≤ (List.replicate 12 (0x61 : UInt16)).length ∧
        (List.replicate 12 (0x61 : UInt16)).length ≤
          validator.cfg.maxLength ∧
        validator.evaluate (List.replicate 12 0x61) [] [] ≠
          .reject .notEnoughClasses ∧
        ¬ EnforcesClasses validator 0x80000000 (List.replicate 12 0x61) := by
  obtain ⟨ctx, hloaded⟩ := FilterContext.exists_loadedBy (classesHost 0x80000000)
  have hrequires := classesHost_requires hloaded
  have hvalidator := hloaded.ready.validator
  obtain ⟨hmin, hmax⟩ := classesHost_lengths hloaded
  have hpasses : (ctx.makeValidator (classesHost 0x80000000)).evaluate
      (List.replicate 12 0x61) [] [] ≠ .reject .notEnoughClasses := by
    intro hreject
    exact absurd (hrequires.of_rejected hvalidator hreject).1 (by decide)
  refine ⟨ctx, _, hvalidator, hrequires, ?_, ?_, hpasses, ?_⟩
  · rw [hmin, List.length_replicate]
  · rw [hmax, List.length_replicate]
    norm_num
  · intro henforces
    apply hpasses
    apply (henforces.exact [] []).mpr
    have hcard := classesOf_card_le (List.replicate 12 0x61)
    have hvalue : UInt32.toNat 0x80000000 = 2147483648 := rfl
    omega

end PwFilter
