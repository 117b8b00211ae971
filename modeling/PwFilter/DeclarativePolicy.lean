import PwFilter.Policy

/-!
# The declarative policy

What each rule forbids, said of the password as a whole: the classes that
occur in it, the windows, substrings and name tokens it contains, the entries
it equals.  A verdict is right when it names the first rule, in the documented
order, that the password violates.
-/

namespace PwFilter

open ConsecutiveRuns

/-! ## Keyboard windows -/

/-- The rows of a US keyboard, top to bottom. -/
def qwertyRows : List (List UInt16) :=
  ["1234567890", "qwertyuiop", "asdfghjkl", "zxcvbnm"].map fun row =>
    asciiUnits row.toList

theorem keyboardRows_eq : keyboardRows = qwertyRows := by decide

/-- All keys of the window are on one row, up to case, and every key is in a
column next to the one before. -/
def IsKeyboardWalk (window : List UInt16) : Prop :=
  ∃ row ∈ qwertyRows, ∃ columns : List ℕ,
    columns.map (fun col => row[col]?) = (lowered window).map some ∧
      columns.IsChain fun col col' => col' = col + 1 ∨ col = col' + 1

theorem findColumn_some
    {lc : UInt16} {row : List UInt16} {i col : ℕ}
    (hfind : findColumn lc row i = some col) :
    i ≤ col ∧ row[col - i]? = some lc := by
  induction row generalizing i with
  | nil => simp [findColumn] at hfind
  | cons key row ih =>
      by_cases hkey : key = lc
      · simp only [findColumn, hkey, if_true, Option.some.injEq] at hfind
        subst hfind
        simp [hkey]
      · simp only [findColumn, hkey, if_false] at hfind
        obtain ⟨hle, hget⟩ := ih hfind
        have hsub : col - i = (col - (i + 1)) + 1 := by omega
        rw [hsub, List.getElem?_cons_succ]
        exact ⟨by omega, hget⟩

theorem findRow_some
    {lc : UInt16} {rows : List (List UInt16)} {r row col : ℕ}
    (hfind : findRow lc rows r = some (row, col)) :
    r ≤ row ∧ ∃ keys, rows[row - r]? = some keys ∧ keys[col]? = some lc := by
  induction rows generalizing r with
  | nil => simp [findRow] at hfind
  | cons keys rows ih =>
      cases hcolumn : findColumn lc keys 0 with
      | some found =>
          simp only [findRow, hcolumn, Option.some.injEq,
            Prod.mk.injEq] at hfind
          obtain ⟨hrow, hcol⟩ := hfind
          subst hrow
          subst hcol
          have hget := (findColumn_some hcolumn).2
          exact ⟨le_rfl, keys, by simp, hget⟩
      | none =>
          simp only [findRow, hcolumn] at hfind
          obtain ⟨hle, hkeys⟩ := ih hfind
          have hsub : row - r = (row - (r + 1)) + 1 := by omega
          rw [hsub, List.getElem?_cons_succ]
          exact ⟨by omega, hkeys⟩

theorem findRow_of_key :
    ∀ r < 4, ∀ col < 10, (keyboardRows[r]?.bind (·[col]?)).all
      (fun c => findRow c keyboardRows 0 == some (r, col)) = true := by
  decide

theorem keyboardPos_eq_some_iff (c : UInt16) (r col : ℕ) :
    keyboardPos c = some (r, col) ↔
      ∃ row, keyboardRows[r]? = some row ∧
        row[col]? = some (foldCase c) := by
  rw [keyboardPos, toLowerAscii_eq]
  constructor
  · intro hpos
    exact (findRow_some hpos).2
  · intro h
    obtain ⟨row, hrow, hkey⟩ := h
    obtain ⟨hr, hget⟩ := List.getElem?_eq_some_iff.mp hrow
    obtain ⟨hcol, _⟩ := List.getElem?_eq_some_iff.mp hkey
    have hwide : ∀ row ∈ keyboardRows, row.length ≤ 10 := by decide
    have hlength := hwide row (List.mem_of_getElem? hrow)
    have hfound := findRow_of_key r hr col (by omega)
    rw [hrow, Option.bind_some, hkey, Option.all_some] at hfound
    exact beq_iff_eq.mp hfound

theorem columns_of_chain
    (rest : List UInt16) {a : UInt16} {r col : ℕ} {row : List UInt16}
    (hrow : keyboardRows[r]? = some row)
    (hpos : keyboardPos a = some (r, col))
    (hchain : (a :: rest).IsChain KeyStep) :
    ∃ columns : List ℕ,
      (col :: columns).map (fun col => row[col]?) =
          (lowered (a :: rest)).map some ∧
        (col :: columns).IsChain fun col col' =>
          col' = col + 1 ∨ col = col' + 1 := by
  have hkey : row[col]? = some (foldCase a) := by
    obtain ⟨row', hrow', hkey⟩ := (keyboardPos_eq_some_iff a r col).mp hpos
    rw [hrow] at hrow'
    cases hrow'
    exact hkey
  induction rest generalizing a col with
  | nil => exact ⟨[], by simp [lowered, hkey], by simp⟩
  | cons b rest ih =>
      obtain ⟨hstep, htail⟩ := List.isChain_cons_cons.mp hchain
      obtain ⟨r', col₁, col₂, ha, hb, hnext⟩ := hstep
      rw [hpos] at ha
      cases ha
      have hkey' : row[col₂]? = some (foldCase b) := by
        obtain ⟨row', hrow', hkey'⟩ := (keyboardPos_eq_some_iff b r col₂).mp hb
        rw [hrow] at hrow'
        cases hrow'
        exact hkey'
      obtain ⟨columns, hmap, hcolumns⟩ := ih hb htail hkey'
      refine ⟨col₂ :: columns, ?_, ?_⟩
      · rw [List.map_cons, hmap, hkey]
        rfl
      · exact List.isChain_cons_cons.mpr ⟨hnext, hcolumns⟩

theorem chain_of_columns
    {window : List UInt16} {columns : List ℕ} {r : ℕ} {row : List UInt16}
    (hrow : keyboardRows[r]? = some row)
    (hmap : columns.map (fun col => row[col]?) = (lowered window).map some)
    (hcolumns : columns.IsChain fun col col' =>
      col' = col + 1 ∨ col = col' + 1) :
    window.IsChain KeyStep := by
  induction window generalizing columns with
  | nil => exact List.isChain_nil
  | cons a window ih =>
      cases window with
      | nil => exact List.isChain_singleton a
      | cons b window =>
          match columns, hmap, hcolumns with
          | [], hmap, _ => simp [lowered] at hmap
          | [_], hmap, _ => simp [lowered] at hmap
          | col :: col' :: columns, hmap, hcolumns =>
              simp only [lowered, List.map_cons, List.cons.injEq] at hmap
              obtain ⟨ha, hb, hrest⟩ := hmap
              obtain ⟨hnext, htail⟩ := List.isChain_cons_cons.mp hcolumns
              refine List.isChain_cons_cons.mpr ⟨?_, ?_⟩
              · exact ⟨r, col, col',
                  (keyboardPos_eq_some_iff a r col).mpr ⟨row, hrow, ha⟩,
                  (keyboardPos_eq_some_iff b r col').mpr ⟨row, hrow, hb⟩,
                  hnext⟩
              · have hmap' : (col' :: columns).map (fun col => row[col]?) =
                    (lowered (b :: window)).map some := by
                  rw [List.map_cons, hb, hrest]
                  rfl
                exact ih hmap' htail

theorem isKeyboardWalk_iff
    {window : List UInt16} (hlength : 2 ≤ window.length) :
    IsKeyboardWalk window ↔ window.IsChain KeyStep := by
  rw [IsKeyboardWalk, ← keyboardRows_eq]
  constructor
  · intro h
    obtain ⟨row, hmem, columns, hmap, hcolumns⟩ := h
    obtain ⟨r, hr⟩ := List.mem_iff_getElem?.mp hmem
    exact chain_of_columns hr hmap hcolumns
  · intro hchain
    match window, hlength, hchain with
    | a :: b :: rest, _, hchain =>
        obtain ⟨hstep, _⟩ := List.isChain_cons_cons.mp hchain
        obtain ⟨r, col, col', ha, _, _⟩ := hstep
        obtain ⟨row, hrow, _⟩ := (keyboardPos_eq_some_iff a r col).mp ha
        obtain ⟨columns, hmap, hcolumns⟩ :=
          columns_of_chain (b :: rest) hrow ha hchain
        exact ⟨row, List.mem_of_getElem? hrow, col :: columns, hmap, hcolumns⟩

theorem hasRun_keyStep_iff
    {n : ℕ} (hn : 2 ≤ n) (s : List UInt16) :
    HasRun KeyStep n s ↔
      ∃ window, window <:+: s ∧ window.length = n ∧ IsKeyboardWalk window := by
  constructor
  · intro h
    obtain ⟨window, hwindow, hlength, hchain⟩ := h
    exact ⟨window, hwindow, hlength,
      (isKeyboardWalk_iff (by omega)).mpr hchain⟩
  · intro h
    obtain ⟨window, hwindow, hlength, hwalk⟩ := h
    exact ⟨window, hwindow, hlength, (isKeyboardWalk_iff (by omega)).mp hwalk⟩

/-! ## Rules and their order -/

structure BannedList where
  caseInsensitive : Bool
  entries : List (List UInt16)

def BannedList.Bans (banned : BannedList) (password : List UInt16) : Prop :=
  ∃ entry ∈ banned.entries, entry ≠ [] ∧
    if banned.caseInsensitive then lowered entry = lowered password
    else entry = password

structure Services where
  banned : Option BannedList
  breached : Option (List UInt16 → Bool)

def Violates (cfg : PolicyConfig) (services : Services)
    (password accountName fullName : List UInt16) : RuleId → Prop
  | .ok => False
  | .tooShort => password.length < cfg.minLength
  | .tooLong => cfg.maxLength < password.length
  | .notEnoughClasses =>
      0 < cfg.requiredClasses ∧
        ((classesOf password).card : ℤ) < cfg.requiredClasses
  | .repeatRun =>
      0 < cfg.maxRepeatRun ∧
        HasRun (fun a b => a = b) (cfg.maxRepeatRun + 1) password
  | .sequence =>
      cfg.rejectSequences = true ∧ 2 ≤ cfg.sequenceMinRun ∧
        (HasRun StepUp cfg.sequenceMinRun password ∨
          HasRun StepDown cfg.sequenceMinRun password)
  | .keyboardPattern =>
      cfg.rejectKeyboardPatterns = true ∧ 2 ≤ cfg.keyboardMinRun ∧
        ∃ window, window <:+: password ∧
          window.length = cfg.keyboardMinRun ∧ IsKeyboardWalk window
  | .containsAccountName =>
      cfg.rejectContainsAccount = true ∧ accountName ≠ [] ∧
        cfg.minIdentityToken ≤ accountName.length ∧
        lowered accountName <:+: lowered password
  | .containsFullName =>
      cfg.rejectContainsFullname = true ∧
        ∃ token, IsNameToken fullName token ∧
          cfg.minIdentityToken ≤ token.length ∧
          lowered token <:+: lowered password
  | .companyTerm =>
      ∃ term ∈ cfg.companyTerms, term ≠ [] ∧
        lowered term <:+: lowered password
  | .blacklisted => ∃ banned ∈ services.banned, banned.Bans password
  | .breached =>
      cfg.checkBreach = true ∧
        ∃ isBreached ∈ services.breached, isBreached password = true
  | .internalError => False

def evaluationOrder : List RuleId :=
  [.tooShort, .tooLong, .notEnoughClasses, .repeatRun, .sequence,
    .keyboardPattern, .containsAccountName, .containsFullName, .companyTerm,
    .blacklisted, .breached]

/-- `rule` is the first of `rules` for which `P` holds. -/
def FirstOf (P : RuleId → Prop) (rules : List RuleId) (rule : RuleId) : Prop :=
  ∃ before after, rules = before ++ rule :: after ∧ P rule ∧
    ∀ r ∈ before, ¬ P r

theorem firstOf_cons
    (P : RuleId → Prop) (r : RuleId) (rules : List RuleId) (rule : RuleId) :
    FirstOf P (r :: rules) rule ↔
      (P r ∧ rule = r) ∨ (¬ P r ∧ FirstOf P rules rule) := by
  constructor
  · intro h
    obtain ⟨before, after, hrules, hrule, hbefore⟩ := h
    cases before with
    | nil =>
        simp only [List.nil_append, List.cons.injEq] at hrules
        obtain ⟨rfl, _⟩ := hrules
        exact Or.inl ⟨hrule, rfl⟩
    | cons b before =>
        simp only [List.cons_append, List.cons.injEq] at hrules
        obtain ⟨rfl, hrest⟩ := hrules
        exact Or.inr ⟨hbefore r List.mem_cons_self, before, after, hrest,
          hrule, fun x hx => hbefore x (List.mem_cons_of_mem r hx)⟩
  · intro h
    rcases h with ⟨hr, rfl⟩ | ⟨hr, before, after, hrest, hrule, hbefore⟩
    · exact ⟨[], rules, rfl, hr, by simp⟩
    · refine ⟨r :: before, after, by rw [hrest]; rfl, hrule, ?_⟩
      intro x hx
      rcases List.mem_cons.mp hx with rfl | hmem
      · exact hr
      · exact hbefore x hmem

theorem verdict_map_eq_allow_iff
    (P : RuleId → Prop) [DecidablePred P] (rules : List RuleId) :
    Validator.verdict (rules.map fun r => (r, decide (P r))) = .allow ↔
      ∀ r ∈ rules, ¬ P r := by
  have hmem := Validator.verdict_allowed_iff
    (rules.map fun r => (r, decide (P r)))
  have hallow : ∀ checks : List (RuleId × Bool),
      Validator.verdict checks = .allow ↔
        (Validator.verdict checks).allowed = true := by
    intro checks
    induction checks with
    | nil => simp [Validator.verdict]
    | cons c checks ih =>
        cases hc : c.2 with
        | true =>
            simp [Validator.verdict, hc, ValidationResult.allow,
              ValidationResult.reject]
        | false => simpa [Validator.verdict, hc] using ih
  rw [hallow, hmem]
  simp

theorem verdict_map_eq_reject_iff
    (P : RuleId → Prop) [DecidablePred P] (rules : List RuleId)
    (rule : RuleId) :
    Validator.verdict (rules.map fun r => (r, decide (P r))) =
        .reject rule ↔ FirstOf P rules rule := by
  induction rules with
  | nil => simp [Validator.verdict, FirstOf, ValidationResult.allow,
      ValidationResult.reject]
  | cons r rules ih =>
      rw [firstOf_cons, ← ih]
      by_cases hr : P r
      · simp [Validator.verdict, hr, ValidationResult.reject, eq_comm]
      · simp [Validator.verdict, hr]

def Services.validator (services : Services) (cfg : PolicyConfig) : Validator :=
  { cfg := cfg
    blacklist := services.banned.map fun banned =>
      Blacklist.ofEntries banned.caseInsensitive banned.entries
    breach := services.breached }

theorem inBlacklist_iff
    (services : Services) (cfg : PolicyConfig) (password : List UInt16) :
    (services.validator cfg).inBlacklist password = true ↔
      ∃ banned ∈ services.banned, banned.Bans password := by
  cases hbanned : services.banned with
  | none => simp [Validator.inBlacklist, Services.validator, hbanned]
  | some banned =>
      simp only [Validator.inBlacklist, Services.validator, hbanned,
        Option.map_some, Option.mem_some_iff, exists_eq_left',
        Blacklist.contains_ofEntries_iff]
      rfl

theorem inBreachCorpus_iff
    (services : Services) (cfg : PolicyConfig) (password : List UInt16) :
    (services.validator cfg).inBreachCorpus password = true ↔
      ∃ isBreached ∈ services.breached, isBreached password = true := by
  cases hbreached : services.breached with
  | none => simp [Validator.inBreachCorpus, Services.validator, hbreached]
  | some isBreached =>
      simp [Validator.inBreachCorpus, Services.validator, hbreached]

theorem not_isNameToken_nil (token : List UInt16) : ¬ IsNameToken [] token := by
  intro h
  obtain ⟨hne, _, before, after, hname, _⟩ := h
  have hnil : token = [] := by
    have hlength := congrArg List.length hname
    simp only [List.length_nil, List.length_append] at hlength
    exact List.eq_nil_of_length_eq_zero (by omega)
  exact hne hnil

/-- The cascade runs through the rules in the documented order, and each of
its tests decides the rule it stands for. -/
theorem evaluate_eq_verdict_violates
    (cfg : PolicyConfig) (services : Services)
    (password accountName fullName : List UInt16)
    [DecidablePred (Violates cfg services password accountName fullName)] :
    (services.validator cfg).evaluate password accountName fullName =
      Validator.verdict (evaluationOrder.map fun r =>
        (r, decide (Violates cfg services password accountName fullName r))) := by
  have hshort : password.length < cfg.minLength ↔
      Violates cfg services password accountName fullName .tooShort := Iff.rfl
  have hlong : password.length > cfg.maxLength ↔
      Violates cfg services password accountName fullName .tooLong := Iff.rfl
  have hclasses : (cfg.requiredClasses > 0 ∧
      (countCharClasses password : ℤ) < cfg.requiredClasses) ↔
      Violates cfg services password accountName fullName
        .notEnoughClasses := by
    rw [countCharClasses_eq]
    rfl
  have hrepeat : (cfg.maxRepeatRun > 0 ∧
      hasExcessiveRepeat password cfg.maxRepeatRun = true) ↔
      Violates cfg services password accountName fullName .repeatRun := by
    by_cases hzero : 0 < cfg.maxRepeatRun
    · rw [hasExcessiveRepeat_iff hzero]
      rfl
    · simp [Violates, hzero]
  have hsequence : (cfg.rejectSequences = true ∧
      hasSequentialRun password cfg.sequenceMinRun = true) ↔
      Violates cfg services password accountName fullName .sequence := by
    rw [hasSequentialRun_iff]
    rfl
  have hkeyboard : (cfg.rejectKeyboardPatterns = true ∧
      hasKeyboardWalk password cfg.keyboardMinRun = true) ↔
      Violates cfg services password accountName fullName
        .keyboardPattern := by
    rw [hasKeyboardWalk_iff]
    refine and_congr_right fun _ => and_congr_right fun hmin => ?_
    exact hasRun_keyStep_iff hmin password
  have haccount : (cfg.rejectContainsAccount = true ∧
      (!accountName.isEmpty) = true ∧
      containsAccount password accountName cfg.minIdentityToken = true) ↔
      Violates cfg services password accountName fullName
        .containsAccountName := by
    cases accountName with
    | nil => simp [Violates]
    | cons c accountName => simp [Violates, containsAccount_iff]
  have hfull : (cfg.rejectContainsFullname = true ∧
      (!fullName.isEmpty) = true ∧
      containsFullNameToken password fullName cfg.minIdentityToken = true) ↔
      Violates cfg services password accountName fullName
        .containsFullName := by
    cases fullName with
    | nil => simp [Violates, not_isNameToken_nil]
    | cons c fullName => simp [Violates, containsFullNameToken_iff]
  have hterms : (cfg.companyTerms.any fun term =>
      !term.isEmpty && containsIgnoreCase password term) = true ↔
      Violates cfg services password accountName fullName .companyTerm := by
    rw [List.any_eq_true]
    refine exists_congr fun term => and_congr_right fun _ => ?_
    rw [Bool.and_eq_true, containsIgnoreCase_iff]
    cases term with
    | nil => simp
    | cons c term => simp
  have hblacklist : (services.validator cfg).inBlacklist password = true ↔
      Violates cfg services password accountName fullName .blacklisted :=
    inBlacklist_iff services cfg password
  have hbreach : (cfg.checkBreach = true ∧
      (services.validator cfg).inBreachCorpus password = true) ↔
      Violates cfg services password accountName fullName .breached :=
    and_congr_right fun _ => inBreachCorpus_iff services cfg password
  have hcfg : (services.validator cfg).cfg = cfg := rfl
  simp only [Validator.evaluate, hcfg, hshort, hlong, hclasses, hrepeat,
    hsequence, hkeyboard, haccount, hfull, hterms, hblacklist, hbreach,
    evaluationOrder, List.map_cons, List.map_nil, Validator.verdict,
    decide_eq_true_eq]

theorem evaluate_allowed_iff
    (cfg : PolicyConfig) (services : Services)
    (password accountName fullName : List UInt16) :
    ((services.validator cfg).evaluate password accountName fullName).allowed =
        true ↔
      ∀ rule ∈ evaluationOrder,
        ¬ Violates cfg services password accountName fullName rule := by
  classical
  rw [evaluate_eq_verdict_violates, Validator.verdict_allowed_iff]
  simp

/-- The cascade allows exactly what no rule forbids, and otherwise reports the
first rule violated. -/
theorem evaluate_refines_policy
    (cfg : PolicyConfig) (services : Services)
    (password accountName fullName : List UInt16) :
    ((services.validator cfg).evaluate password accountName fullName = .allow ↔
        ∀ rule ∈ evaluationOrder,
          ¬ Violates cfg services password accountName fullName rule) ∧
      ∀ rule,
        (services.validator cfg).evaluate password accountName fullName =
            .reject rule ↔
          FirstOf (Violates cfg services password accountName fullName)
            evaluationOrder rule := by
  classical
  rw [evaluate_eq_verdict_violates]
  constructor
  · exact verdict_map_eq_allow_iff _ evaluationOrder
  · intro rule
    exact verdict_map_eq_reject_iff _ evaluationOrder rule

end PwFilter
