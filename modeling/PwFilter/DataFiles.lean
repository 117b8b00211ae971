import PwFilter.ConfigEntries
import PwFilter.Policy

/-!
# The verdict of the data files

Loading a file makes a known number of allocations and leaves its decoded
lines, nothing when the file cannot be read.  For files in UTF-8 the lines are
the entries of their text, so the two list rules are statements about entries.
-/

namespace PwFilter

open Allocation LineEntries UnicodeText

/-! ## Loading the files -/

/-- What `ReadWholeFile` returns when its vector can be allocated. -/
def WinFile.data (file : WinFile) : Option (List UInt8) :=
  if file.opens ∧ file.sizeKnown ∧ file.content.length ≤ kMaxConfigFile ∧
      (file.content = [] ∨
        file.delivers file.content.length = some file.content.length) then
    some file.content
  else none

def WinFile.readSites (file : WinFile) : ℕ :=
  if file.opens ∧ file.sizeKnown ∧ file.content.length ≤ kMaxConfigFile ∧
    file.content ≠ [] then 1 else 0

theorem performs_readWholeFile (file : WinFile) :
    Performs (readWholeFile file) file.readSites file.data := by
  unfold readWholeFile WinFile.readSites WinFile.data
  cases hopens : file.opens with
  | false =>
      simp only [Bool.false_eq_true, false_and, if_false, Bool.not_false,
        if_true]
      exact performs_pure none
  | true =>
      cases hsize : file.sizeKnown with
      | false =>
          simp only [Bool.false_eq_true, false_and, and_false, if_false,
            Bool.not_false, Bool.not_true, true_or, if_true]
          exact performs_pure none
      | true =>
          by_cases hcap : file.content.length ≤ kMaxConfigFile
          · have hfits : ¬ file.content.length > kMaxConfigFile := by omega
            by_cases hempty : file.content = []
            · simp [hempty]
              exact performs_pure _
            · have hfull : file.content.isEmpty = false := by
                simpa using hempty
              simp only [hcap, hfits, hempty, hfull, Bool.not_true,
                Bool.false_eq_true, if_false, or_self, true_and, false_or,
                ne_eq, not_false_eq_true, and_self, if_true]
              refine performs_allocate.bind (m := 0) ?_
              split
              · exact performs_pure _
              · exact performs_pure _
          · have hlong : file.content.length > kMaxConfigFile := by omega
            simp only [hcap, hlong, Bool.not_true, Bool.false_eq_true,
              if_false, or_true, if_true, false_and, and_false]
            exact performs_pure none

section

variable {σ : Type}

theorem performs_forEachConfigLine
    {fn : σ → List UInt16 → Alloc σ} {cost : List UInt16 → ℕ}
    {pureFn : σ → List UInt16 → σ}
    (hfn : ∀ st line, Performs (fn st line) (cost line) (pureFn st line))
    (data : List UInt8) (st : σ) :
    Performs (forEachConfigLine data fn st)
      (((byteEntries data).map fun line => 1 + cost (utf8ToUtf16 line)).sum)
      (((byteEntries data).map utf8ToUtf16).foldl pureFn st) := by
  rw [forEachConfigLine_eq, List.foldl_map]
  exact performs_foldlM (entryStep fn) _ _
    (fun s line => performs_allocate.bind (hfn s (utf8ToUtf16 line)))
    (byteEntries data) st

end

def WinFile.lines (file : WinFile) : List (List UInt16) :=
  match file.data with
  | some data => (byteEntries data).map utf8ToUtf16
  | none => []

def WinFile.loadSites (cost : List UInt16 → ℕ) (file : WinFile) : ℕ :=
  file.readSites + (file.lines.map fun line => 1 + cost line).sum

def addCost (line : List UInt16) : ℕ := if line.isEmpty then 0 else 1

theorem performs_addLine (bl : Blacklist) (line : List UInt16) :
    Performs (addLine bl line) (addCost line) (bl.add line) := by
  unfold addLine addCost Blacklist.add
  cases line.isEmpty with
  | true => exact performs_pure bl
  | false => exact performs_allocate.bind (m := 0) (performs_pure _)

theorem performs_pushLine (terms : List (List UInt16)) (line : List UInt16) :
    Performs (pushLine terms line) 1 (terms ++ [line]) :=
  performs_allocate.bind (m := 0) (performs_pure _)

theorem performs_loadBlacklistFile (bl : Blacklist) (file : WinFile) :
    Performs (loadBlacklistFile bl file) (file.loadSites addCost)
      (bl.addAll file.lines) := by
  refine (performs_readWholeFile file).bind ?_
  unfold WinFile.lines
  cases file.data with
  | none => exact performs_pure bl
  | some data =>
      have hlines := performs_forEachConfigLine performs_addLine data bl
      rw [List.map_map]
      exact hlines

theorem foldl_push (terms lines : List (List UInt16)) :
    lines.foldl (fun terms line => terms ++ [line]) terms = terms ++ lines := by
  induction lines generalizing terms with
  | nil => simp
  | cons line lines ih => rw [List.foldl_cons, ih, List.append_assoc]; rfl

theorem performs_loadTermsFile (terms : List (List UInt16)) (file : WinFile) :
    Performs (loadTermsFile terms file) (file.loadSites fun _ => 1)
      (terms ++ file.lines) := by
  refine (performs_readWholeFile file).bind ?_
  unfold WinFile.lines
  cases file.data with
  | none =>
      rw [List.append_nil]
      exact performs_pure terms
  | some data =>
      have hlines := performs_forEachConfigLine performs_pushLine data terms
      rw [foldl_push] at hlines
      rw [List.map_map]
      exact hlines

theorem lines_of_utf8
    {file : WinFile} {text : List Char} (hdata : file.data = some (utf8 text)) :
    file.lines = (entries text).map utf16 := by
  rw [WinFile.lines, hdata]
  simp only [byteEntries_utf8, List.map_map]
  apply List.map_congr_left
  intro entry _
  exact utf8ToUtf16_utf8 entry

/-! ## The verdict of the two files -/

def ContainsTerm (terms : List Char) (password : List UInt16) : Prop :=
  ∃ entry ∈ entries terms, lowered (utf16 entry) <:+: lowered password

def IsBanned (caseInsensitive : Bool) (banned : List Char)
    (password : List UInt16) : Prop :=
  ∃ entry ∈ entries banned,
    if caseInsensitive then lowered (utf16 entry) = lowered password
    else utf16 entry = password

theorem utf16_ne_nil_of_mem_entries
    {text entry : List Char} (hentry : entry ∈ entries text) :
    utf16 entry ≠ [] := by
  have hne := LineFormat.ne_nil_of_mem_entries hentry
  cases entry with
  | nil => exact absurd rfl hne
  | cons c rest =>
      rw [utf16_cons]
      exact List.append_ne_nil_of_left_ne_nil (utf16EncodeChar_ne_nil c) _

theorem any_term_iff (terms : List Char) (password : List UInt16) :
    (((entries terms).map utf16).any fun term =>
      !term.isEmpty && containsIgnoreCase password term) = true ↔
      ContainsTerm terms password := by
  rw [List.any_map, List.any_eq_true]
  refine exists_congr fun entry => and_congr_right fun hentry => ?_
  have hne := utf16_ne_nil_of_mem_entries hentry
  have hfull : (utf16 entry).isEmpty = false := by simpa using hne
  simp only [Function.comp, hfull, Bool.not_false, Bool.true_and,
    containsIgnoreCase_iff, ne_eq, hne, not_false_eq_true, true_and]

theorem contains_entries_iff
    (ci : Bool) (banned : List Char) (password : List UInt16) :
    (Blacklist.ofEntries ci ((entries banned).map utf16)).contains password =
        true ↔ IsBanned ci banned password := by
  rw [Blacklist.contains_ofEntries_iff]
  constructor
  · intro h
    obtain ⟨entry, hmem, _, hsame⟩ := h
    obtain ⟨e, he, rfl⟩ := List.mem_map.mp hmem
    exact ⟨e, he, hsame⟩
  · intro h
    obtain ⟨e, he, hsame⟩ := h
    exact ⟨utf16 e, List.mem_map_of_mem he, utf16_ne_nil_of_mem_entries he,
      hsame⟩

/-- After both files are loaded, a password that passes the earlier rules is
rejected for a company term or as blacklisted exactly as their entries say. -/
theorem data_files_decide
    (bannedFile termsFile : WinFile) {bannedBytes termsBytes : List UInt8}
    (hbanned : WellFormed bannedBytes) (hterms : WellFormed termsBytes)
    (hreadBanned : bannedFile.data = some bannedBytes)
    (hreadTerms : termsFile.data = some termsBytes)
    (fails : ℕ → Bool) {c c₁ c₂ : ℕ} (ci : Bool) {blacklist : Blacklist}
    {terms : List (List UInt16)}
    (hloadBanned : loadBlacklistFile (Blacklist.new ci) bannedFile fails c =
      (.done blacklist, c₁))
    (hloadTerms : loadTermsFile [] termsFile fails c₁ = (.done terms, c₂))
    (v : Validator) (hcfg : v.cfg.companyTerms = terms)
    (hblacklist : v.blacklist = some blacklist)
    (password accountName fullName : List UInt16)
    (hpasses : ∀ test ∈ v.localChecks password accountName fullName,
      test.2 = false) :
    ∃ bannedText termsText, utf8 bannedText = bannedBytes ∧
      utf8 termsText = termsBytes ∧
      (v.evaluate password accountName fullName = .reject .companyTerm ↔
        ContainsTerm termsText password) ∧
      (v.evaluate password accountName fullName = .reject .blacklisted ↔
        ¬ ContainsTerm termsText password ∧
          IsBanned ci bannedText password) := by
  obtain ⟨bannedText, rfl⟩ := hbanned.exists_text
  obtain ⟨termsText, rfl⟩ := hterms.exists_text
  refine ⟨bannedText, termsText, rfl, rfl, ?_⟩
  have hlist := (performs_loadBlacklistFile _ bannedFile).eq_of_done hloadBanned
  have hlines := (performs_loadTermsFile [] termsFile).eq_of_done hloadTerms
  rw [lines_of_utf8 hreadBanned] at hlist
  rw [lines_of_utf8 hreadTerms, List.nil_append] at hlines
  have hterm := any_term_iff termsText password
  have hban := contains_entries_iff ci bannedText password
  rw [← hlines, ← hcfg] at hterm
  have hinList : v.inBlacklist password = true ↔
      IsBanned ci bannedText password := by
    rw [← hban, Validator.inBlacklist, hblacklist, hlist]
    rfl
  rw [Validator.evaluate_eq_verdict, Validator.checks, List.append_assoc,
    Validator.verdict_append_of_none hpasses, Validator.verdict_map_append,
    ← hterm, ← hinList]
  by_cases hany : (v.cfg.companyTerms.any fun term =>
      !term.isEmpty && containsIgnoreCase password term) = true
  · rw [if_pos hany]
    simp [hany, ValidationResult.reject]
  · rw [if_neg hany]
    by_cases hin : v.inBlacklist password = true
    · simp [hany, hin, Validator.verdict, ValidationResult.reject]
    · cases v.cfg.checkBreach && v.inBreachCorpus password with
      | true =>
          simp [hany, hin, Validator.verdict, ValidationResult.reject]
      | false =>
          simp [hany, hin, Validator.verdict, ValidationResult.reject,
            ValidationResult.allow]

def plainFile (content : List UInt8) : WinFile where
  content := content
  opens := true
  sizeKnown := true
  delivers := some
  maps := true
  views := true

/-- `"\tAcme \r\n#x"` as a terms file and `"q\n"` as a blacklist. -/
theorem data_files_decide_sample :
    ∃ bannedText termsText, utf8 bannedText = [0x71, 0x0A] ∧
      utf8 termsText = [0x09, 0x41, 0x63, 0x6D, 0x65, 0x20, 0x0D, 0x0A, 0x23,
        0x78] ∧
      (Validator.evaluate
          { cfg :=
              { companyTerms := [asciiUnits ['A', 'c', 'm', 'e']] }
            blacklist := some ((Blacklist.new true).add (asciiUnits ['q']))
            breach := none }
          (asciiUnits ['X', 'k', '7', '-', 'a', 'C', 'M', 'e', '-', 'Q', 'z',
            '2']) [] [] = .reject .companyTerm ↔
        ContainsTerm termsText (asciiUnits ['X', 'k', '7', '-', 'a', 'C', 'M',
          'e', '-', 'Q', 'z', '2'])) := by
  have hbanned : WellFormed [0x71, 0x0A] :=
    .cons (.one (a := 0x71) (by decide))
      (.cons (.one (a := 0x0A) (by decide)) .nil)
  have hterms : WellFormed [0x09, 0x41, 0x63, 0x6D, 0x65, 0x20, 0x0D, 0x0A,
      0x23, 0x78] :=
    .cons (.one (a := 0x09) (by decide)) <|
    .cons (.one (a := 0x41) (by decide)) <|
    .cons (.one (a := 0x63) (by decide)) <|
    .cons (.one (a := 0x6D) (by decide)) <|
    .cons (.one (a := 0x65) (by decide)) <|
    .cons (.one (a := 0x20) (by decide)) <|
    .cons (.one (a := 0x0D) (by decide)) <|
    .cons (.one (a := 0x0A) (by decide)) <|
    .cons (.one (a := 0x23) (by decide)) <|
    .cons (.one (a := 0x78) (by decide)) .nil
  obtain ⟨bannedText, termsText, hbannedText, htermsText, hterm, _⟩ :=
    data_files_decide (plainFile [0x71, 0x0A])
      (plainFile [0x09, 0x41, 0x63, 0x6D, 0x65, 0x20, 0x0D, 0x0A, 0x23, 0x78])
      hbanned hterms rfl rfl (c := 0) (fun _ => false) true
      ((performs_loadBlacklistFile _ _).done _ _ fun _ _ => rfl)
      ((performs_loadTermsFile _ _).done _ _ fun _ _ => rfl)
      { cfg := { companyTerms := [asciiUnits ['A', 'c', 'm', 'e']] }
        blacklist := some ((Blacklist.new true).add (asciiUnits ['q']))
        breach := none }
      (by decide) rfl
      (asciiUnits ['X', 'k', '7', '-', 'a', 'C', 'M', 'e', '-', 'Q', 'z', '2'])
      [] [] (by decide)
  exact ⟨bannedText, termsText, hbannedText, htermsText, hterm⟩

end PwFilter
