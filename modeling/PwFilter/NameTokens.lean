import PwFilter.Complexity

/-!
# Tokens of a display name

`SplitNameTokens` and `ContainsFullNameToken` scan a name with the same state
(where the current token starts, and whether there is one) and one extra round
at the end of the name that acts as a separator.  Both are compared with the
maximal separator-free parts of the name.
-/

namespace PwFilter

/-- The `is_sep` of `SplitNameTokens`. -/
def splitNameTokens.isSep (c : UInt16) : Bool :=
  c == 0x20 || c == 0x09 || c == 0x0A || c == 0x0D || c == 0x2C ||
    c == 0x2E || c == 0x2D || c == 0x5F || c == 0x3B || c == 0x27 ||
    c == 0x5C || c == 0x2F || c == 0x40

def splitLoop (fullName : List UInt16) (minLen : ℕ) :
    ℕ → ℕ → ℕ → Bool → List (List UInt16)
  | 0, _, _, _ => []
  | left + 1, i, start, inTok =>
      let sep := i == fullName.length ||
        splitNameTokens.isSep (fullName.getD i 0)
      if !sep && !inTok then splitLoop fullName minLen left (i + 1) i true
      else if sep && inTok then
        let len := i - start
        if len ≥ minLen then
          (fullName.drop start).take len ::
            splitLoop fullName minLen left (i + 1) start false
        else splitLoop fullName minLen left (i + 1) start false
      else splitLoop fullName minLen left (i + 1) start inTok

def splitNameTokens (fullName : List UInt16) (minLen : ℕ) :
    List (List UInt16) :=
  splitLoop fullName minLen (fullName.length + 1) 0 0 false

/-- The `is_sep` of `ContainsFullNameToken`. -/
def containsFullNameToken.isSep (c : UInt16) : Bool :=
  c == 0x20 || c == 0x09 || c == 0x0A || c == 0x0D || c == 0x2C ||
    c == 0x2E || c == 0x2D || c == 0x5F || c == 0x3B || c == 0x27 ||
    c == 0x5C || c == 0x2F || c == 0x40

/-- The loop of `ContainsFullNameToken`, which stops at the first token that
the password contains. -/
def fullNameLoop (password fullName : List UInt16) (minTokenLen : ℕ) :
    ℕ → ℕ → ℕ → Bool → Bool
  | 0, _, _, _ => false
  | left + 1, i, start, inTok =>
      let sep := i == fullName.length ||
        containsFullNameToken.isSep (fullName.getD i 0)
      if !sep && !inTok then
        fullNameLoop password fullName minTokenLen left (i + 1) i true
      else if sep && inTok then
        let len := i - start
        if len ≥ minTokenLen ∧
            containsIgnoreCase password ((fullName.drop start).take len) then
          true
        else fullNameLoop password fullName minTokenLen left (i + 1) start false
      else fullNameLoop password fullName minTokenLen left (i + 1) start inTok

def containsFullNameToken
    (password fullName : List UInt16) (minTokenLen : ℕ) : Bool :=
  fullNameLoop password fullName minTokenLen (fullName.length + 1) 0 0 false

/-! ## Maximal separator-free parts -/

/-- What separates the tokens of a display name. -/
def nameSeparators : List UInt16 :=
  asciiUnits " \t\n\r,.-_;'\\/@".toList

def separates (c : UInt16) : Bool := decide (c ∈ nameSeparators)

theorem nameSeparators_eq : nameSeparators =
    [0x20, 0x09, 0x0A, 0x0D, 0x2C, 0x2E, 0x2D, 0x5F, 0x3B, 0x27, 0x5C, 0x2F,
      0x40] := by
  decide

theorem splitNameTokens.isSep_eq (c : UInt16) :
    splitNameTokens.isSep c = separates c := by
  rw [Bool.eq_iff_iff]
  simp [splitNameTokens.isSep, separates, nameSeparators_eq, or_assoc]

/-- The two scanners separate at the same units. -/
theorem containsFullNameToken.isSep_eq (c : UInt16) :
    containsFullNameToken.isSep c = splitNameTokens.isSep c := rfl

/-- `token` is a maximal separator-free part of `name`: what stands before and
after it, if anything does, is a separator. -/
def IsNameToken (name token : List UInt16) : Prop :=
  token ≠ [] ∧ (∀ c ∈ token, separates c = false) ∧
    ∃ before after, name = before ++ token ++ after ∧
      (∀ c ∈ before.getLast?, separates c = true) ∧
      (∀ c ∈ after.head?, separates c = true)

def tokensFrom : List UInt16 → List UInt16 → List (List UInt16)
  | current, [] => if current = [] then [] else [current]
  | current, c :: rest =>
      if separates c then
        if current = [] then tokensFrom [] rest
        else current :: tokensFrom [] rest
      else tokensFrom (current ++ [c]) rest

theorem eq_nil_of_getLast_sep
    {current before : List UInt16} (hfree : ∀ c ∈ current, separates c = false)
    (hlast : ∀ c ∈ before.getLast?, separates c = true)
    (hsub : ∀ c ∈ before, c ∈ current) : before = [] := by
  cases before using List.reverseRecOn with
  | nil => rfl
  | append_singleton before c _ =>
      have hsep := hlast c (by simp)
      rw [hfree c (hsub c (by simp))] at hsep
      cases hsep

theorem eq_nil_of_head_sep
    {current after : List UInt16} (hfree : ∀ c ∈ current, separates c = false)
    (hhead : ∀ c ∈ after.head?, separates c = true)
    (hsub : ∀ c ∈ after, c ∈ current) : after = [] := by
  cases after with
  | nil => rfl
  | cons c after =>
      have hsep := hhead c rfl
      rw [hfree c (hsub c List.mem_cons_self)] at hsep
      cases hsep

theorem isNameToken_of_sepFree
    {current token : List UInt16} (hfree : ∀ c ∈ current, separates c = false) :
    IsNameToken current token ↔ token = current ∧ current ≠ [] := by
  constructor
  · rintro ⟨hne, _, before, after, hname, hbefore, hafter⟩
    have hnil : before = [] :=
      eq_nil_of_getLast_sep hfree hbefore
        (fun c hc => by rw [hname]; simp [hc])
    have hnil' : after = [] :=
      eq_nil_of_head_sep hfree hafter (fun c hc => by rw [hname]; simp [hc])
    subst hnil hnil'
    have heq : token = current := by simpa using hname.symm
    exact ⟨heq, heq ▸ hne⟩
  · rintro ⟨rfl, hne⟩
    exact ⟨hne, hfree, [], [], by simp, by simp, by simp⟩

/-- A part in which `c` does not occur stands before `c` or after it. -/
theorem part_beside
    {α : Type*} {c : α} {left right before token after : List α}
    (hne : token ≠ []) (hc : c ∉ token)
    (hsplit : left ++ c :: right = before ++ (token ++ after)) :
    (∃ before', before = left ++ c :: before' ∧
        right = before' ++ (token ++ after)) ∨
      ∃ after', left = before ++ (token ++ after') ∧
        after = after' ++ c :: right := by
  rcases List.append_eq_append_iff.mp hsplit with
    ⟨extra, hbefore, hright⟩ | ⟨extra, hleft, hrest⟩
  · cases extra with
    | nil =>
        rw [List.nil_append] at hright
        rcases List.cons_eq_append_iff.mp hright with ⟨hnil, _⟩ | ⟨more, hmore, _⟩
        · exact absurd hnil hne
        · rw [hmore] at hc
          exact absurd List.mem_cons_self hc
    | cons d extra =>
        rw [List.cons_append, List.cons.injEq] at hright
        obtain ⟨rfl, hright⟩ := hright
        exact Or.inl ⟨extra, hbefore, hright⟩
  · rcases List.append_eq_append_iff.mp hrest with
      ⟨more, hextra, hafter⟩ | ⟨more, htoken, hright⟩
    · exact Or.inr ⟨more, by rw [hleft, hextra], hafter⟩
    · cases more with
      | nil =>
          rw [List.append_nil] at htoken
          exact Or.inr ⟨[], by rw [hleft, htoken, List.append_nil],
            hright.symm⟩
      | cons d more =>
          rw [List.cons_append, List.cons.injEq] at hright
          rw [htoken, hright.1] at hc
          exact absurd (List.mem_append_right _ List.mem_cons_self) hc

theorem isNameToken_append_sep
    {current rest token : List UInt16} {c : UInt16}
    (hfree : ∀ c ∈ current, separates c = false) (hsep : separates c = true) :
    IsNameToken (current ++ c :: rest) token ↔
      (token = current ∧ current ≠ []) ∨ IsNameToken rest token := by
  constructor
  · rintro ⟨hne, htoken, before, after, hname, hbefore, hafter⟩
    have hc : c ∉ token := by
      intro hmem
      rw [htoken c hmem] at hsep
      cases hsep
    rw [List.append_assoc] at hname
    rcases part_beside hne hc hname with
      ⟨before', rfl, hrest⟩ | ⟨after', hcurrent, rfl⟩
    · right
      refine ⟨hne, htoken, before', after, ?_, ?_, hafter⟩
      · rw [hrest, List.append_assoc]
      · intro d hd
        apply hbefore d
        have hlast : before'.getLast? = some d := hd
        simp [List.getLast?_append, List.getLast?_cons, hlast]
    · -- nothing in `current` separates, so the token is all of it
      left
      rw [← isNameToken_of_sepFree hfree]
      refine ⟨hne, htoken, before, after', ?_, hbefore, ?_⟩
      · rw [hcurrent, List.append_assoc]
      · intro d hd
        apply hafter d
        have hhead : after'.head? = some d := hd
        simp [List.head?_append, hhead]
  · rintro (⟨rfl, hne⟩ | ⟨hne, htoken, before, after, hname, hbefore, hafter⟩)
    · exact ⟨hne, hfree, [], c :: rest, by simp, by simp, by simpa using hsep⟩
    · refine ⟨hne, htoken, current ++ c :: before, after, by simp [hname], ?_,
        hafter⟩
      intro d hd
      cases before using List.reverseRecOn with
      | nil =>
          have hcd : c = d := by simpa using hd
          rw [← hcd]
          exact hsep
      | append_singleton before e _ =>
          apply hbefore d
          simpa [List.getLast?_append, List.getLast?_cons] using hd

theorem mem_tokensFrom
    (current rest token : List UInt16)
    (hfree : ∀ c ∈ current, separates c = false) :
    token ∈ tokensFrom current rest ↔ IsNameToken (current ++ rest) token := by
  induction rest generalizing current with
  | nil =>
      rw [List.append_nil, isNameToken_of_sepFree hfree]
      by_cases hnil : current = []
      · simp [tokensFrom, hnil]
      · simp [tokensFrom, hnil]
  | cons c rest ih =>
      cases hsep : separates c with
      | true =>
          rw [isNameToken_append_sep hfree hsep]
          have hrest := ih [] (by simp)
          rw [List.nil_append] at hrest
          rw [← hrest]
          by_cases hnil : current = []
          · simp [tokensFrom, hsep, hnil]
          · simp [tokensFrom, hsep, hnil]
      | false =>
          have hfree' : ∀ d ∈ current ++ [c], separates d = false := by
            intro d hd
            rcases List.mem_append.mp hd with hold | hnew
            · exact hfree d hold
            · rw [List.mem_singleton.mp hnew]
              exact hsep
          have hnext := ih (current ++ [c]) hfree'
          rw [List.append_assoc, List.singleton_append] at hnext
          rw [← hnext]
          simp [tokensFrom, hsep]

/-! ## The scanners walk the tokens -/

def currentToken (fullName : List UInt16) (i start : ℕ) (inTok : Bool) :
    List UInt16 :=
  if inTok then (fullName.drop start).take (i - start) else []

theorem currentToken_succ
    (fullName : List UInt16) {i start : ℕ} (hi : i < fullName.length)
    (hstart : start ≤ i) :
    currentToken fullName (i + 1) start true =
      currentToken fullName i start true ++ [fullName.getD i 0] := by
  have hsub : i + 1 - start = (i - start) + 1 := by omega
  have hindex : start + (i - start) = i := by omega
  have hget : (fullName.drop start)[i - start]? = some (fullName.getD i 0) := by
    rw [List.getElem?_drop, hindex, List.getD_eq_getElem?_getD,
      List.getElem?_eq_getElem hi]
    rfl
  simp only [currentToken, if_true, hsub]
  rw [List.take_add_one, hget]
  rfl

theorem drop_eq_getD_cons {s : List UInt16} {i : ℕ} (hi : i < s.length) :
    s.drop i = s.getD i 0 :: s.drop (i + 1) := by
  rw [List.drop_eq_getElem_cons hi, List.getD_eq_getElem?_getD,
    List.getElem?_eq_getElem hi]
  rfl

theorem currentToken_ne_nil
    (fullName : List UInt16) {i start : ℕ} (hi : i ≤ fullName.length)
    (hstart : start < i) : currentToken fullName i start true ≠ [] := by
  intro hnil
  have hlength := congrArg List.length hnil
  simp only [currentToken, if_true, List.length_take, List.length_drop,
    List.length_nil] at hlength
  omega

theorem currentToken_length
    (fullName : List UInt16) {i : ℕ} (start : ℕ) (hi : i ≤ fullName.length) :
    (currentToken fullName i start true).length = i - start := by
  simp only [currentToken, if_true, List.length_take, List.length_drop]
  omega

theorem splitLoop_eq
    (fullName : List UInt16) (minLen : ℕ) (left i start : ℕ) (inTok : Bool)
    (hleft : i + left = fullName.length) (hstart : inTok = true → start < i) :
    splitLoop fullName minLen (left + 1) i start inTok =
      (tokensFrom (currentToken fullName i start inTok)
        (fullName.drop i)).filter fun t => decide (minLen ≤ t.length) := by
  induction left generalizing i start inTok with
  | zero =>
      -- the extra round at the end of the name
      have hi : i = fullName.length := by omega
      have hsep : (i == fullName.length ||
          separates (fullName.getD i 0)) = true := by
        simp [hi]
      rw [List.drop_of_length_le (by omega)]
      cases inTok with
      | false => simp [splitLoop, hi, tokensFrom, currentToken]
      | true =>
          have hne := currentToken_ne_nil fullName
            (by omega) (hstart rfl)
          have hlength := currentToken_length fullName start (i := i) (by omega)
          have hslice : (fullName.drop start).take (i - start) =
              currentToken fullName i start true := rfl
          simp only [splitLoop, splitNameTokens.isSep_eq, hsep, hslice,
            tokensFrom, hne, if_false]
          by_cases hlong : minLen ≤ i - start
          · simp [hlong, hlength]
          · simp [hlong, hlength]
  | succ left ih =>
      have hi : i < fullName.length := by omega
      have hnot : (i == fullName.length) = false := by
        simp only [beq_eq_false_iff_ne, ne_eq]
        omega
      have hround := drop_eq_getD_cons hi
      have hgrow := fun start (hstart : start ≤ i) =>
        currentToken_succ fullName hi hstart
      rw [splitLoop, splitNameTokens.isSep_eq, hnot, hround]
      generalize fullName.getD i 0 = c at hgrow ⊢
      cases hsep : separates c with
      | true =>
          have hnext := ih (i + 1) start false (by omega) (by simp)
          cases inTok with
          | false => simpa [tokensFrom, hsep, currentToken] using hnext
          | true =>
              have hne := currentToken_ne_nil fullName
                (by omega) (hstart rfl)
              have hlength := currentToken_length fullName start (i := i) (by omega)
              have hslice : (fullName.drop start).take (i - start) =
                  currentToken fullName i start true := rfl
              have hempty : currentToken fullName (i + 1) start false = [] := rfl
              rw [hempty] at hnext
              by_cases hlong : minLen ≤ i - start
              · simp [tokensFrom, hsep, hne, hlong, hlength, hnext, hslice]
              · simp [tokensFrom, hsep, hne, hlong, hlength, hnext]
      | false =>
          cases inTok with
          | false =>
              have hnext := ih (i + 1) i true (by omega) (by simp)
              have hone : currentToken fullName (i + 1) i true = [c] := by
                rw [hgrow i (by omega)]
                simp [currentToken]
              rw [hone] at hnext
              simpa [tokensFrom, hsep, currentToken] using hnext
          | true =>
              have hlt := hstart rfl
              have hnext := ih (i + 1) start true (by omega) (by omega)
              rw [hgrow start (by omega)] at hnext
              simpa [tokensFrom, hsep] using hnext

theorem fullNameLoop_eq
    (password fullName : List UInt16) (minTokenLen left i start : ℕ)
    (inTok : Bool) :
    fullNameLoop password fullName minTokenLen left i start inTok =
      (splitLoop fullName minTokenLen left i start inTok).any
        (containsIgnoreCase password) := by
  induction left generalizing i start inTok with
  | zero => rfl
  | succ left ih =>
      rw [fullNameLoop, splitLoop, containsFullNameToken.isSep_eq]
      simp only [ih]
      split
      · rfl
      · split
        · by_cases hlong : i - start ≥ minTokenLen
          · by_cases hin : containsIgnoreCase password
                ((fullName.drop start).take (i - start)) = true
            · simp [hlong, hin]
            · simp [hlong, hin]
          · simp [hlong]
        · rfl

/-- `SplitNameTokens` returns the maximal separator-free parts of the name
that are long enough. -/
theorem mem_splitNameTokens (fullName token : List UInt16) (minLen : ℕ) :
    token ∈ splitNameTokens fullName minLen ↔
      IsNameToken fullName token ∧ minLen ≤ token.length := by
  have hrun := splitLoop_eq fullName minLen fullName.length 0 0 false
    (by omega) (by simp)
  have htokens := mem_tokensFrom [] fullName token (by simp)
  rw [List.nil_append] at htokens
  rw [splitNameTokens, hrun, ← htokens]
  simp [currentToken]

theorem containsFullNameToken_iff
    (password fullName : List UInt16) (minTokenLen : ℕ) :
    containsFullNameToken password fullName minTokenLen = true ↔
      ∃ token, IsNameToken fullName token ∧ minTokenLen ≤ token.length ∧
        lowered token <:+: lowered password := by
  have hany : containsFullNameToken password fullName minTokenLen =
      (splitNameTokens fullName minTokenLen).any
        (containsIgnoreCase password) :=
    fullNameLoop_eq password fullName minTokenLen _ 0 0 false
  rw [hany, List.any_eq_true]
  constructor
  · rintro ⟨token, hmem, hin⟩
    obtain ⟨htoken, hlength⟩ := (mem_splitNameTokens _ _ _).mp hmem
    exact ⟨token, htoken, hlength, ((containsIgnoreCase_iff _ _).mp hin).2⟩
  · rintro ⟨token, htoken, hlength, hin⟩
    exact ⟨token, (mem_splitNameTokens _ _ _).mpr ⟨htoken, hlength⟩,
      (containsIgnoreCase_iff _ _).mpr ⟨htoken.1, hin⟩⟩

end PwFilter
