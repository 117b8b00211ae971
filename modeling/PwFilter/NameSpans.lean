import PwFilter.NameTokens

/-!
# Where the tokens of a name stand

The scanner reports a token by its first index and its length.  Its reports are
exactly the maximal separator-free spans of the name, from left to right, so
equal tokens at different places are all kept and none is reported twice.
-/

namespace PwFilter

/-- `len` characters from `i` on are a maximal separator-free part of `name`. -/
structure IsNameSpan (name : List UInt16) (i len : ℕ) : Prop where
  pos : 0 < len
  inside : i + len ≤ name.length
  free : ∀ k, i ≤ k → k < i + len → separates (name.getD k 0) = false
  before : i = 0 ∨ separates (name.getD (i - 1) 0) = true
  after : i + len = name.length ∨ separates (name.getD (i + len) 0) = true

/-- The rounds of `splitLoop`, with `start` and `len` of each token. -/
def spanLoop (fullName : List UInt16) (minLen : ℕ) :
    ℕ → ℕ → ℕ → Bool → List (ℕ × ℕ)
  | 0, _, _, _ => []
  | left + 1, i, start, inTok =>
      let sep := i == fullName.length || separates (fullName.getD i 0)
      if !sep && !inTok then spanLoop fullName minLen left (i + 1) i true
      else if sep && inTok then
        let len := i - start
        if len ≥ minLen then
          (start, len) :: spanLoop fullName minLen left (i + 1) start false
        else spanLoop fullName minLen left (i + 1) start false
      else spanLoop fullName minLen left (i + 1) start inTok

def nameSpans (fullName : List UInt16) (minLen : ℕ) : List (ℕ × ℕ) :=
  spanLoop fullName minLen (fullName.length + 1) 0 0 false

def spanText (name : List UInt16) (span : ℕ × ℕ) : List UInt16 :=
  (name.drop span.1).take span.2

theorem splitLoop_eq_map_spanText
    (fullName : List UInt16) (minLen left i start : ℕ) (inTok : Bool) :
    splitLoop fullName minLen left i start inTok =
      (spanLoop fullName minLen left i start inTok).map
        (spanText fullName) := by
  induction left generalizing i start inTok with
  | zero => rfl
  | succ left ih =>
      rw [splitLoop, spanLoop, splitNameTokens.isSep_eq]
      simp only [ih]
      split
      · rfl
      · split
        · split
          · rfl
          · rfl
        · rfl

theorem splitNameTokens_eq_map_spanText
    (fullName : List UInt16) (minLen : ℕ) :
    splitNameTokens fullName minLen =
      (nameSpans fullName minLen).map (spanText fullName) :=
  splitLoop_eq_map_spanText fullName minLen _ 0 0 false

/-! ## The scan -/

/-- What the scanner knows before round `i`: the token it is in reaches back to
a separator or to the beginning, and outside a token the last character was
one. -/
structure ScanState
    (name : List UInt16) (i start : ℕ) (inTok : Bool) : Prop where
  inToken : inTok = true → start < i ∧
    (∀ k, start ≤ k → k < i → separates (name.getD k 0) = false) ∧
    (start = 0 ∨ separates (name.getD (start - 1) 0) = true)
  outside : inTok = false → i = 0 ∨ separates (name.getD (i - 1) 0) = true

/-- The first index at which a token that is still to be reported begins. -/
def scanFrom (i start : ℕ) (inTok : Bool) : ℕ :=
  if inTok then start else i

theorem ScanState.start (name : List UInt16) : ScanState name 0 0 false :=
  ⟨by simp, fun _ => Or.inl rfl⟩

theorem ScanState.enter
    {name : List UInt16} {i start : ℕ} (h : ScanState name i start false)
    (hsep : separates (name.getD i 0) = false) : ScanState name (i + 1) i true := by
  refine ⟨fun _ => ⟨by omega, ?_, h.outside rfl⟩, by simp⟩
  intro k hk hk'
  have heq : k = i := by omega
  rw [heq]
  exact hsep

theorem ScanState.stay
    {name : List UInt16} {i start : ℕ} (h : ScanState name i start true)
    (hsep : separates (name.getD i 0) = false) :
    ScanState name (i + 1) start true := by
  obtain ⟨hlt, hfree, hbefore⟩ := h.inToken rfl
  refine ⟨fun _ => ⟨by omega, ?_, hbefore⟩, by simp⟩
  intro k hk hk'
  rcases Nat.lt_succ_iff_lt_or_eq.mp hk' with hold | rfl
  · exact hfree k hk hold
  · exact hsep

theorem ScanState.leave
    {name : List UInt16} {i start : ℕ} (hsep : separates (name.getD i 0) = true) :
    ScanState name (i + 1) start false :=
  ⟨by simp, fun _ => Or.inr (by simpa using hsep)⟩

/-- A span does not begin at a separator, nor at the end of the name. -/
theorem IsNameSpan.succ_le_iff
    {name : List UInt16} {a len i : ℕ} (h : IsNameSpan name a len)
    (hsep : i = name.length ∨ separates (name.getD i 0) = true) :
    i + 1 ≤ a ↔ i ≤ a := by
  constructor
  · intro hle
    omega
  · intro hle
    have hne : i ≠ a := by
      rintro rfl
      have hpos := h.pos
      rcases hsep with hend | hsep
      · have hinside := h.inside
        omega
      · rw [h.free i (le_refl i) (by omega)] at hsep
        cases hsep
    omega

/-- At the end of a token, that token is the only span left up to here. -/
theorem ScanState.eq_of_le
    {name : List UInt16} {i start a len : ℕ} (h : ScanState name i start true)
    (hi : i ≤ name.length)
    (hsep : i = name.length ∨ separates (name.getD i 0) = true)
    (hspan : IsNameSpan name a len) (hstart : start ≤ a) (ha : a ≤ i) :
    a = start ∧ len = i - start := by
  obtain ⟨hlt, hfree, _⟩ := h.inToken rfl
  have hpos := hspan.pos
  have heq : a = start := by
    rcases hspan.before with hzero | hbefore
    · omega
    · by_contra hne
      rw [hfree (a - 1) (by omega) (by omega)] at hbefore
      cases hbefore
  have hend : a + len = i := by
    rcases Nat.lt_trichotomy (a + len) i with hless | heq' | hmore
    · -- it would end inside the token
      rcases hspan.after with hlast | hafter
      · omega
      · rw [hfree (a + len) (by omega) hless] at hafter
        cases hafter
    · exact heq'
    · -- it would contain the separator
      rcases hsep with hlast | hsep
      · have hinside := hspan.inside
        omega
      · rw [hspan.free i ha hmore] at hsep
        cases hsep
  omega

theorem ScanState.isNameSpan
    {name : List UInt16} {i start : ℕ} (h : ScanState name i start true)
    (hi : i ≤ name.length)
    (hsep : i = name.length ∨ separates (name.getD i 0) = true) :
    IsNameSpan name start (i - start) := by
  obtain ⟨hlt, hfree, hbefore⟩ := h.inToken rfl
  have hend : start + (i - start) = i := by omega
  refine ⟨by omega, by omega, ?_, hbefore, ?_⟩
  · intro k hk hk'
    exact hfree k hk (by omega)
  · rw [hend]
    exact hsep

theorem ScanState.report_iff
    {name : List UInt16} {i start : ℕ} (h : ScanState name i start true)
    (hi : i ≤ name.length)
    (hsep : i = name.length ∨ separates (name.getD i 0) = true) (a len : ℕ) :
    IsNameSpan name a len ∧ start ≤ a ↔
      (a = start ∧ len = i - start) ∨ (IsNameSpan name a len ∧ i + 1 ≤ a) := by
  have hlt := (h.inToken rfl).1
  constructor
  · rintro ⟨hspan, hstart⟩
    rcases Nat.lt_or_ge i a with hlate | hearly
    · exact Or.inr ⟨hspan, hlate⟩
    · exact Or.inl (h.eq_of_le hi hsep hspan hstart hearly)
  · rintro (⟨rfl, rfl⟩ | ⟨hspan, hlate⟩)
    · exact ⟨h.isNameSpan hi hsep, le_refl _⟩
    · exact ⟨hspan, by omega⟩

/-! One round, for each of the four things it can do. -/

theorem round_sep
    {name : List UInt16} {i : ℕ}
    (hsep : i = name.length ∨ separates (name.getD i 0) = true) :
    (i == name.length || separates (name.getD i 0)) = true := by
  rcases hsep with hend | hsep
  · simp [hend]
  · rw [hsep, Bool.or_true]

theorem round_not_sep
    {name : List UInt16} {i : ℕ} (hi : i < name.length)
    (hsep : separates (name.getD i 0) = false) :
    (i == name.length || separates (name.getD i 0)) = false := by
  rw [hsep, Bool.or_false, beq_eq_false_iff_ne]
  exact hi.ne

theorem spanLoop_enter
    {name : List UInt16} {minLen left i start : ℕ} (hi : i < name.length)
    (hsep : separates (name.getD i 0) = false) :
    spanLoop name minLen (left + 1) i start false =
      spanLoop name minLen left (i + 1) i true := by
  rw [spanLoop, round_not_sep hi hsep]
  rfl

theorem spanLoop_stay
    {name : List UInt16} {minLen left i start : ℕ} (hi : i < name.length)
    (hsep : separates (name.getD i 0) = false) :
    spanLoop name minLen (left + 1) i start true =
      spanLoop name minLen left (i + 1) start true := by
  rw [spanLoop, round_not_sep hi hsep]
  rfl

theorem spanLoop_skip
    {name : List UInt16} {minLen left i start : ℕ}
    (hsep : i = name.length ∨ separates (name.getD i 0) = true) :
    spanLoop name minLen (left + 1) i start false =
      spanLoop name minLen left (i + 1) start false := by
  rw [spanLoop, round_sep hsep]
  rfl

theorem spanLoop_leave
    {name : List UInt16} {minLen left i start : ℕ}
    (hsep : i = name.length ∨ separates (name.getD i 0) = true) :
    spanLoop name minLen (left + 1) i start true =
      if minLen ≤ i - start then
        (start, i - start) :: spanLoop name minLen left (i + 1) start false
      else spanLoop name minLen left (i + 1) start false := by
  rw [spanLoop, round_sep hsep]
  rfl

/-- `left` rounds from `i` on report the spans that begin there or later. -/
def ReportsFrom
    (name : List UInt16) (minLen bound : ℕ) (spans : List (ℕ × ℕ)) : Prop :=
  (spans.Pairwise fun p q => p.1 + p.2 < q.1) ∧
    ∀ a len, (a, len) ∈ spans ↔
      IsNameSpan name a len ∧ minLen ≤ len ∧ bound ≤ a

theorem reportsFrom_end
    {name : List UInt16} {bound : ℕ} (minLen : ℕ)
    (hbound : name.length ≤ bound) : ReportsFrom name minLen bound [] := by
  refine ⟨List.Pairwise.nil, ?_⟩
  intro a len
  constructor
  · intro hmem
    cases hmem
  · rintro ⟨hspan, _, hle⟩
    have hpos := hspan.pos
    have hinside := hspan.inside
    omega

theorem ReportsFrom.skip
    {name : List UInt16} {minLen i : ℕ} {spans : List (ℕ × ℕ)}
    (h : ReportsFrom name minLen (i + 1) spans)
    (hsep : i = name.length ∨ separates (name.getD i 0) = true) :
    ReportsFrom name minLen i spans := by
  refine ⟨h.1, ?_⟩
  intro a len
  rw [h.2]
  apply and_congr_right
  intro hspan
  rw [hspan.succ_le_iff hsep]

theorem ReportsFrom.leave
    {name : List UInt16} {minLen i start : ℕ} {spans : List (ℕ × ℕ)}
    (h : ReportsFrom name minLen (i + 1) spans)
    (hstate : ScanState name i start true) (hi : i ≤ name.length)
    (hsep : i = name.length ∨ separates (name.getD i 0) = true) :
    ReportsFrom name minLen start
      (if minLen ≤ i - start then (start, i - start) :: spans else spans) := by
  have hlt := (hstate.inToken rfl).1
  have hreport := hstate.report_iff hi hsep
  by_cases hlong : minLen ≤ i - start
  · rw [if_pos hlong]
    refine ⟨List.pairwise_cons.mpr ⟨?_, h.1⟩, ?_⟩
    · rintro ⟨a, len⟩ hmem
      have hlate := ((h.2 a len).mp hmem).2.2
      show start + (i - start) < a
      omega
    · intro a len
      rw [List.mem_cons, h.2, Prod.mk.injEq, and_left_comm (b := minLen ≤ len),
        and_left_comm (b := minLen ≤ len), hreport]
      constructor
      · rintro (⟨rfl, rfl⟩ | ⟨hlen, hlate⟩)
        · exact ⟨hlong, Or.inl ⟨rfl, rfl⟩⟩
        · exact ⟨hlen, Or.inr hlate⟩
      · rintro ⟨hlen, hnow | hlate⟩
        · exact Or.inl hnow
        · exact Or.inr ⟨hlen, hlate⟩
  · rw [if_neg hlong]
    refine ⟨h.1, ?_⟩
    intro a len
    rw [h.2, and_left_comm (b := minLen ≤ len),
      and_left_comm (b := minLen ≤ len), hreport]
    constructor
    · rintro ⟨hlen, hlate⟩
      exact ⟨hlen, Or.inr hlate⟩
    · rintro ⟨hlen, ⟨rfl, rfl⟩ | hlate⟩
      · exact absurd hlen hlong
      · exact ⟨hlen, hlate⟩

theorem spanLoop_reportsFrom
    (name : List UInt16) (minLen left i start : ℕ) (inTok : Bool)
    (hleft : i + left = name.length) (hstate : ScanState name i start inTok) :
    ReportsFrom name minLen (scanFrom i start inTok)
      (spanLoop name minLen (left + 1) i start inTok) := by
  induction left generalizing i start inTok with
  | zero =>
      -- the extra round at the end of the name
      have hend : i = name.length := by omega
      have hnone : ReportsFrom name minLen (i + 1)
          (spanLoop name minLen 0 (i + 1) start false) :=
        reportsFrom_end minLen (by omega)
      cases inTok with
      | false =>
          rw [spanLoop_skip (Or.inl hend)]
          exact hnone.skip (Or.inl hend)
      | true =>
          rw [spanLoop_leave (Or.inl hend)]
          exact hnone.leave hstate (by omega) (Or.inl hend)
  | succ left ih =>
      have hi : i < name.length := by omega
      cases hsep : separates (name.getD i 0) with
      | true =>
          have hrest := ih (i + 1) start false (by omega) (ScanState.leave hsep)
          cases inTok with
          | false =>
              rw [spanLoop_skip (Or.inr hsep)]
              exact hrest.skip (Or.inr hsep)
          | true =>
              rw [spanLoop_leave (Or.inr hsep)]
              exact hrest.leave hstate hi.le (Or.inr hsep)
      | false =>
          cases inTok with
          | false =>
              rw [spanLoop_enter hi hsep]
              exact ih (i + 1) i true (by omega) (hstate.enter hsep)
          | true =>
              rw [spanLoop_stay hi hsep]
              exact ih (i + 1) start true (by omega) (hstate.stay hsep)

/-- The tokens of a name are its maximal separator-free spans of the wanted
length, each once and from left to right, and the allocation-free matcher looks
for exactly these tokens. -/
theorem splitNameTokens_exact (fullName : List UInt16) (minLen : ℕ) :
    (∃ spans : List (ℕ × ℕ),
      (spans.Pairwise fun p q => p.1 + p.2 < q.1) ∧
      (∀ i len, (i, len) ∈ spans ↔
        IsNameSpan fullName i len ∧ minLen ≤ len) ∧
      splitNameTokens fullName minLen = spans.map (spanText fullName)) ∧
      ∀ password, containsFullNameToken password fullName minLen = true ↔
        ∃ token ∈ splitNameTokens fullName minLen,
          token ≠ [] ∧ lowered token <:+: lowered password := by
  constructor
  · obtain ⟨horder, hmem⟩ := spanLoop_reportsFrom fullName minLen
      fullName.length 0 0 false (by omega) (ScanState.start fullName)
    refine ⟨nameSpans fullName minLen, horder, ?_,
      splitNameTokens_eq_map_spanText fullName minLen⟩
    intro i len
    rw [nameSpans, hmem]
    simp [scanFrom]
  · intro password
    have hany : containsFullNameToken password fullName minLen =
        (splitNameTokens fullName minLen).any (containsIgnoreCase password) :=
      fullNameLoop_eq password fullName minLen _ 0 0 false
    rw [hany, List.any_eq_true]
    constructor
    · rintro ⟨token, hmem, hin⟩
      exact ⟨token, hmem, (containsIgnoreCase_iff _ _).mp hin⟩
    · rintro ⟨token, hmem, hin⟩
      exact ⟨token, hmem, (containsIgnoreCase_iff _ _).mpr hin⟩

end PwFilter
