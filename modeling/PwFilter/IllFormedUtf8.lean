import PwFilter.Utf8Sequences
import PwFilter.UtfRoundTrip

/-!
# Ill-formed input and replacement characters

The decoder emits the value of a complete sequence without looking at it.  So
overlong forms pass unnoticed, and encoded surrogates and values above
U+10FFFF come out as surrogates.  The output is well-formed, and shows that the
input was not, exactly when these sequences happen to be in harmless company.
-/

namespace PwFilter

open SyncCode UnicodeText

/-! ## What is emitted for a value -/

def IsHighValue (cp : UInt32) : Prop := 0xD800 ≤ cp.toNat ∧ cp.toNat ≤ 0xDBFF

def IsLowValue (cp : UInt32) : Prop := 0xDC00 ≤ cp.toNat ∧ cp.toNat ≤ 0xDFFF

theorem emitUtf16_high {cp : UInt32} (hcp : IsHighValue cp) :
    ∃ u, emitUtf16 cp = [u] ∧ IsHighSurrogate u := by
  obtain ⟨hlow, hhigh⟩ := hcp
  refine ⟨_, emitUtf16_small (by omega), ?_⟩
  rw [isHighSurrogate_iff, UInt16.toNat_ofNat']
  omega

theorem emitUtf16_low {cp : UInt32} (hcp : IsLowValue cp) :
    ∃ u, emitUtf16 cp = [u] ∧ IsLowSurrogate u := by
  obtain ⟨hlow, hhigh⟩ := hcp
  refine ⟨_, emitUtf16_small (by omega), ?_⟩
  rw [isLowSurrogate_iff, UInt16.toNat_ofNat']
  omega

/-- Above the last code point both units are low surrogates. -/
theorem emitUtf16_above
    {cp : UInt32} (hlow : 0x10FFFF < cp.toNat) (hhigh : cp.toNat < 0x200000) :
    ∃ u v, emitUtf16 cp = [u, v] ∧ IsLowSurrogate u ∧ IsLowSurrogate v := by
  refine ⟨_, _, emitUtf16_large (by omega) hhigh, ?_, ?_⟩
  · rw [isLowSurrogate_iff, UInt16.toNat_ofNat']
    omega
  · rw [isLowSurrogate_iff, UInt16.toNat_ofNat']
    omega

theorem emitUtf16_scalar
    {cp : UInt32} (hcp : cp.toNat ≤ 0x10FFFF) (hhigh : ¬ IsHighValue cp)
    (hlow : ¬ IsLowValue cp) :
    (∃ u, emitUtf16 cp = [u] ∧ ¬ IsSurrogate u) ∨
      ∃ hi lo, emitUtf16 cp = [hi, lo] ∧ IsHighSurrogate hi ∧
        IsLowSurrogate lo := by
  unfold IsHighValue at hhigh
  unfold IsLowValue at hlow
  by_cases hsmall : cp.toNat ≤ 0xFFFF
  · left
    refine ⟨_, emitUtf16_small hsmall, ?_⟩
    rw [IsSurrogate, isHighSurrogate_iff, isLowSurrogate_iff,
      UInt16.toNat_ofNat']
    omega
  · right
    refine ⟨_, _, emitUtf16_large (by omega) (by omega), ?_, ?_⟩
    · rw [isHighSurrogate_iff, UInt16.toNat_ofNat']
      omega
    · rw [isLowSurrogate_iff, UInt16.toNat_ofNat']
      omega

/-! ## Values that come out paired -/

/-- Every value is a code point, and surrogates stand in the order high, low
next to each other. -/
structure ValuesPaired (values : List UInt32) : Prop where
  small : ∀ v ∈ values, v.toNat ≤ 0x10FFFF
  high : ∀ front v back, values = front ++ v :: back → IsHighValue v →
    ∃ w ∈ back.head?, IsLowValue w
  low : ∀ front v back, values = front ++ v :: back → IsLowValue v →
    ∃ w ∈ front.getLast?, IsHighValue w

theorem emitUtf16_ne_nil (cp : UInt32) : emitUtf16 cp ≠ [] := by
  by_cases hcp : cp > 0xFFFF
  · rw [emitUtf16, if_pos hcp]
    exact List.cons_ne_nil _ _
  · rw [emitUtf16, if_neg hcp]
    exact List.cons_ne_nil _ _

/-- A code point starts with a low surrogate, or ends with a high one, only
when it is one. -/
theorem emitUtf16_ends {cp : UInt32} (hcp : cp.toNat ≤ 0x10FFFF) :
    ∃ u v, (emitUtf16 cp).head? = some u ∧ (emitUtf16 cp).getLast? = some v ∧
      (IsLowSurrogate u → IsLowValue cp) ∧
      (IsHighSurrogate v → IsHighValue cp) := by
  simp only [isLowSurrogate_iff, isHighSurrogate_iff, IsLowValue, IsHighValue]
  by_cases hsmall : cp.toNat ≤ 0xFFFF
  · rw [emitUtf16_small hsmall]
    refine ⟨_, UInt16.ofNat _, rfl, rfl, ?_, ?_⟩
    · rw [UInt16.toNat_ofNat']
      omega
    · rw [UInt16.toNat_ofNat']
      omega
  · rw [emitUtf16_large (by omega) (by omega)]
    refine ⟨_, UInt16.ofNat _, rfl, rfl, ?_, ?_⟩
    · rw [UInt16.toNat_ofNat']
      omega
    · rw [UInt16.toNat_ofNat']
      omega

theorem head?_flatMap_emit (values : List UInt32) (u : UInt16) :
    u ∈ (values.flatMap emitUtf16).head? ↔
      ∃ w ∈ values.head?, u ∈ (emitUtf16 w).head? := by
  cases values with
  | nil => simp
  | cons w values =>
      rw [List.flatMap_cons, List.head?_append_of_ne_nil _ (emitUtf16_ne_nil w)]
      simp

theorem getLast?_flatMap_emit (values : List UInt32) (u : UInt16) :
    u ∈ (values.flatMap emitUtf16).getLast? ↔
      ∃ w ∈ values.getLast?, u ∈ (emitUtf16 w).getLast? := by
  rcases List.eq_nil_or_concat values with rfl | ⟨front, w, rfl⟩
  · simp
  · rw [List.concat_eq_append, List.flatMap_append, List.flatMap_singleton,
      List.getLast?_append_of_ne_nil _ (emitUtf16_ne_nil w)]
    simp

theorem singleton_split
    {α : Type*} {a u : α} {pre post : List α} (hsplit : [a] = pre ++ u :: post) :
    u = a ∧ pre = [] ∧ post = [] := by
  rcases List.singleton_eq_append_iff.mp hsplit with
    ⟨hpre, hpost⟩ | ⟨_, hnil⟩
  · cases hpost
    exact ⟨rfl, hpre, rfl⟩
  · cases hnil

/-- A unit of the output comes from one value of the input. -/
theorem flatMap_emit_split
    {values : List UInt32} {before after : List UInt16} {u : UInt16}
    (hsplit : values.flatMap emitUtf16 = before ++ u :: after) :
    ∃ front w back pre post, values = front ++ w :: back ∧
      emitUtf16 w = pre ++ u :: post ∧
      before = front.flatMap emitUtf16 ++ pre ∧
      after = post ++ back.flatMap emitUtf16 := by
  induction values generalizing before with
  | nil =>
      rw [List.flatMap_nil] at hsplit
      exact absurd hsplit.symm (by simp)
  | cons w values ih =>
      rw [List.flatMap_cons] at hsplit
      rcases List.append_eq_append_iff.mp hsplit with
        ⟨before', rfl, hrest⟩ | ⟨post, hunits, hrest⟩
      · obtain ⟨front, v, back, pre, post, rfl, hv, rfl, rfl⟩ := ih hrest
        exact ⟨w :: front, v, back, pre, post, rfl, hv, by simp, rfl⟩
      · cases post with
        | nil =>
            have hempty : values.flatMap emitUtf16 = [] ++ u :: after :=
              hrest.symm
            rw [List.append_nil] at hunits
            obtain ⟨front, v, back, pre, post, rfl, hv, hpre, rfl⟩ := ih hempty
            refine ⟨w :: front, v, back, pre, post, rfl, hv, ?_, rfl⟩
            rw [List.flatMap_cons, List.append_assoc, ← hpre, hunits,
              List.append_nil]
        | cons v post =>
            rw [List.cons_append, List.cons.injEq] at hrest
            obtain ⟨rfl, rfl⟩ := hrest
            exact ⟨[], w, values, before, post, rfl, hunits, rfl, rfl⟩

theorem value_small_of_wellFormed
    {values : List UInt32} (hformed : WellFormedUtf16 (values.flatMap emitUtf16))
    {v : UInt32} (hmem : v ∈ values) (hv : v.toNat < 0x200000) :
    v.toNat ≤ 0x10FFFF := by
  by_contra habove
  obtain ⟨x, y, hemit, hx, hy⟩ := emitUtf16_above (Nat.lt_of_not_le habove) hv
  obtain ⟨front, back, rfl⟩ := List.append_of_mem hmem
  have hpaired := hformed (front.flatMap emitUtf16 ++ [x]) y
    (back.flatMap emitUtf16) (by simp [hemit]) (Or.inr hy)
  rw [List.getLast?_concat] at hpaired
  rcases hpaired with ⟨hhigh, _⟩ | ⟨_, z, hz, hhigh⟩
  · exact not_high_of_low hy hhigh
  · cases hz
    exact not_high_of_low hx hhigh

theorem valuesPaired_of_wellFormed
    {values : List UInt32} (hvalues : ∀ v ∈ values, v.toNat < 0x200000)
    (hformed : WellFormedUtf16 (values.flatMap emitUtf16)) :
    ValuesPaired values := by
  have hsmall : ∀ v ∈ values, v.toNat ≤ 0x10FFFF := fun v hmem =>
    value_small_of_wellFormed hformed hmem (hvalues v hmem)
  refine ⟨hsmall, ?_, ?_⟩
  · intro front v back hsplit hv
    obtain ⟨u, hemit, hu⟩ := emitUtf16_high hv
    have hpaired := hformed (front.flatMap emitUtf16) u
      (back.flatMap emitUtf16) (by rw [hsplit]; simp [hemit]) (Or.inl hu)
    rcases hpaired with ⟨_, z, hz, hlow⟩ | ⟨hlow, _⟩
    · obtain ⟨w, hw, hhead⟩ := (head?_flatMap_emit back z).mp hz
      have hmem : w ∈ values := by
        rw [hsplit]
        exact List.mem_append_right _
          (List.mem_cons_of_mem _ (List.mem_of_mem_head? hw))
      obtain ⟨x, _, hx, _, hstart, _⟩ := emitUtf16_ends (hsmall w hmem)
      cases hx.symm.trans hhead
      exact ⟨w, hw, hstart hlow⟩
    · exact absurd hu (not_high_of_low hlow)
  · intro front v back hsplit hv
    obtain ⟨u, hemit, hu⟩ := emitUtf16_low hv
    have hpaired := hformed (front.flatMap emitUtf16) u
      (back.flatMap emitUtf16) (by rw [hsplit]; simp [hemit]) (Or.inr hu)
    rcases hpaired with ⟨hhigh, _⟩ | ⟨_, z, hz, hhigh⟩
    · exact absurd hhigh (not_high_of_low hu)
    · obtain ⟨w, hw, hlast⟩ := (getLast?_flatMap_emit front z).mp hz
      have hmem : w ∈ values := by
        rw [hsplit]
        exact List.mem_append_left _ (List.mem_of_mem_getLast? hw)
      obtain ⟨_, x, _, hx, _, hend⟩ := emitUtf16_ends (hsmall w hmem)
      cases hx.symm.trans hlast
      exact ⟨w, hw, hend hhigh⟩

theorem ValuesPaired.wellFormed
    {values : List UInt32} (hpaired : ValuesPaired values) :
    WellFormedUtf16 (values.flatMap emitUtf16) := by
  intro before u after hsplit hsurrogate
  obtain ⟨front, w, back, pre, post, rfl, hemit, rfl, rfl⟩ :=
    flatMap_emit_split hsplit
  have hmem : w ∈ front ++ w :: back :=
    List.mem_append_right _ List.mem_cons_self
  by_cases hhigh : IsHighValue w
  · obtain ⟨x, hx, hxhigh⟩ := emitUtf16_high hhigh
    obtain ⟨next, hnext, hlow⟩ := hpaired.high front w back rfl hhigh
    obtain ⟨y, hy, hylow⟩ := emitUtf16_low hlow
    obtain ⟨rfl, rfl, rfl⟩ := singleton_split (hx.symm.trans hemit)
    exact Or.inl ⟨hxhigh, y,
      (head?_flatMap_emit back y).mpr ⟨next, hnext, by rw [hy]; rfl⟩, hylow⟩
  by_cases hlow : IsLowValue w
  · obtain ⟨y, hy, hylow⟩ := emitUtf16_low hlow
    obtain ⟨last, hlast, hlasthigh⟩ := hpaired.low front w back rfl hlow
    obtain ⟨x, hx, hxhigh⟩ := emitUtf16_high hlasthigh
    obtain ⟨rfl, rfl, rfl⟩ := singleton_split (hy.symm.trans hemit)
    rw [List.append_nil]
    exact Or.inr ⟨hylow, x,
      (getLast?_flatMap_emit front x).mpr ⟨last, hlast, by rw [hx]; rfl⟩,
      hxhigh⟩
  · rcases emitUtf16_scalar (hpaired.small w hmem) hhigh hlow with
      ⟨x, hx, hscalar⟩ | ⟨hi, lo, hx, hhi, hlo⟩
    · obtain ⟨rfl, rfl, rfl⟩ := singleton_split (hx.symm.trans hemit)
      exact absurd hsurrogate hscalar
    · have hpair := hx.symm.trans hemit
      cases pre with
      | nil =>
          cases hpair
          exact Or.inl ⟨hhi, lo, rfl, hlo⟩
      | cons a pre =>
          rw [List.cons_append, List.cons.injEq] at hpair
          obtain ⟨rfl, hpair⟩ := hpair
          obtain ⟨rfl, rfl, rfl⟩ := singleton_split hpair
          rw [List.getLast?_concat]
          exact Or.inr ⟨hlo, hi, rfl, hhi⟩

/-! ## The condition on the input -/

/-- Nothing in `b` encodes a value above U+10FFFF, and what encodes a surrogate
is one of two neighbouring sequences that encode a high and a low one. -/
structure SurrogateSequencesPaired (b : List UInt8) : Prop where
  small : ∀ before s after cp, b = before ++ (s ++ after) →
    sequenceValue s = some cp → cp.toNat ≤ 0x10FFFF
  high : ∀ before s after cp, b = before ++ (s ++ after) →
    sequenceValue s = some cp → IsHighValue cp →
      ∃ s' after' cp', after = s' ++ after' ∧ sequenceValue s' = some cp' ∧
        IsLowValue cp'
  low : ∀ before s after cp, b = before ++ (s ++ after) →
    sequenceValue s = some cp → IsLowValue cp →
      ∃ before' s' cp', before = before' ++ s' ∧ sequenceValue s' = some cp' ∧
        IsHighValue cp'

/-- Some byte of `b` belongs to no sequence, or some sequence in `b` encodes
U+FFFD itself. -/
def ShowsReplacement (b : List UInt8) : Prop :=
  (¬ ∃ parts : List (List UInt8), b = parts.flatten ∧
      ∀ s ∈ parts, ∃ cp, sequenceValue s = some cp) ∨
    ∃ before s after, b = before ++ (s ++ after) ∧
      sequenceValue s = some 0xFFFD

/-! ## Sequences as pieces -/

theorem pieces_of_sequence
    {s : List UInt8} {cp : UInt32} (hs : sequenceValue s = some cp)
    (after : List UInt8) :
    ∃ piece, utf8Code.pieces (s ++ after) = piece :: utf8Code.pieces after ∧
      pieceValue piece = cp := by
  obtain ⟨lead, tail, rfl, hlead, hcont⟩ := (isSequence_iff s).mpr ⟨cp, hs⟩
  refine ⟨.sequence lead tail, ?_, ?_⟩
  · rw [List.cons_append, Code.pieces_sequence hlead hcont]
  · rw [pieceValue, hs, Option.getD_some]

/-- A long sequence is a piece wherever it stands: nothing before it can
announce so much that the decoder would stop in front of it. -/
theorem pieces_of_occurrence
    {s : List UInt8} {cp : UInt32} (hs : sequenceValue s = some cp)
    (hlong : 0x800 ≤ cp.toNat) (before after : List UInt8) :
    ∃ front, utf8Code.pieces (before ++ (s ++ after)) =
        front ++ utf8Code.pieces (s ++ after) ∧
      front.flatMap SyncCode.Piece.elems = before := by
  obtain ⟨lead, tail, rfl, hlead, _⟩ := (isSequence_iff s).mpr ⟨cp, hs⟩
  have hlength : 3 ≤ (lead :: tail).length := by
    have hlt := sequenceValue_lt hs
    omega
  apply Code.pieces_append
  · intro c hc
    cases hc
    exact isContinuation_of_announced lead _ hlead
  · intro _ _ rest n _ hc
    have hthree := announced_le_three hc
    rw [List.length_append]
    omega

theorem sequenceValue_of_mem
    {b : List UInt8} {lead : UInt8} {tail : List UInt8}
    (hmem : .sequence lead tail ∈ utf8Code.pieces b) :
    sequenceValue (lead :: tail) = some (pieceValue (.sequence lead tail)) := by
  obtain ⟨cp, hcp⟩ := (isSequence_iff _).mp (Code.isSequence_of_mem b hmem)
  rw [pieceValue, hcp, Option.getD_some]

/-- A piece with any other value than the replacement is a sequence. -/
theorem sequenceValue_elems
    {b : List UInt8} {piece : SyncCode.Piece UInt8}
    (hmem : piece ∈ utf8Code.pieces b) (hvalue : pieceValue piece ≠ 0xFFFD) :
    sequenceValue piece.elems = some (pieceValue piece) := by
  cases piece with
  | sequence lead tail => exact sequenceValue_of_mem hmem
  | stray c => exact absurd rfl hvalue
  | cut part => exact absurd rfl hvalue

theorem pieceValue_lt (b : List UInt8) :
    ∀ v ∈ (utf8Code.pieces b).map pieceValue, v.toNat < 0x200000 := by
  intro v hv
  obtain ⟨piece, hmem, rfl⟩ := List.mem_map.mp hv
  by_cases hvalue : pieceValue piece = 0xFFFD
  · rw [hvalue]
    decide
  · have hlt := sequenceValue_lt (sequenceValue_elems hmem hvalue)
    omega

/-! ## Sequences in the input and values in the output -/

theorem IsHighValue.ne_replacement {cp : UInt32} (hcp : IsHighValue cp) :
    cp ≠ 0xFFFD := by
  rintro rfl
  exact absurd hcp.2 (by decide)

theorem IsLowValue.ne_replacement {cp : UInt32} (hcp : IsLowValue cp) :
    cp ≠ 0xFFFD := by
  rintro rfl
  exact absurd hcp.2 (by decide)

/-- A value of the output comes from a sequence of the input. -/
theorem values_split
    {b : List UInt8} {front back : List UInt32} {v : UInt32}
    (hvalues : (utf8Code.pieces b).map pieceValue = front ++ v :: back)
    (hv : v ≠ 0xFFFD) :
    ∃ before s rest, utf8Code.pieces b =
        before ++ utf8Code.pieces (s ++ rest) ∧
      front = before.map pieceValue ∧
      back = (utf8Code.pieces rest).map pieceValue ∧
      b = before.flatMap SyncCode.Piece.elems ++ (s ++ rest) ∧
      sequenceValue s = some v := by
  obtain ⟨before, others, hpieces, rfl, hothers⟩ :=
    List.map_eq_append_iff.mp hvalues
  obtain ⟨piece, others', rfl, rfl, rfl⟩ := List.map_eq_cons_iff.mp hothers
  obtain ⟨rest, rfl, hsplit⟩ := Code.pieces_split hpieces
  have hmem : piece ∈ utf8Code.pieces b := by
    rw [hpieces]
    exact List.mem_append_right _ List.mem_cons_self
  cases piece with
  | sequence lead tail =>
      have hs := sequenceValue_of_mem hmem
      obtain ⟨_, _, heq, hlead, hcont⟩ := (isSequence_iff _).mpr ⟨_, hs⟩
      cases heq
      refine ⟨before, lead :: tail, rest, ?_, rfl, rfl, hsplit, hs⟩
      rw [hpieces, List.cons_append, Code.pieces_sequence hlead hcont]
  | stray c => exact absurd rfl hv
  | cut part => exact absurd rfl hv

/-- A long sequence of the input gives a value of the output. -/
theorem values_of_occurrence
    {s : List UInt8} {cp : UInt32} (hs : sequenceValue s = some cp)
    (hlong : 0x800 ≤ cp.toNat) (before after : List UInt8) :
    ∃ front, utf8Code.pieces (before ++ (s ++ after)) =
        front ++ utf8Code.pieces (s ++ after) ∧
      front.flatMap SyncCode.Piece.elems = before ∧
      (utf8Code.pieces (before ++ (s ++ after))).map pieceValue =
        front.map pieceValue ++ cp :: (utf8Code.pieces after).map pieceValue := by
  obtain ⟨front, hpieces, hbefore⟩ :=
    pieces_of_occurrence hs hlong before after
  obtain ⟨piece, hfirst, hvalue⟩ := pieces_of_sequence hs after
  refine ⟨front, hpieces, hbefore, ?_⟩
  rw [hpieces, hfirst, List.map_append, List.map_cons, hvalue]

theorem SurrogateSequencesPaired.valuesPaired
    {b : List UInt8} (hb : SurrogateSequencesPaired b) :
    ValuesPaired ((utf8Code.pieces b).map pieceValue) := by
  refine ⟨?_, ?_, ?_⟩
  · intro v hmem
    by_cases hv : v = 0xFFFD
    · rw [hv]
      decide
    · obtain ⟨front, back, hvalues⟩ := List.append_of_mem hmem
      obtain ⟨before, s, rest, _, _, _, hsplit, hs⟩ := values_split hvalues hv
      exact hb.small _ s rest v hsplit hs
  · intro front v back hvalues hv
    obtain ⟨before, s, rest, _, _, rfl, hsplit, hs⟩ :=
      values_split hvalues hv.ne_replacement
    obtain ⟨s', after', cp', rfl, hs', hcp'⟩ := hb.high _ s rest v hsplit hs hv
    obtain ⟨piece, hfirst, hvalue⟩ := pieces_of_sequence hs' after'
    refine ⟨cp', ?_, hcp'⟩
    rw [hfirst, List.map_cons, hvalue]
    rfl
  · intro front v back hvalues hv
    obtain ⟨pieces, s, rest, hpieces, rfl, _, hsplit, hs⟩ :=
      values_split hvalues hv.ne_replacement
    obtain ⟨before', s', cp', hbefore, hs', hcp'⟩ :=
      hb.low _ s rest v hsplit hs hv
    -- the scanner also arrives at the sequence in front of this one
    obtain ⟨front', hfront', _⟩ := pieces_of_occurrence hs'
      (by unfold IsHighValue at hcp'; omega) before' (s ++ rest)
    obtain ⟨piece, hfirst, hvalue⟩ := pieces_of_sequence hs' (s ++ rest)
    have hboth : pieces ++ utf8Code.pieces (s ++ rest) =
        (front' ++ [piece]) ++ utf8Code.pieces (s ++ rest) := by
      rw [← hpieces, hsplit, hbefore, List.append_assoc, hfront', hfirst,
        List.append_assoc]
      rfl
    have hlast := List.append_cancel_right hboth
    refine ⟨cp', ?_, hcp'⟩
    rw [hlast, List.map_append, List.map_singleton, List.getLast?_concat, hvalue]
    rfl

theorem surrogateSequencesPaired_of_values
    {b : List UInt8} (hvalues : ValuesPaired ((utf8Code.pieces b).map pieceValue)) :
    SurrogateSequencesPaired b := by
  refine ⟨?_, ?_, ?_⟩
  · intro before s after cp hb hs
    by_contra habove
    obtain ⟨front, _, _, hsplit⟩ :=
      values_of_occurrence hs (by omega) before after
    rw [← hb] at hsplit
    apply habove
    apply hvalues.small
    rw [hsplit]
    exact List.mem_append_right _ List.mem_cons_self
  · intro before s after cp hb hs hcp
    obtain ⟨front, _, _, hsplit⟩ := values_of_occurrence hs
      (by unfold IsHighValue at hcp; omega) before after
    rw [← hb] at hsplit
    obtain ⟨cp', hnext, hcp'⟩ := hvalues.high _ cp _ hsplit hcp
    obtain ⟨back, hback⟩ := List.head?_eq_some_iff.mp hnext
    rw [← List.nil_append (cp' :: back)] at hback
    obtain ⟨none, s', after', _, hnone, _, hafter, hs'⟩ :=
      values_split hback hcp'.ne_replacement
    rw [List.map_eq_nil_iff.mp hnone.symm] at hafter
    exact ⟨s', after', cp', hafter, hs', hcp'⟩
  · intro before s after cp hb hs hcp
    obtain ⟨front, hpieces, rfl, hsplit⟩ := values_of_occurrence hs
      (by unfold IsLowValue at hcp; omega) before after
    rw [← hb] at hsplit hpieces
    obtain ⟨cp', hlast, hcp'⟩ := hvalues.low _ cp _ hsplit hcp
    obtain ⟨values, hfront⟩ := List.getLast?_eq_some_iff.mp hlast
    obtain ⟨front', last, rfl, _, hlastPiece⟩ :=
      List.map_eq_append_iff.mp hfront
    obtain ⟨piece, rest, rfl, rfl, hrest⟩ := List.map_eq_cons_iff.mp hlastPiece
    rw [List.map_eq_nil_iff.mp hrest] at hpieces ⊢
    have hmem : piece ∈ utf8Code.pieces b := by
      rw [hpieces]
      simp
    refine ⟨front'.flatMap SyncCode.Piece.elems, piece.elems, _, ?_,
      sequenceValue_elems hmem hcp'.ne_replacement, hcp'⟩
    rw [List.flatMap_append, List.flatMap_singleton]

theorem wellFormedUtf16_iff_sequences (b : List UInt8) :
    WellFormedUtf16 (utf8ToUtf16 b) ↔ SurrogateSequencesPaired b := by
  have hout : utf8ToUtf16 b =
      ((utf8Code.pieces b).map pieceValue).flatMap emitUtf16 := by
    rw [utf8ToUtf16_eq_pieces, List.flatMap_map]
    rfl
  rw [hout]
  constructor
  · intro h
    exact surrogateSequencesPaired_of_values
      (valuesPaired_of_wellFormed (pieceValue_lt b) h)
  · intro h
    exact h.valuesPaired.wellFormed

/-! ## When a replacement character shows -/

theorem replacement_mem_iff (b : List UInt8) :
    0xFFFD ∈ utf8ToUtf16 b ↔ ShowsReplacement b := by
  have hparts : (∃ parts : List (List UInt8), b = parts.flatten ∧
      ∀ s ∈ parts, ∃ cp, sequenceValue s = some cp) ↔
      ∀ p ∈ utf8Code.pieces b, ∃ lead tail, p = .sequence lead tail := by
    rw [Code.pieces_all_sequences_iff]
    simp only [isSequence_iff]
  rw [ShowsReplacement, hparts, utf8ToUtf16_eq_pieces, List.mem_flatMap]
  constructor
  · intro h
    obtain ⟨piece, hmem, hunit⟩ := h
    cases piece with
    | sequence lead tail =>
        right
        have hs := sequenceValue_of_mem hmem
        have hlt := sequenceValue_lt hs
        rw [pieceUnits, mem_emitUtf16_replacement (by omega)] at hunit
        have hvalue : pieceValue (.sequence lead tail) = 0xFFFD :=
          UInt32.toNat_inj.mp hunit
        rw [hvalue] at hs
        obtain ⟨front, back, hpieces⟩ := List.append_of_mem hmem
        obtain ⟨rest, _, hb⟩ := Code.pieces_split hpieces
        exact ⟨_, lead :: tail, rest, hb, hs⟩
    | stray c =>
        left
        intro hall
        obtain ⟨_, _, heq⟩ := hall _ hmem
        cases heq
    | cut part =>
        left
        intro hall
        obtain ⟨_, _, heq⟩ := hall _ hmem
        cases heq
  · intro h
    rcases h with hnone | ⟨before, s, after, rfl, hs⟩
    · have hshown : (0xFFFD : UInt16) ∈ emitUtf16 0xFFFD := by decide
      push Not at hnone
      obtain ⟨piece, hmem, hpiece⟩ := hnone
      refine ⟨piece, hmem, ?_⟩
      cases piece with
      | sequence lead tail => exact absurd rfl (hpiece lead tail)
      | stray c => exact hshown
      | cut part => exact hshown
    · obtain ⟨front, hpieces, _⟩ :=
        pieces_of_occurrence hs (by decide) before after
      obtain ⟨piece, hfirst, hvalue⟩ := pieces_of_sequence hs after
      refine ⟨piece, ?_, ?_⟩
      · rw [hpieces, hfirst]
        simp
      · rw [pieceUnits, hvalue]
        decide

/-! ## What the decoder guarantees -/

/-- Malformed input is visible in well-formed output exactly when surrogates
are encoded in pairs, nothing above U+10FFFF is encoded, and the input is
well-formed or shows a replacement character. -/
theorem ill_formed_replaced_iff (b : List UInt8) :
    (WellFormedUtf16 (utf8ToUtf16 b) ∧
        (¬ WellFormed b → 0xFFFD ∈ utf8ToUtf16 b)) ↔
      SurrogateSequencesPaired b ∧ (WellFormed b ∨ ShowsReplacement b) := by
  rw [wellFormedUtf16_iff_sequences, replacement_mem_iff, or_iff_not_imp_left]

/-- The overlong form of U+0000 comes out as that character. -/
theorem overlong_is_decoded :
    ¬ WellFormed [0xC0, 0x80] ∧ utf8ToUtf16 [0xC0, 0x80] = [0x0000] ∧
      ¬ 0xFFFD ∈ utf8ToUtf16 [0xC0, 0x80] := by
  refine ⟨?_, by decide, by decide⟩
  intro h
  exact absurd (utf16ToUtf8_utf8ToUtf16 h) (by decide)

end PwFilter
