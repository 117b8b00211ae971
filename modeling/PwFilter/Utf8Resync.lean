import PwFilter.Utf8Sequences
import PwFilter.UtfRoundTrip

/-!
# Text behind malformed bytes

The decoder finds the next character again after anything malformed, because a
lead byte is never a continuation byte.  It does not look for it when a lead
byte announces more bytes than are left: then it stops, and up to two
characters that stand behind the lead are lost.
-/

namespace PwFilter

open SyncCode UnicodeText

theorem wellFormed_head_not_continuation
    {q : List UInt8} (hq : WellFormed q) :
    ∀ c ∈ q.head?, isContinuation c = false := by
  obtain ⟨text, rfl⟩ := hq.exists_text
  intro c hc
  rw [Bool.eq_false_iff, ne_eq, isContinuation_iff]
  cases text with
  | nil => cases hc
  | cons char text =>
      have hbounds := char_toNat_bounds char
      rw [utf8_cons] at hc
      rcases utf8EncodeChar_rows char with ⟨hone, henc⟩ | ⟨hlow, htwo, henc⟩ |
        ⟨hlow, hthree, henc⟩ | ⟨hlow, henc⟩
      all_goals
        rw [henc] at hc
        cases hc
        rw [UInt8.toNat_ofNat']
        omega

theorem replacement_takes_three
    {text : List Char} (hmem : 0xFFFD ∈ utf16 text) :
    3 ≤ (utf8 text).length := by
  obtain ⟨char, hchar, hunit⟩ := List.mem_flatMap.mp hmem
  have hbounds := char_toNat_bounds char
  have hval : char.val.toNat = char.toNat := rfl
  rw [← emitUtf16_char, mem_emitUtf16_replacement (by omega), hval] at hunit
  have hlength : (String.utf8EncodeChar char).length = 3 := by
    rcases utf8EncodeChar_rows char with ⟨hone, _⟩ | ⟨_, htwo, _⟩ |
      ⟨_, _, henc⟩ | ⟨hlow, _⟩
    · omega
    · omega
    · rw [henc]
      rfl
    · omega
  obtain ⟨front, back, rfl⟩ := List.append_of_mem hchar
  rw [utf8_append, utf8_cons, List.length_append, List.length_append]
  omega

/-- A truncated lead byte stops the decoder, which then has emitted U+FFFD
last. -/
theorem utf8ToUtf16_of_uncovered
    {c : UInt8} {after : List UInt8} {n : ℕ} (hc : announced c = some n)
    (hshort : after.length < n) (before : List UInt8) :
    ∃ front, utf8ToUtf16 (before ++ c :: after) = front ++ [0xFFFD] := by
  have hlead : utf8Code.announced c = some n := hc
  obtain ⟨front, part, hpieces⟩ :=
    Code.pieces_of_uncovered hlead hshort before
  refine ⟨front.flatMap pieceUnits, ?_⟩
  rw [utf8ToUtf16_eq_pieces, hpieces, List.flatMap_append]
  rfl

/-- Text behind malformed bytes comes out whole exactly when no lead byte
among them announces more bytes than follow it. -/
theorem suffix_survives_iff
    {q : List UInt8} (hq : WellFormed q) (p : List UInt8) :
    utf8ToUtf16 q <:+ utf8ToUtf16 (p ++ q) ↔
      q = [] ∨ ∀ before c after n, p = before ++ c :: after →
        announced c = some n → n ≤ after.length + q.length := by
  constructor
  · intro hsuffix
    by_contra hnone
    obtain ⟨hne, huncovered⟩ := not_or.mp hnone
    push Not at huncovered
    obtain ⟨before, c, after, n, rfl, hc, hshort⟩ := huncovered
    have hthree := announced_le_three hc
    have hlost : (after ++ q).length < n := by
      rw [List.length_append]
      exact hshort
    obtain ⟨front, hout⟩ := utf8ToUtf16_of_uncovered hc hlost before
    rw [List.append_assoc, List.cons_append, hout] at hsuffix
    obtain ⟨text, rfl⟩ := hq.exists_text
    rw [utf8ToUtf16_utf8] at hsuffix
    have hlast : 0xFFFD ∈ utf16 text := by
      rcases List.suffix_concat_iff.mp hsuffix with hnil | ⟨s, hs, _⟩
      · have htext : text = [] := by
          rw [← decodeUtf16_utf16 text, hnil, decodeUtf16_nil]
        rw [htext] at hne
        exact absurd rfl hne
      · rw [hs]
        simp
    have hlong := replacement_takes_three hlast
    omega
  · intro h
    rcases h with rfl | hcovered
    · exact List.nil_suffix
    · have hcov : utf8Code.Covered p q.length := hcovered
      obtain ⟨front, hpieces, _⟩ :=
        Code.pieces_append (wellFormed_head_not_continuation hq) p hcov
      refine ⟨front.flatMap pieceUnits, ?_⟩
      rw [utf8ToUtf16_eq_pieces, utf8ToUtf16_eq_pieces, hpieces,
        List.flatMap_append]

theorem suffix_survives_iff_stray :
    utf8ToUtf16 [0xE2, 0x82, 0xAC] <:+
      utf8ToUtf16 ([0x80] ++ [0xE2, 0x82, 0xAC]) := by
  apply (suffix_survives_iff (wellFormed_utf8 [Char.ofNat 0x20AC]) [0x80]).mpr
  right
  intro before c after n hsplit hc
  have hmem : c ∈ [(0x80 : UInt8)] := by
    rw [hsplit]
    simp
  rw [List.mem_singleton.mp hmem] at hc
  cases hc

/-- A lead byte of three in front of the letter `A` swallows the letter. -/
theorem truncated_lead_swallows_letter :
    WellFormed [0x41] ∧ utf8ToUtf16 ([0xE2] ++ [0x41]) = [0xFFFD] ∧
      ¬ utf8ToUtf16 [0x41] <:+ utf8ToUtf16 ([0xE2] ++ [0x41]) :=
  ⟨wellFormed_utf8 ['A'], by decide, by decide⟩

end PwFilter
