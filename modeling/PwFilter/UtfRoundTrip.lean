import PwFilter.SurrogatePairs
import PwFilter.Utf

/-!
# What the conversions preserve

The encoder writes the standard UTF-8 of the text its input stands for, the
decoder reads it back, and the form with a buffer writes what the allocating
form returns, or as much of it as fits.
-/

namespace PwFilter

open ByteMemory UnicodeText

/-! ## Round trips -/

theorem utf8ToUtf16_utf16ToUtf8 (s : List UInt16) :
    utf8ToUtf16 (utf16ToUtf8 s) = replaceUnpaired s := by
  rw [utf16ToUtf8_eq, utf8ToUtf16_utf8, utf16_decodeUtf16]

theorem utf16ToUtf8_utf8ToUtf16 {b : List UInt8} (hb : WellFormed b) :
    utf16ToUtf8 (utf8ToUtf16 b) = b := by
  obtain ⟨text, rfl⟩ := hb.exists_text
  rw [utf8ToUtf16_utf8, utf16ToUtf8_eq, decodeUtf16_utf16]

/-- There and back is the identity on well-formed UTF-8, and on code units it
replaces the unpaired surrogates and keeps every other unit in its place. -/
theorem utf_round_trip :
    (∀ s : List UInt16,
      utf8ToUtf16 (utf16ToUtf8 s) = replaceUnpaired s ∧
        (utf8ToUtf16 (utf16ToUtf8 s)).length = s.length ∧
        ∀ before u after, s = before ++ u :: after →
          (utf8ToUtf16 (utf16ToUtf8 s))[before.length]? =
            some (if IsSurrogate u ∧
                ¬ Paired before.getLast? u after.head? then 0xFFFD else u)) ∧
      ∀ b : List UInt8, WellFormed b → utf16ToUtf8 (utf8ToUtf16 b) = b := by
  constructor
  · intro s
    rw [utf8ToUtf16_utf16ToUtf8]
    refine ⟨rfl, replaceFrom_length none s, ?_⟩
    intro before u after hsplit
    rw [hsplit]
    exact replaceUnpaired_getElem? before u after
  · intro b hb
    exact utf16ToUtf8_utf8ToUtf16 hb

/-! ## The standard encoding -/

theorem utf8_injective {text text' : List Char}
    (h : utf8 text = utf8 text') : text = text' := by
  have hunits : utf16 text = utf16 text' := by
    rw [← utf8ToUtf16_utf8, h, utf8ToUtf16_utf8]
  rw [← decodeUtf16_utf16 text, hunits, decodeUtf16_utf16]

/-- The allocating form encodes the characters its input stands for, and
forgets only which surrogates were replaced. -/
theorem utf16ToUtf8_is_standard (s : List UInt16) :
    utf16ToUtf8 s = utf8 (decodeUtf16 s) ∧ WellFormed (utf16ToUtf8 s) ∧
      (utf16ToUtf8 s).length ≤ 3 * s.length ∧
      ∀ t : List UInt16, utf16ToUtf8 s = utf16ToUtf8 t ↔
        replaceUnpaired s = replaceUnpaired t := by
  refine ⟨utf16ToUtf8_eq s, ?_, ?_, ?_⟩
  · rw [utf16ToUtf8_eq]
    exact wellFormed_utf8 _
  · rw [utf16ToUtf8_eq]
    exact utf8_decodeUtf16_length_le s
  · intro t
    rw [utf16ToUtf8_eq, utf16ToUtf8_eq, ← decodeUtf16_eq_iff]
    constructor
    · intro h
      exact utf8_injective h
    · intro h
      rw [h]

/-! ## The bounded form -/

theorem store_front
    {buffer bytes : List UInt8} (beyond : List UInt8)
    (hfit : bytes.length ≤ buffer.length) :
    store (buffer ++ beyond) 0 bytes =
      bytes ++ buffer.drop bytes.length ++ beyond := by
  have hroom : 0 + bytes.length ≤ (buffer ++ beyond).length := by
    rw [List.length_append]
    omega
  rw [store_eq hroom, List.take_zero, List.nil_append, Nat.zero_add,
    List.drop_append_of_le_length hfit, List.append_assoc]

/-- The memory is the caller's buffer with whatever lies behind it.  Either
form of the conversion gives the same bytes, and when they do not fit the
buffer has the encoding of the longest prefix of the text that does. -/
theorem bounded_agrees_with_allocating
    (input : List UInt16) (buffer beyond : List UInt8) :
    ((utf16ToUtf8Bounded input (buffer ++ beyond) buffer.length).1 = none ↔
        buffer.length < (utf16ToUtf8 input).length) ∧
      (∀ n, (utf16ToUtf8Bounded input (buffer ++ beyond) buffer.length).1 =
          some n →
        n = (utf16ToUtf8 input).length ∧
          (utf16ToUtf8Bounded input (buffer ++ beyond) buffer.length).2 =
            utf16ToUtf8 input ++ buffer.drop n ++ beyond) ∧
      ((utf16ToUtf8Bounded input (buffer ++ beyond) buffer.length).1 = none →
        ∃ kept, kept <+: decodeUtf16 input ∧
          (utf8 kept).length ≤ buffer.length ∧
          (∀ part, part <+: decodeUtf16 input →
            (utf8 part).length ≤ buffer.length → part <+: kept) ∧
          (utf16ToUtf8Bounded input (buffer ++ beyond) buffer.length).2 =
            utf8 kept ++ buffer.drop (utf8 kept).length ++ beyond) := by
  rw [utf16ToUtf8_eq, utf16ToUtf8Bounded_eq]
  by_cases hfit : (utf8 (decodeUtf16 input)).length ≤ buffer.length
  · have hall := (fitting_eq_self_iff _ _).mpr hfit
    rw [if_pos hfit, hall]
    refine ⟨?_, ?_, ?_⟩
    · simp only [reduceCtorEq, false_iff]
      omega
    · intro n hn
      have hlength : (utf8 (decodeUtf16 input)).length = n := by simpa using hn
      rw [← hlength]
      exact ⟨rfl, store_front beyond hfit⟩
    · intro hnone
      cases hnone
  · rw [if_neg hfit]
    refine ⟨by simpa using hfit, ?_, ?_⟩
    · intro n hn
      cases hn
    · intro _
      have hkept := utf8_fitting_length_le buffer.length (decodeUtf16 input)
      refine ⟨fitting buffer.length (decodeUtf16 input),
        fitting_prefix _ _, hkept, ?_, store_front beyond hkept⟩
      intro part hpart hshort
      exact prefix_fitting hpart hshort

end PwFilter
