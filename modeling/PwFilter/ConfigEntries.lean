import PwFilter.ConfigFile
import PwFilter.LineEntries

/-!
# From a word list to its entries

The line scanner hands on exactly the entries of the file, in order, whatever
its line ends and blanks are.  On well-formed UTF-8 these are the entries of
the text.
-/

namespace PwFilter

open Allocation LineEntries UnicodeText

/-! ## The format -/

def textFormat : LineFormat Char where
  newline := '\n'
  comment := '#'
  leading := fun c => c = ' ' || c = '\t'
  trailing := fun c => c = ' ' || c = '\t' || c = '\r'

def dropBom : List Char → List Char
  | c :: text => if c.toNat = 0xFEFF then text else c :: text
  | [] => []

def entries (text : List Char) : List (List Char) :=
  textFormat.entries (dropBom text)

def byteFormat : LineFormat UInt8 where
  newline := 0x0A
  comment := 0x23
  leading := isLeadingSpace
  trailing := isTrailingSpace

def bomLength (data : List UInt8) : ℕ :=
  if data.length ≥ 3 ∧ data.getD 0 0 = 0xEF ∧ data.getD 1 0 = 0xBB ∧
    data.getD 2 0 = 0xBF then 3 else 0

def byteEntries (data : List UInt8) : List (List UInt8) :=
  byteFormat.entries (data.drop (bomLength data))

/-! ## The scanner -/

def slice (data : List UInt8) (a b : ℕ) : List UInt8 :=
  (data.drop a).take (b - a)

theorem slice_self (data : List UInt8) (a : ℕ) : slice data a a = [] := by
  rw [slice, Nat.sub_self, List.take_zero]

theorem slice_succ
    {data : List UInt8} {a b : ℕ} (hab : a ≤ b) (hb : b < data.length) :
    slice data a (b + 1) = slice data a b ++ [data.getD b 0] := by
  have hcount : b + 1 - a = b - a + 1 := by omega
  have hget : (data.drop a)[b - a]? = some (data.getD b 0) := by
    rw [List.getElem?_drop, Nat.add_sub_cancel' hab,
      List.getD_eq_getElem?_getD, List.getElem?_eq_getElem hb]
    rfl
  rw [slice, hcount, List.take_add_one, hget]
  rfl

theorem slice_cons
    {data : List UInt8} {a b : ℕ} (hab : a < b) (hb : b ≤ data.length) :
    slice data a b = data.getD a 0 :: slice data (a + 1) b := by
  have hcount : b - a = b - (a + 1) + 1 := by omega
  have hlt : a < data.length := by omega
  rw [slice, hcount, List.drop_eq_getElem_cons hlt, List.take_succ_cons,
    List.getD_eq_getElem?_getD, List.getElem?_eq_getElem hlt]
  rfl

theorem slice_to_end (data : List UInt8) (a : ℕ) :
    slice data a data.length = data.drop a := by
  rw [slice, ← List.length_drop, List.take_length]

/-- The loop at the end of a line drops its trailing blanks. -/
theorem trimEnd_spec
    (data : List UInt8) (start e : ℕ) (hstart : start ≤ e)
    (he : e ≤ data.length) :
    start ≤ trimEnd data start e ∧ trimEnd data start e ≤ e ∧
      slice data start (trimEnd data start e) =
        (slice data start e).rdropWhile isTrailingSpace := by
  induction e with
  | zero =>
      have hzero : start = 0 := by omega
      subst hzero
      exact ⟨le_rfl, le_rfl, rfl⟩
  | succ e ih =>
      rw [trimEnd]
      by_cases hempty : start = e + 1
      · rw [if_neg (by omega), hempty, slice_self]
        exact ⟨le_rfl, le_rfl, rfl⟩
      · rw [slice_succ (by omega) (by omega)]
        by_cases hspace : isTrailingSpace (data.getD e 0) = true
        · obtain ⟨hge, hle, hslice⟩ := ih (by omega) (by omega)
          rw [if_pos ⟨by omega, hspace⟩,
            List.rdropWhile_concat_pos _ _ _ hspace]
          exact ⟨hge, by omega, hslice⟩
        · rw [if_neg fun h => hspace h.2,
            List.rdropWhile_concat_neg _ _ _ hspace,
            slice_succ (by omega) (by omega)]
          exact ⟨hstart, le_rfl, rfl⟩

theorem trimStart_spec
    (data : List UInt8) (left s : ℕ) (hend : s + left ≤ data.length) :
    s ≤ trimStart data left s ∧ trimStart data left s ≤ s + left ∧
      slice data (trimStart data left s) (s + left) =
        (slice data s (s + left)).dropWhile isLeadingSpace := by
  induction left generalizing s with
  | zero =>
      rw [trimStart, Nat.add_zero, slice_self]
      exact ⟨le_rfl, le_rfl, rfl⟩
  | succ left ih =>
      have hnext : s + (left + 1) = s + 1 + left := by omega
      have hlt : s < s + (left + 1) := by omega
      have hcons := slice_cons hlt hend
      rw [trimStart, hcons]
      by_cases hspace : isLeadingSpace (data.getD s 0) = true
      · obtain ⟨hge, hle, hslice⟩ := ih (s + 1) (by omega)
        rw [if_pos hspace, List.dropWhile_cons_of_pos hspace, hnext]
        exact ⟨by omega, hle, hslice⟩
      · rw [if_neg hspace, List.dropWhile_cons_of_neg hspace, hcons]
        exact ⟨le_rfl, by omega, rfl⟩

section

variable {σ : Type}

def entryStep (fn : σ → List UInt16 → Alloc σ) (st : σ) (line : List UInt8) :
    Alloc σ := do
  Alloc.allocate
  fn st (utf8ToUtf16 line)

theorem configLine_eq
    (data : List UInt8) (fn : σ → List UInt16 → Alloc σ) {start i : ℕ}
    (hstart : start ≤ i) (hi : i ≤ data.length) (st : σ) :
    configLine data fn start i st =
      if byteFormat.keeps (byteFormat.trim (slice data start i)) then
        entryStep fn st (byteFormat.trim (slice data start i))
      else pure st := by
  obtain ⟨hge, hle, htrail⟩ := trimEnd_spec data start i hstart hi
  obtain ⟨hge', hle', hlead⟩ := trimStart_spec data
    (trimEnd data start i - start) start (by omega)
  rw [Nat.add_sub_cancel' hge] at hle' hlead
  rw [htrail] at hlead
  simp only [configLine]
  generalize trimEnd data start i = e at *
  generalize trimStart data (e - start) start = s at *
  have htrim : byteFormat.trim (slice data start i) = slice data s e :=
    hlead.symm
  rw [htrim]
  by_cases hlt : s < e
  · have hcons := slice_cons hlt (show e ≤ data.length by omega)
    have hkeeps : (e > s ∧ data.getD s 0 ≠ 0x23) ↔
        byteFormat.keeps (slice data s e) = true := by
      rw [hcons]
      simp [LineFormat.keeps, byteFormat, hlt]
    simp only [hkeeps]
    rfl
  · have hsame : s = e := by omega
    rw [if_neg fun h => hlt h.1, hsame, slice_self]
    rfl

/-- The line loop folds over the entries from the start of the line on. -/
theorem configLoop_eq
    (data : List UInt8) (fn : σ → List UInt16 → Alloc σ) (left i start : ℕ)
    (st : σ) (hstart : start ≤ i) (hend : i + left = data.length)
    (hline : (0x0A : UInt8) ∉ slice data start i) :
    configLoop data fn left i start st =
      (byteFormat.entries (data.drop start)).foldlM (entryStep fn) st := by
  induction left generalizing i start st with
  | zero =>
      have hlast : i = data.length := by omega
      have hdrop : data.drop start = slice data start i := by
        rw [hlast, slice_to_end]
      rw [configLoop, configLine_eq data fn hstart (by omega), hdrop,
        LineFormat.entries_last byteFormat hline]
      split
      · rw [List.foldlM_cons]
        exact (Alloc.bind_pure _).symm
      · rfl
  | succ left ih =>
      have hlt : i < data.length := by omega
      by_cases hnew : data.getD i 0 = 0x0A
      · have hdrop : data.drop start =
            slice data start i ++ 0x0A :: data.drop (i + 1) := by
          have hparts := List.take_append_drop (i - start) (data.drop start)
          rw [List.drop_drop, Nat.add_sub_cancel' hstart,
            List.drop_eq_getElem_cons hlt] at hparts
          rw [List.getD_eq_getElem?_getD, List.getElem?_eq_getElem hlt,
            Option.getD_some] at hnew
          rw [hnew] at hparts
          exact hparts.symm
        have hnext := fun st' => ih (i + 1) (i + 1) st' le_rfl (by omega)
          (by rw [slice_self]; exact List.not_mem_nil)
        rw [configLoop, if_pos hnew, configLine_eq data fn hstart (by omega),
          hdrop]
        have hfirst := byteFormat.entries_line hline (data.drop (i + 1))
        change byteFormat.entries (slice data start i ++ 0x0A :: _) = _ at hfirst
        simp only [hnext]
        rw [hfirst]
        split
        · rw [List.foldlM_cons]
        · rfl
      · rw [configLoop, if_neg hnew]
        apply ih (i + 1) start st (by omega) (by omega)
        rw [slice_succ hstart hlt, List.mem_append, List.mem_singleton]
        intro h
        rcases h with hmem | heq
        · exact hline hmem
        · exact hnew heq.symm

theorem forEachConfigLine_eq
    (data : List UInt8) (fn : σ → List UInt16 → Alloc σ) (st : σ) :
    forEachConfigLine data fn st =
      (byteEntries data).foldlM (entryStep fn) st := by
  have hbom : bomLength data ≤ data.length := by
    unfold bomLength
    split
    · omega
    · omega
  have hempty : (0x0A : UInt8) ∉ slice data (bomLength data) (bomLength data) := by
    rw [slice_self]
    exact List.not_mem_nil
  exact configLoop_eq data fn (data.length - bomLength data) (bomLength data)
    (bomLength data) st le_rfl (Nat.add_sub_cancel' hbom) hempty

end

/-! ## Entries of a UTF-8 text -/

/-- UTF-8 keeps the roles of the format apart. -/
theorem encodes_utf8 :
    Encodes String.utf8EncodeChar textFormat byteFormat where
  ne_nil := fun _ => String.utf8EncodeChar_ne_nil
  newline := rfl
  newline_iff := by
    intro c hmem
    exact eq_of_ascii_mem (d := '\n') (by decide) hmem
  comment_iff := by
    intro c
    constructor
    · intro h
      exact eq_of_ascii_mem (d := '#') (by decide) (List.mem_of_head? h)
    · intro h
      rw [h]
      rfl
  leading := by
    intro c hc
    simp only [textFormat, Bool.or_eq_true, decide_eq_true_eq] at hc
    rcases hc with rfl | rfl
    · exact ⟨0x20, rfl, rfl⟩
    · exact ⟨0x09, rfl, rfl⟩
  not_leading := by
    intro c hc a ha
    have hmem := List.mem_of_head? ha
    by_contra hspace
    simp only [byteFormat, isLeadingSpace, Bool.not_eq_false,
      Bool.or_eq_true, decide_eq_true_eq] at hspace
    rcases hspace with rfl | rfl
    · rw [eq_of_ascii_mem (d := ' ') (by decide) hmem] at hc
      cases hc
    · rw [eq_of_ascii_mem (d := '\t') (by decide) hmem] at hc
      cases hc
  trailing := by
    intro c hc
    simp only [textFormat, Bool.or_eq_true, decide_eq_true_eq] at hc
    rcases hc with (rfl | rfl) | rfl
    · exact ⟨0x20, rfl, rfl⟩
    · exact ⟨0x09, rfl, rfl⟩
    · exact ⟨0x0D, rfl, rfl⟩
  not_trailing := by
    intro c hc a ha
    have hmem := List.mem_of_getLast? ha
    by_contra hspace
    simp only [byteFormat, isTrailingSpace, Bool.not_eq_false,
      Bool.or_eq_true, decide_eq_true_eq] at hspace
    rcases hspace with (rfl | rfl) | rfl
    · rw [eq_of_ascii_mem (d := '\r') (by decide) hmem] at hc
      cases hc
    · rw [eq_of_ascii_mem (d := ' ') (by decide) hmem] at hc
      cases hc
    · rw [eq_of_ascii_mem (d := '\t') (by decide) hmem] at hc
      cases hc

theorem bomLength_utf8 (text : List Char) :
    (utf8 text).drop (bomLength (utf8 text)) = utf8 (dropBom text) := by
  cases text with
  | nil => rfl
  | cons c rest =>
      rw [utf8_cons, dropBom]
      by_cases hc : c.toNat = 0xFEFF
      · have henc : String.utf8EncodeChar c = [0xEF, 0xBB, 0xBF] := by
          have hsame : c = Char.ofNat 0xFEFF := Char.toNat_inj.mp hc
          rw [hsame]
          rfl
        have hbom : bomLength ([0xEF, 0xBB, 0xBF] ++ utf8 rest) = 3 := by
          apply if_pos
          simp
        rw [if_pos hc, henc, hbom]
        rfl
      · have hbom : bomLength (String.utf8EncodeChar c ++ utf8 rest) = 0 := by
          apply if_neg
          intro h
          obtain ⟨_, h₀, h₁, h₂⟩ := h
          rcases utf8EncodeChar_rows c with ⟨hlow, henc⟩ | ⟨_, _, henc⟩ |
            ⟨_, _, henc⟩ | ⟨_, henc⟩
          all_goals
            rw [henc] at h₀ h₁ h₂
            have n₀ := congrArg UInt8.toNat h₀
            have n₁ := congrArg UInt8.toNat h₁
            have n₂ := congrArg UInt8.toNat h₂
            simp at n₀ n₁ n₂
            omega
        rw [if_neg hc, hbom, List.drop_zero, utf8_cons]

theorem byteEntries_utf8 (text : List Char) :
    byteEntries (utf8 text) = (entries text).map utf8 := by
  rw [byteEntries, bomLength_utf8]
  exact encodes_utf8.entries (dropBom text)

end PwFilter
