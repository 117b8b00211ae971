import Mathlib.Data.List.DropRight
import Mathlib.Tactic

/-!
# Entries of a line-based file

A format names its newline, its comment mark and the blanks it trims.  The
entries of a file are its lines, trimmed, without the empty ones and the
comments.  An encoding that keeps these roles apart maps the entries of a text
to the entries of the encoded text.
-/

namespace LineEntries

variable {α β : Type}

structure LineFormat (α : Type) where
  newline : α
  comment : α
  leading : α → Bool
  trailing : α → Bool

namespace LineFormat

def trim (fmt : LineFormat α) (line : List α) : List α :=
  (line.rdropWhile fmt.trailing).dropWhile fmt.leading

variable [DecidableEq α]

def keeps (fmt : LineFormat α) (line : List α) : Bool :=
  decide (line ≠ [] ∧ line.head? ≠ some fmt.comment)

def entries (fmt : LineFormat α) (file : List α) : List (List α) :=
  ((file.splitOn fmt.newline).map fmt.trim).filter fmt.keeps

theorem ne_nil_of_mem_entries
    {fmt : LineFormat α} {file entry : List α}
    (hentry : entry ∈ fmt.entries file) : entry ≠ [] := by
  have hkeeps := (List.mem_filter.mp hentry).2
  rw [keeps, decide_eq_true_eq] at hkeeps
  exact hkeeps.1

theorem entries_line
    (fmt : LineFormat α) {line : List α} (hline : fmt.newline ∉ line)
    (rest : List α) :
    fmt.entries (line ++ fmt.newline :: rest) =
      if fmt.keeps (fmt.trim line) then fmt.trim line :: fmt.entries rest
      else fmt.entries rest := by
  rw [entries, List.splitOn_append_cons_self_of_not_mem hline, List.map_cons,
    List.filter_cons]
  rfl

theorem entries_last
    (fmt : LineFormat α) {line : List α} (hline : fmt.newline ∉ line) :
    fmt.entries line =
      if fmt.keeps (fmt.trim line) then [fmt.trim line] else [] := by
  rw [entries, List.splitOn_eq_singleton hline, List.map_cons, List.map_nil,
    List.filter_cons, List.filter_nil]

end LineFormat

/-! ## Encodings -/

/-- The encoding of a symbol is never empty, keeps the newline and the comment
mark apart from all else, and starts and ends with a blank only if it is one
blank. -/
structure Encodes (enc : β → List α) (outer : LineFormat β)
    (inner : LineFormat α) : Prop where
  ne_nil : ∀ b, enc b ≠ []
  newline : enc outer.newline = [inner.newline]
  newline_iff : ∀ b, inner.newline ∈ enc b → b = outer.newline
  comment_iff : ∀ b, (enc b).head? = some inner.comment ↔ b = outer.comment
  leading : ∀ b, outer.leading b = true → ∃ a, enc b = [a] ∧
    inner.leading a = true
  not_leading : ∀ b, outer.leading b = false → ∀ a ∈ (enc b).head?,
    inner.leading a = false
  trailing : ∀ b, outer.trailing b = true → ∃ a, enc b = [a] ∧
    inner.trailing a = true
  not_trailing : ∀ b, outer.trailing b = false → ∀ a ∈ (enc b).getLast?,
    inner.trailing a = false

namespace Encodes

variable {enc : β → List α} {outer : LineFormat β} {inner : LineFormat α}

theorem dropWhile_leading
    (henc : Encodes enc outer inner) (line : List β) :
    (line.flatMap enc).dropWhile inner.leading =
      (line.dropWhile outer.leading).flatMap enc := by
  induction line with
  | nil => rfl
  | cons b line ih =>
      rw [List.flatMap_cons]
      cases hb : outer.leading b with
      | true =>
          obtain ⟨a, ha, hlead⟩ := henc.leading b hb
          rw [ha, List.singleton_append, List.dropWhile_cons_of_pos hlead,
            List.dropWhile_cons_of_pos hb, ih]
      | false =>
          have hhead := henc.not_leading b hb
          have hneg : ¬ outer.leading b = true := by simp [hb]
          rw [List.dropWhile_cons_of_neg hneg, List.flatMap_cons]
          cases h : enc b with
          | nil => exact absurd h (henc.ne_nil b)
          | cons a more =>
              rw [h] at hhead
              have ha := hhead a rfl
              rw [List.cons_append,
                List.dropWhile_cons_of_neg (by simp [ha])]

theorem rdropWhile_trailing
    (henc : Encodes enc outer inner) (line : List β) :
    (line.flatMap enc).rdropWhile inner.trailing =
      (line.rdropWhile outer.trailing).flatMap enc := by
  induction line using List.reverseRecOn with
  | nil => rfl
  | append_singleton line b ih =>
      rw [List.flatMap_append, List.flatMap_singleton]
      cases hb : outer.trailing b with
      | true =>
          obtain ⟨a, ha, htrail⟩ := henc.trailing b hb
          rw [ha, List.rdropWhile_concat_pos _ _ _ htrail,
            List.rdropWhile_concat_pos _ _ _ hb, ih]
      | false =>
          have hlast := henc.not_trailing b hb
          have hneg : ¬ outer.trailing b = true := by simp [hb]
          rw [List.rdropWhile_concat_neg _ _ _ hneg, List.flatMap_append,
            List.flatMap_singleton]
          obtain ⟨more, a, h⟩ :=
            (List.eq_nil_or_concat (enc b)).resolve_left (henc.ne_nil b)
          rw [h, List.concat_eq_append] at hlast ⊢
          have ha := hlast a (by simp)
          rw [← List.append_assoc,
            List.rdropWhile_concat_neg _ _ _ (by simp [ha])]

theorem trim
    (henc : Encodes enc outer inner) (line : List β) :
    inner.trim (line.flatMap enc) = (outer.trim line).flatMap enc := by
  rw [LineFormat.trim, LineFormat.trim, henc.rdropWhile_trailing,
    henc.dropWhile_leading]

variable [DecidableEq α] [DecidableEq β]

theorem keeps
    (henc : Encodes enc outer inner) (line : List β) :
    inner.keeps (line.flatMap enc) = outer.keeps line := by
  cases line with
  | nil => rfl
  | cons b line =>
      have hne : (b :: line).flatMap enc ≠ [] := by
        rw [List.flatMap_cons]
        exact List.append_ne_nil_of_left_ne_nil (henc.ne_nil b) _
      have hhead : ((b :: line).flatMap enc).head? = (enc b).head? := by
        rw [List.flatMap_cons]
        exact List.head?_append_of_ne_nil (enc b) (henc.ne_nil b)
      have hcomment := henc.comment_iff b
      simp only [LineFormat.keeps, hhead, ne_eq, hne, not_false_eq_true,
        true_and, hcomment, List.head?_cons, Option.some.injEq,
        List.cons_ne_nil]

/-- The entries of an encoded text are the encoded entries of the text. -/
theorem entries
    (henc : Encodes enc outer inner) (text : List β) :
    inner.entries (text.flatMap enc) =
      (outer.entries text).map fun entry => entry.flatMap enc := by
  have hplain : ∀ line : List β, outer.newline ∉ line →
      inner.newline ∉ line.flatMap enc := by
    intro line hline hmem
    obtain ⟨b, hb, ha⟩ := List.mem_flatMap.mp hmem
    exact hline (henc.newline_iff b ha ▸ hb)
  -- on the length: the tail after the first newline is shorter
  induction h : text.length using Nat.strong_induction_on generalizing text with
  | _ n ih =>
      by_cases hnew : outer.newline ∈ text
      · obtain ⟨line, rest, rfl, hline⟩ := List.eq_append_cons_of_mem hnew
        have hshort : rest.length < n := by
          rw [← h, List.length_append, List.length_cons]
          omega
        rw [List.flatMap_append, List.flatMap_cons, henc.newline,
          List.singleton_append, LineFormat.entries_line inner
            (hplain line hline), LineFormat.entries_line outer hline,
          henc.trim, henc.keeps, ih rest.length hshort rest rfl]
        split
        · rfl
        · rfl
      · rw [LineFormat.entries_last inner (hplain text hnew),
          LineFormat.entries_last outer hnew, henc.trim, henc.keeps]
        split
        · rfl
        · rfl

end Encodes

end LineEntries
