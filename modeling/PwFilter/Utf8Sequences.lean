import PwFilter.SurrogatePairs
import PwFilter.SyncCode
import PwFilter.Utf

/-!
# The decoder as a scanner

`Utf8ToUtf16` divides its input into complete sequences, bytes it skips and at
most one sequence that the input cuts off.  A sequence is what a lead byte
announces, whatever it encodes: overlong forms, surrogates and values above
U+10FFFF are sequences too, and the decoder emits their value.
-/

namespace PwFilter

open SyncCode UnicodeText

/-! ## Lead and continuation bytes -/

def isContinuation (c : UInt8) : Bool := c >>> 6 == 0x2

/-- How many continuation bytes a lead byte announces. -/
def announced (c : UInt8) : Option ℕ := (leadByte c).map Prod.snd

theorem isContinuation_iff (c : UInt8) :
    isContinuation c = true ↔ c.toNat / 64 = 2 := by
  rw [isContinuation, beq_iff_eq]
  exact shiftRight_eq_iff c 6 2 (by norm_num) (by norm_num)

theorem isContinuation_of_announced
    (c : UInt8) (n : ℕ) (hc : announced c = some n) :
    isContinuation c = false := by
  rw [announced, leadByte_eq] at hc
  rw [Bool.eq_false_iff, ne_eq, isContinuation_iff]
  intro hcont
  rw [if_neg (by omega), if_neg (by omega), if_neg (by omega),
    if_neg (by omega)] at hc
  cases hc

def utf8Code : Code UInt8 :=
  { announced := announced
    isCont := isContinuation
    lead_not_cont := isContinuation_of_announced }

/-- The value of a lead byte with exactly the continuation bytes it
announces. -/
def sequenceValue : List UInt8 → Option UInt32
  | [] => none
  | c :: rest =>
      match leadByte c with
      | none => none
      | some (cp, extra) =>
          if rest.length = extra then continuation extra cp rest else none

theorem continuation_append
    {extra : ℕ} {tail : List UInt8} (htail : extra ≤ tail.length) (cp : UInt32)
    (rest : List UInt8) :
    continuation extra cp (tail ++ rest) = continuation extra cp tail := by
  induction extra generalizing cp tail with
  | zero => rw [continuation_zero, continuation_zero]
  | succ extra ih =>
      cases tail with
      | nil =>
          rw [List.length_nil] at htail
          omega
      | cons cc tail =>
          rw [List.length_cons] at htail
          have hnext := ih (show extra ≤ tail.length by omega)
          simp only [List.cons_append, continuation, hnext]

theorem continuation_isSome
    {extra : ℕ} {rest : List UInt8} (hrest : extra ≤ rest.length)
    (cp : UInt32) :
    (continuation extra cp rest).isSome = (rest.take extra).all isContinuation := by
  induction extra generalizing cp rest with
  | zero => rw [continuation_zero]; rfl
  | succ extra ih =>
      cases rest with
      | nil =>
          rw [List.length_nil] at hrest
          omega
      | cons cc rest =>
          rw [List.length_cons] at hrest
          rw [List.take_succ_cons, List.all_cons, continuation]
          by_cases hcc : cc >>> 6 = 0x2
          · rw [if_neg (not_not.mpr hcc), ih (by omega)]
            simp [isContinuation, hcc]
          · rw [if_pos hcc]
            simp [isContinuation, hcc]

theorem isSequence_iff (s : List UInt8) :
    utf8Code.IsSequence s ↔ ∃ cp, sequenceValue s = some cp := by
  cases s with
  | nil =>
      simp only [Code.IsSequence, sequenceValue]
      simp
  | cons c rest =>
      have hunfold : utf8Code.IsSequence (c :: rest) ↔
          announced c = some rest.length ∧
            ∀ b ∈ rest, isContinuation b = true := by
        simp [Code.IsSequence, utf8Code]
      rw [hunfold, announced, sequenceValue]
      cases hlead : leadByte c with
      | none => simp
      | some lead =>
          obtain ⟨cp, extra⟩ := lead
          by_cases hextra : rest.length = extra
          · have hsome := continuation_isSome (le_of_eq hextra.symm) cp
            rw [List.take_of_length_le (le_of_eq hextra)] at hsome
            simp only [Option.map_some, hextra, if_true, true_and]
            rw [← List.all_eq_true, ← hsome, Option.isSome_iff_exists]
          · have hne : ¬ extra = rest.length := fun h => hextra h.symm
            simp [hextra, hne]

/-! ## Values of sequences -/

theorem continuation_lt
    {extra n : ℕ} {rest : List UInt8} {v : UInt32}
    (hn : (n + 1) * 64 ^ extra ≤ 2 ^ 32)
    (hv : continuation extra (UInt32.ofNat n) rest = some v) :
    v.toNat < (n + 1) * 64 ^ extra := by
  induction extra generalizing n rest with
  | zero =>
      rw [continuation_zero, Option.some.injEq] at hv
      rw [pow_zero, Nat.mul_one] at hn ⊢
      rw [← hv, UInt32.toNat_ofNat', Nat.mod_eq_of_lt (by omega)]
      omega
  | succ extra ih =>
      have hpow : 0 < 64 ^ extra := by positivity
      have hexpand : (n + 1) * 64 ^ (extra + 1) =
          (n * 64 + 63 + 1) * 64 ^ extra := by ring
      rw [hexpand] at hn ⊢
      cases rest with
      | nil => cases hv
      | cons cc rest =>
          by_cases hcc : cc.toNat / 64 = 2
          · have hlow : cc.toNat % 64 < 64 := Nat.mod_lt _ (by norm_num)
            have hmono : (n * 64 + cc.toNat % 64 + 1) * 64 ^ extra ≤
                (n * 64 + 63 + 1) * 64 ^ extra :=
              Nat.mul_le_mul_right _ (by omega)
            have hsmall : n * 64 + 63 + 1 ≤ 2 ^ 32 :=
              le_trans (Nat.le_mul_of_pos_right _ hpow) hn
            rw [continuation_cons extra rest (by omega) hcc] at hv
            exact lt_of_lt_of_le (ih (hmono.trans hn) hv) hmono
          · have hbad : cc >>> 6 ≠ 0x2 := fun h => hcc
              ((shiftRight_eq_iff cc 6 2 (by norm_num) (by norm_num)).mp h)
            rw [continuation, if_pos hbad] at hv
            cases hv

/-- How many payload bits a lead byte has goes with what it announces. -/
theorem leadByte_bounds
    {c : UInt8} {cp : UInt32} {extra : ℕ} (hc : leadByte c = some (cp, extra)) :
    ∃ n, cp = UInt32.ofNat n ∧
      ((extra = 0 ∧ n < 0x80) ∨ (extra = 1 ∧ n < 0x20) ∨
        (extra = 2 ∧ n < 0x10) ∨ (extra = 3 ∧ n < 0x8)) := by
  rw [leadByte_eq] at hc
  split_ifs at hc
  all_goals
    cases hc
    exact ⟨_, rfl, by omega⟩

/-- How large a value can be goes with the length of the sequence. -/
theorem sequenceValue_lt
    {s : List UInt8} {v : UInt32} (hs : sequenceValue s = some v) :
    (s.length = 1 ∧ v.toNat < 0x80) ∨ (s.length = 2 ∧ v.toNat < 0x800) ∨
      (s.length = 3 ∧ v.toNat < 0x10000) ∨
      (s.length = 4 ∧ v.toNat < 0x200000) := by
  cases s with
  | nil => cases hs
  | cons c rest =>
      rw [sequenceValue] at hs
      cases hlead : leadByte c with
      | none =>
          rw [hlead] at hs
          cases hs
      | some lead =>
          obtain ⟨cp, extra⟩ := lead
          obtain ⟨n, rfl, hn⟩ := leadByte_bounds hlead
          simp only [hlead, Option.ite_none_right_eq_some] at hs
          obtain ⟨hlength, hvalue⟩ := hs
          rw [List.length_cons, hlength]
          rcases hn with ⟨rfl, hn⟩ | ⟨rfl, hn⟩ | ⟨rfl, hn⟩ | ⟨rfl, hn⟩
          all_goals
            have hlt := continuation_lt (by omega) hvalue
            omega

theorem announced_le_three {c : UInt8} {n : ℕ} (hc : announced c = some n) :
    n ≤ 3 := by
  obtain ⟨⟨cp, extra⟩, hlead, rfl⟩ := Option.map_eq_some_iff.mp hc
  obtain ⟨_, _, hn⟩ := leadByte_bounds hlead
  simp only
  omega

/-! ## What the decoder emits -/

def pieceValue : Piece UInt8 → UInt32
  | .sequence lead tail => (sequenceValue (lead :: tail)).getD 0xFFFD
  | .stray _ => 0xFFFD
  | .cut _ => 0xFFFD

def pieceUnits (piece : Piece UInt8) : List UInt16 :=
  emitUtf16 (pieceValue piece)

theorem utf8ToUtf16Loop_nil (fuel : ℕ) : utf8ToUtf16Loop fuel [] = [] := by
  cases fuel <;> rfl

theorem utf8ToUtf16Loop_step (fuel : ℕ) (c : UInt8) (rest : List UInt8) :
    utf8ToUtf16Loop (fuel + 1) (c :: rest) =
      pieceUnits (utf8Code.first c rest) ++
        utf8ToUtf16Loop fuel
          (rest.drop ((utf8Code.first c rest).elems.length - 1)) := by
  have hannounced : utf8Code.announced c = (leadByte c).map Prod.snd := rfl
  rw [utf8ToUtf16Loop]
  cases hlead : leadByte c with
  | none =>
      rw [hlead] at hannounced
      have hfirst : utf8Code.first c rest = .stray c := by
        simp only [Code.first, hannounced, Option.map_none]
      rw [hfirst]
      rfl
  | some lead =>
      obtain ⟨cp, extra⟩ := lead
      rw [hlead, Option.map_some] at hannounced
      by_cases hshort : rest.length < extra
      · have hfirst : utf8Code.first c rest = .cut (c :: rest) := by
          simp only [Code.first, hannounced, if_pos hshort]
        have hdrop : rest.drop ((SyncCode.Piece.cut (c :: rest)).elems.length - 1) =
            [] := List.drop_length
        rw [hfirst, hdrop, utf8ToUtf16Loop_nil, List.append_nil]
        simp only [if_pos hshort]
        rfl
      · have hlong : extra ≤ rest.length := Nat.le_of_not_lt hshort
        have hlength : (rest.take extra).length = extra := by
          rw [List.length_take]
          omega
        have hsome := continuation_isSome hlong cp
        have hcut := continuation_append (le_of_eq hlength.symm) cp
          (rest.drop extra)
        rw [List.take_append_drop] at hcut
        simp only [if_neg hshort]
        cases hvalue : continuation extra cp rest with
        | none =>
            rw [hvalue, Option.isSome_none] at hsome
            have hfirst : utf8Code.first c rest = .stray c := by
              simp only [Code.first, hannounced, if_neg hshort]
              rw [if_neg]
              exact fun h => Bool.false_ne_true (hsome.trans h)
            rw [hfirst]
            rfl
        | some v =>
            rw [hvalue, Option.isSome_some] at hsome
            have hfirst : utf8Code.first c rest =
                .sequence c (rest.take extra) := by
              simp only [Code.first, hannounced, if_neg hshort]
              rw [if_pos]
              exact hsome.symm
            have hunits : pieceUnits (.sequence c (rest.take extra)) =
                emitUtf16 v := by
              rw [pieceUnits, pieceValue, sequenceValue]
              simp only [hlead, hlength, if_true, ← hcut, hvalue,
                Option.getD_some]
            rw [hfirst, hunits, SyncCode.Piece.elems, List.length_cons, hlength,
              Nat.add_sub_cancel]

/-- The decoder emits one value for each piece of its input. -/
theorem utf8ToUtf16_eq_pieces (b : List UInt8) :
    utf8ToUtf16 b = (utf8Code.pieces b).flatMap pieceUnits := by
  have hloop : ∀ (fuel : ℕ) (b : List UInt8), b.length ≤ fuel →
      utf8ToUtf16Loop fuel b = (utf8Code.pieces b).flatMap pieceUnits := by
    intro fuel
    induction fuel with
    | zero =>
        intro b hb
        rw [List.eq_nil_of_length_eq_zero (Nat.le_zero.mp hb), Code.pieces_nil]
        rfl
    | succ fuel ih =>
        intro b hb
        cases b with
        | nil => rw [utf8ToUtf16Loop_nil, Code.pieces_nil]; rfl
        | cons c rest =>
            rw [List.length_cons] at hb
            rw [utf8ToUtf16Loop_step, Code.pieces, List.flatMap_cons, ih]
            rw [List.length_drop]
            omega
  exact hloop b.length b le_rfl

theorem mem_emitUtf16_replacement
    {cp : UInt32} (hcp : cp.toNat < 0x200000) :
    0xFFFD ∈ emitUtf16 cp ↔ cp.toNat = 0xFFFD := by
  have hunit : UInt16.toNat 0xFFFD = 0xFFFD := rfl
  by_cases hsmall : cp.toNat ≤ 0xFFFF
  · rw [emitUtf16_small hsmall, List.mem_singleton, ← UInt16.toNat_inj,
      UInt16.toNat_ofNat', hunit]
    omega
  · rw [emitUtf16_large (by omega) hcp, List.mem_pair, ← UInt16.toNat_inj,
      ← UInt16.toNat_inj, UInt16.toNat_ofNat', UInt16.toNat_ofNat', hunit]
    omega

end PwFilter
