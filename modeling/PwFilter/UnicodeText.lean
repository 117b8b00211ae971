import Mathlib.Tactic

/-!
# UTF-8 and UTF-16 of Unicode text

Text is a list of Unicode scalar values, which is what `Char` is.  This file
has its two standard encodings, the lossy reading of arbitrary UTF-16 code
units (a surrogate without a partner stands for U+FFFD), and the table of
well-formed UTF-8 byte sequences.
-/

namespace UnicodeText

/-! ## UTF-8 -/

def utf8 (text : List Char) : List UInt8 :=
  text.flatMap String.utf8EncodeChar

@[simp] theorem utf8_nil : utf8 [] = [] := rfl

@[simp] theorem utf8_cons (c : Char) (text : List Char) :
    utf8 (c :: text) = String.utf8EncodeChar c ++ utf8 text := rfl

@[simp] theorem utf8_append (left right : List Char) :
    utf8 (left ++ right) = utf8 left ++ utf8 right := by
  simp [utf8]

theorem utf8EncodeChar_length_le (c : Char) :
    (String.utf8EncodeChar c).length ≤ 4 := by
  unfold String.utf8EncodeChar
  dsimp only
  split_ifs <;> simp

theorem utf8EncodeChar_length_le_three {c : Char} (hc : c.toNat ≤ 0xFFFF) :
    (String.utf8EncodeChar c).length ≤ 3 := by
  have hval : c.val.toNat ≤ 0xFFFF := hc
  unfold String.utf8EncodeChar
  dsimp only
  split_ifs <;> simp

/-- The longest prefix of a text whose encoding fits in `room` bytes. -/
def fitting : ℕ → List Char → List Char
  | _, [] => []
  | room, c :: text =>
      if (String.utf8EncodeChar c).length ≤ room then
        c :: fitting (room - (String.utf8EncodeChar c).length) text
      else []

theorem fitting_prefix (room : ℕ) (text : List Char) :
    fitting room text <+: text := by
  induction text generalizing room with
  | nil => exact List.prefix_rfl
  | cons c text ih =>
      by_cases hroom : (String.utf8EncodeChar c).length ≤ room
      · rw [fitting, if_pos hroom, List.cons_prefix_cons]
        exact ⟨rfl, ih _⟩
      · rw [fitting, if_neg hroom]
        exact List.nil_prefix

theorem utf8_fitting_length_le (room : ℕ) (text : List Char) :
    (utf8 (fitting room text)).length ≤ room := by
  induction text generalizing room with
  | nil => exact Nat.zero_le room
  | cons c text ih =>
      by_cases hroom : (String.utf8EncodeChar c).length ≤ room
      · have htail := ih (room - (String.utf8EncodeChar c).length)
        rw [fitting, if_pos hroom, utf8_cons, List.length_append]
        omega
      · rw [fitting, if_neg hroom]
        exact Nat.zero_le room

theorem prefix_fitting
    {room : ℕ} {part text : List Char} (hpart : part <+: text)
    (hfit : (utf8 part).length ≤ room) : part <+: fitting room text := by
  induction text generalizing room part with
  | nil => exact hpart
  | cons c text ih =>
      cases part with
      | nil => exact List.nil_prefix
      | cons d part =>
          obtain ⟨rfl, htail⟩ := List.cons_prefix_cons.mp hpart
          rw [utf8_cons, List.length_append] at hfit
          have hroom : (String.utf8EncodeChar d).length ≤ room := by omega
          rw [fitting, if_pos hroom, List.cons_prefix_cons]
          exact ⟨rfl, ih htail (by omega)⟩

theorem fitting_eq_self_iff (room : ℕ) (text : List Char) :
    fitting room text = text ↔ (utf8 text).length ≤ room := by
  constructor
  · intro h
    have hle := utf8_fitting_length_le room text
    rwa [h] at hle
  · intro h
    have hback := prefix_fitting List.prefix_rfl h
    have hforth := fitting_prefix room text
    exact hforth.eq_of_length (Nat.le_antisymm hforth.length_le hback.length_le)

/-! ## UTF-16 -/

abbrev IsHighSurrogate (u : UInt16) : Prop := 0xD800 ≤ u ∧ u ≤ 0xDBFF

abbrev IsLowSurrogate (u : UInt16) : Prop := 0xDC00 ≤ u ∧ u ≤ 0xDFFF

def replacement : Char := Char.ofNat 0xFFFD

def utf16EncodeChar (c : Char) : List UInt16 :=
  if c.toNat < 0x10000 then [UInt16.ofNat c.toNat]
  else
    let v := c.toNat - 0x10000
    [UInt16.ofNat (0xD800 + v / 0x400), UInt16.ofNat (0xDC00 + v % 0x400)]

def utf16 (text : List Char) : List UInt16 :=
  text.flatMap utf16EncodeChar

@[simp] theorem utf16_cons (c : Char) (text : List Char) :
    utf16 (c :: text) = utf16EncodeChar c ++ utf16 text := rfl

def pairChar (hi lo : UInt16) : Char :=
  Char.ofNat (0x10000 + (hi.toNat - 0xD800) * 0x400 + (lo.toNat - 0xDC00))

def unitChar (u : UInt16) : Char :=
  if IsHighSurrogate u ∨ IsLowSurrogate u then replacement
  else Char.ofNat u.toNat

/-- Read any code units as text: a high surrogate and the low surrogate
right after it are one character, every other surrogate is U+FFFD. -/
def decodeUtf16 : List UInt16 → List Char
  | [] => []
  | [u] => [unitChar u]
  | u :: v :: rest =>
      if IsHighSurrogate u ∧ IsLowSurrogate v then
        pairChar u v :: decodeUtf16 rest
      else unitChar u :: decodeUtf16 (v :: rest)

@[simp] theorem decodeUtf16_nil : decodeUtf16 [] = [] := rfl

@[simp] theorem decodeUtf16_singleton (u : UInt16) :
    decodeUtf16 [u] = [unitChar u] := rfl

theorem decodeUtf16_pair
    {u v : UInt16} (hu : IsHighSurrogate u) (hv : IsLowSurrogate v)
    (rest : List UInt16) :
    decodeUtf16 (u :: v :: rest) = pairChar u v :: decodeUtf16 rest := by
  simp only [decodeUtf16]
  rw [if_pos ⟨hu, hv⟩]

theorem decodeUtf16_unpaired
    {u v : UInt16} (hpair : ¬ (IsHighSurrogate u ∧ IsLowSurrogate v))
    (rest : List UInt16) :
    decodeUtf16 (u :: v :: rest) = unitChar u :: decodeUtf16 (v :: rest) := by
  simp only [decodeUtf16]
  rw [if_neg hpair]

theorem decodeUtf16_cons_of_not_high
    {u : UInt16} (hu : ¬ IsHighSurrogate u) (rest : List UInt16) :
    decodeUtf16 (u :: rest) = unitChar u :: decodeUtf16 rest := by
  cases rest with
  | nil => rfl
  | cons v rest => exact decodeUtf16_unpaired (fun h => hu h.1) rest

theorem toNat_ofNat_of_isValidChar {n : ℕ} (h : n.isValidChar) :
    (Char.ofNat n).toNat = n := by
  have hchar : Char.ofNat n = Char.ofNatAux n h := dif_pos h
  rw [hchar]
  rfl

@[simp] theorem replacement_toNat : replacement.toNat = 0xFFFD :=
  toNat_ofNat_of_isValidChar (by decide)

theorem isHighSurrogate_iff (u : UInt16) :
    IsHighSurrogate u ↔ 0xD800 ≤ u.toNat ∧ u.toNat ≤ 0xDBFF := by
  simp [IsHighSurrogate, UInt16.le_iff_toNat_le]

theorem isLowSurrogate_iff (u : UInt16) :
    IsLowSurrogate u ↔ 0xDC00 ≤ u.toNat ∧ u.toNat ≤ 0xDFFF := by
  simp [IsLowSurrogate, UInt16.le_iff_toNat_le]

theorem pairChar_toNat
    {hi lo : UInt16} (hhi : IsHighSurrogate hi) (hlo : IsLowSurrogate lo) :
    (pairChar hi lo).toNat =
      0x10000 + (hi.toNat - 0xD800) * 0x400 + (lo.toNat - 0xDC00) := by
  rw [isHighSurrogate_iff] at hhi
  rw [isLowSurrogate_iff] at hlo
  apply toNat_ofNat_of_isValidChar
  right
  constructor <;> omega

theorem unitChar_toNat_of_not_surrogate
    {u : UInt16} (hu : ¬ (IsHighSurrogate u ∨ IsLowSurrogate u)) :
    (unitChar u).toNat = u.toNat := by
  have hlt := u.toNat_lt
  rw [unitChar, if_neg hu]
  rw [isHighSurrogate_iff, isLowSurrogate_iff] at hu
  apply toNat_ofNat_of_isValidChar
  by_cases hsmall : u.toNat < 0xD800
  · exact Or.inl hsmall
  · right
    constructor <;> omega

theorem unitChar_toNat_le (u : UInt16) : (unitChar u).toNat ≤ 0xFFFF := by
  by_cases hu : IsHighSurrogate u ∨ IsLowSurrogate u
  · rw [unitChar, if_pos hu, replacement_toNat]
    norm_num
  · rw [unitChar_toNat_of_not_surrogate hu]
    have hlt := u.toNat_lt
    omega

theorem utf8_decodeUtf16_length_le (s : List UInt16) :
    (utf8 (decodeUtf16 s)).length ≤ 3 * s.length := by
  induction s using decodeUtf16.induct with
  | case1 => simp
  | case2 u =>
      have hone := utf8EncodeChar_length_le_three (unitChar_toNat_le u)
      simpa using hone
  | case3 u v rest hpair ih =>
      rw [decodeUtf16_pair hpair.1 hpair.2]
      have hfour := utf8EncodeChar_length_le (pairChar u v)
      simp only [utf8_cons, List.length_append, List.length_cons]
      omega
  | case4 u v rest hpair ih =>
      rw [decodeUtf16_unpaired hpair]
      have hone := utf8EncodeChar_length_le_three (unitChar_toNat_le u)
      simp only [utf8_cons, List.length_append, List.length_cons] at ih ⊢
      omega

/-! ## Reading back what was encoded -/

theorem char_toNat_bounds (c : Char) :
    c.toNat < 0xD800 ∨ 0xDFFF < c.toNat ∧ c.toNat < 0x110000 := c.valid

theorem decodeUtf16_encodeChar_append (c : Char) (rest : List UInt16) :
    decodeUtf16 (utf16EncodeChar c ++ rest) = c :: decodeUtf16 rest := by
  have hbounds := char_toNat_bounds c
  unfold utf16EncodeChar
  split
  next hsmall =>
    have hunit : (UInt16.ofNat c.toNat).toNat = c.toNat := by
      rw [UInt16.toNat_ofNat']
      omega
    have hnot : ¬ (IsHighSurrogate (UInt16.ofNat c.toNat) ∨
        IsLowSurrogate (UInt16.ofNat c.toNat)) := by
      rw [isHighSurrogate_iff, isLowSurrogate_iff, hunit]
      omega
    have hchar : unitChar (UInt16.ofNat c.toNat) = c := by
      rw [← Char.toNat_inj, unitChar_toNat_of_not_surrogate hnot, hunit]
    rw [List.singleton_append,
      decodeUtf16_cons_of_not_high (fun h => hnot (Or.inl h)), hchar]
  next hlarge =>
    have hhi : (UInt16.ofNat (0xD800 + (c.toNat - 0x10000) / 0x400)).toNat =
        0xD800 + (c.toNat - 0x10000) / 0x400 := by
      rw [UInt16.toNat_ofNat']
      omega
    have hlo : (UInt16.ofNat (0xDC00 + (c.toNat - 0x10000) % 0x400)).toNat =
        0xDC00 + (c.toNat - 0x10000) % 0x400 := by
      rw [UInt16.toNat_ofNat']
      omega
    have hhigh :
        IsHighSurrogate (UInt16.ofNat (0xD800 + (c.toNat - 0x10000) / 0x400)) := by
      rw [isHighSurrogate_iff, hhi]
      omega
    have hlow :
        IsLowSurrogate (UInt16.ofNat (0xDC00 + (c.toNat - 0x10000) % 0x400)) := by
      rw [isLowSurrogate_iff, hlo]
      omega
    have hchar : pairChar (UInt16.ofNat (0xD800 + (c.toNat - 0x10000) / 0x400))
        (UInt16.ofNat (0xDC00 + (c.toNat - 0x10000) % 0x400)) = c := by
      rw [← Char.toNat_inj, pairChar_toNat hhigh hlow, hhi, hlo]
      omega
    dsimp only
    rw [List.cons_append, List.singleton_append, decodeUtf16_pair hhigh hlow,
      hchar]

theorem decodeUtf16_utf16 (text : List Char) :
    decodeUtf16 (utf16 text) = text := by
  induction text with
  | nil => rfl
  | cons c text ih =>
      rw [utf16_cons, decodeUtf16_encodeChar_append, ih]

theorem utf16EncodeChar_ne_nil (c : Char) : utf16EncodeChar c ≠ [] := by
  unfold utf16EncodeChar
  split <;> simp

/-! ## Well-formed UTF-8 -/

abbrev InRange (low high b : UInt8) : Prop := low ≤ b ∧ b ≤ high

/-- The nine rows of the Unicode table of well-formed UTF-8 byte sequences:
no overlong forms, no surrogates, nothing above U+10FFFF. -/
inductive WellFormedChar : List UInt8 → Prop where
  | one {a : UInt8} : InRange 0x00 0x7F a → WellFormedChar [a]
  | two {a b : UInt8} : InRange 0xC2 0xDF a → InRange 0x80 0xBF b →
      WellFormedChar [a, b]
  | threeE0 {b c : UInt8} : InRange 0xA0 0xBF b → InRange 0x80 0xBF c →
      WellFormedChar [0xE0, b, c]
  | threeE1EC {a b c : UInt8} : InRange 0xE1 0xEC a → InRange 0x80 0xBF b →
      InRange 0x80 0xBF c → WellFormedChar [a, b, c]
  | threeED {b c : UInt8} : InRange 0x80 0x9F b → InRange 0x80 0xBF c →
      WellFormedChar [0xED, b, c]
  | threeEEEF {a b c : UInt8} : InRange 0xEE 0xEF a → InRange 0x80 0xBF b →
      InRange 0x80 0xBF c → WellFormedChar [a, b, c]
  | fourF0 {b c d : UInt8} : InRange 0x90 0xBF b → InRange 0x80 0xBF c →
      InRange 0x80 0xBF d → WellFormedChar [0xF0, b, c, d]
  | fourF1F3 {a b c d : UInt8} : InRange 0xF1 0xF3 a → InRange 0x80 0xBF b →
      InRange 0x80 0xBF c → InRange 0x80 0xBF d → WellFormedChar [a, b, c, d]
  | fourF4 {b c d : UInt8} : InRange 0x80 0x8F b → InRange 0x80 0xBF c →
      InRange 0x80 0xBF d → WellFormedChar [0xF4, b, c, d]

inductive WellFormed : List UInt8 → Prop where
  | nil : WellFormed []
  | cons {first rest : List UInt8} :
      WellFormedChar first → WellFormed rest → WellFormed (first ++ rest)

theorem inRange_iff (low high b : UInt8) :
    InRange low high b ↔ low.toNat ≤ b.toNat ∧ b.toNat ≤ high.toNat := by
  simp [InRange, UInt8.le_iff_toNat_le]

theorem uint8_eq_ofNat {b : UInt8} {n : ℕ} (h : b.toNat = n) :
    UInt8.ofNat n = b := by
  rw [← h, UInt8.ofNat_toNat]

theorem utf8EncodeChar_ofNat_one {n : ℕ} (hn : n ≤ 0x7F) :
    String.utf8EncodeChar (Char.ofNat n) = [UInt8.ofNat n] := by
  have hval : (Char.ofNat n).val.toNat = n :=
    toNat_ofNat_of_isValidChar (Or.inl (by omega))
  simp only [String.utf8EncodeChar, hval]
  rw [if_pos hn]

theorem utf8EncodeChar_ofNat_two
    {n : ℕ} (hlow : 0x7F < n) (hhigh : n ≤ 0x7FF) :
    String.utf8EncodeChar (Char.ofNat n) =
      [UInt8.ofNat (n / 64 % 32 + 0xC0), UInt8.ofNat (n % 64 + 0x80)] := by
  have hval : (Char.ofNat n).val.toNat = n :=
    toNat_ofNat_of_isValidChar (Or.inl (by omega))
  simp only [String.utf8EncodeChar, hval]
  rw [if_neg (by omega), if_pos hhigh]

theorem utf8EncodeChar_ofNat_three
    {n : ℕ} (hvalid : n.isValidChar) (hlow : 0x7FF < n) (hhigh : n ≤ 0xFFFF) :
    String.utf8EncodeChar (Char.ofNat n) =
      [UInt8.ofNat (n / 4096 % 16 + 0xE0), UInt8.ofNat (n / 64 % 64 + 0x80),
        UInt8.ofNat (n % 64 + 0x80)] := by
  have hval : (Char.ofNat n).val.toNat = n :=
    toNat_ofNat_of_isValidChar hvalid
  simp only [String.utf8EncodeChar, hval]
  rw [if_neg (by omega), if_neg (by omega), if_pos hhigh]

theorem utf8EncodeChar_ofNat_four
    {n : ℕ} (hvalid : n.isValidChar) (hlow : 0xFFFF < n) :
    String.utf8EncodeChar (Char.ofNat n) =
      [UInt8.ofNat (n / 262144 % 8 + 0xF0), UInt8.ofNat (n / 4096 % 64 + 0x80),
        UInt8.ofNat (n / 64 % 64 + 0x80), UInt8.ofNat (n % 64 + 0x80)] := by
  have hval : (Char.ofNat n).val.toNat = n :=
    toNat_ofNat_of_isValidChar hvalid
  simp only [String.utf8EncodeChar, hval]
  rw [if_neg (by omega), if_neg (by omega), if_neg (by omega)]

theorem utf8EncodeChar_rows (c : Char) :
    (c.toNat ≤ 0x7F ∧
      String.utf8EncodeChar c = [UInt8.ofNat c.toNat]) ∨
    (0x7F < c.toNat ∧ c.toNat ≤ 0x7FF ∧
      String.utf8EncodeChar c = [UInt8.ofNat (c.toNat / 64 % 32 + 0xC0),
        UInt8.ofNat (c.toNat % 64 + 0x80)]) ∨
    (0x7FF < c.toNat ∧ c.toNat ≤ 0xFFFF ∧
      String.utf8EncodeChar c = [UInt8.ofNat (c.toNat / 4096 % 16 + 0xE0),
        UInt8.ofNat (c.toNat / 64 % 64 + 0x80),
        UInt8.ofNat (c.toNat % 64 + 0x80)]) ∨
    (0xFFFF < c.toNat ∧
      String.utf8EncodeChar c = [UInt8.ofNat (c.toNat / 262144 % 8 + 0xF0),
        UInt8.ofNat (c.toNat / 4096 % 64 + 0x80),
        UInt8.ofNat (c.toNat / 64 % 64 + 0x80),
        UInt8.ofNat (c.toNat % 64 + 0x80)]) := by
  have hval : c.val.toNat = c.toNat := rfl
  simp only [String.utf8EncodeChar, hval]
  by_cases hone : c.toNat ≤ 0x7F
  · exact Or.inl ⟨hone, if_pos hone⟩
  by_cases htwo : c.toNat ≤ 0x7FF
  · rw [if_neg hone, if_pos htwo]
    exact Or.inr (Or.inl ⟨by omega, htwo, rfl⟩)
  by_cases hthree : c.toNat ≤ 0xFFFF
  · rw [if_neg hone, if_neg htwo, if_pos hthree]
    exact Or.inr (Or.inr (Or.inl ⟨by omega, hthree, rfl⟩))
  · rw [if_neg hone, if_neg htwo, if_neg hthree]
    exact Or.inr (Or.inr (Or.inr ⟨by omega, rfl⟩))

theorem utf8EncodeChar_ascii_or_high (c : Char) :
    (c.toNat ≤ 0x7F ∧
      String.utf8EncodeChar c = [UInt8.ofNat c.toNat]) ∨
    (0x7F < c.toNat ∧ ∀ b ∈ String.utf8EncodeChar c, 0x7F < b.toNat) := by
  rcases utf8EncodeChar_rows c with h | ⟨hlow, _, h⟩ | ⟨hlow, _, h⟩ | ⟨hlow, h⟩
  · exact Or.inl h
  all_goals
    refine Or.inr ⟨by omega, ?_⟩
    rw [h]
    simp only [List.forall_mem_cons, List.not_mem_nil, false_implies,
      implies_true, and_true, UInt8.toNat_ofNat']
    omega

theorem eq_of_ascii_mem
    {c d : Char} (hd : d.toNat ≤ 0x7F)
    (hmem : UInt8.ofNat d.toNat ∈ String.utf8EncodeChar c) : c = d := by
  have hbyte : (UInt8.ofNat d.toNat).toNat = d.toNat := by
    rw [UInt8.toNat_ofNat']
    omega
  rcases utf8EncodeChar_ascii_or_high c with ⟨hlow, henc⟩ | ⟨_, hall⟩
  · rw [henc, List.mem_singleton] at hmem
    have hsame := congrArg UInt8.toNat hmem
    rw [hbyte, UInt8.toNat_ofNat'] at hsame
    apply Char.toNat_inj.mp
    omega
  · have hhigh := hall _ hmem
    omega

theorem exists_char_of_three
    {a b c : UInt8} (ha : InRange 0xE0 0xEF a) (hb : InRange 0x80 0xBF b)
    (hc : InRange 0x80 0xBF c)
    (hshort : 0x7FF < (a.toNat - 0xE0) * 4096 + (b.toNat - 0x80) * 64)
    (hsurrogate : (a.toNat - 0xE0) * 4096 + (b.toNat - 0x80) * 64 < 0xD800 ∨
      0xDFFF < (a.toNat - 0xE0) * 4096 + (b.toNat - 0x80) * 64) :
    ∃ char, String.utf8EncodeChar char = [a, b, c] := by
  simp only [inRange_iff, UInt8.reduceToNat] at ha hb hc
  obtain ⟨n, hn⟩ : ∃ n, n = (a.toNat - 0xE0) * 4096 +
      (b.toNat - 0x80) * 64 + (c.toNat - 0x80) := ⟨_, rfl⟩
  have hvalid : n.isValidChar := by
    unfold Nat.isValidChar
    omega
  refine ⟨Char.ofNat n, ?_⟩
  rw [utf8EncodeChar_ofNat_three hvalid (by omega) (by omega)]
  rw [uint8_eq_ofNat (b := a) (by omega), uint8_eq_ofNat (b := b) (by omega),
    uint8_eq_ofNat (b := c) (by omega)]

theorem exists_char_of_four
    {a b c d : UInt8} (ha : InRange 0xF0 0xF4 a) (hb : InRange 0x80 0xBF b)
    (hc : InRange 0x80 0xBF c) (hd : InRange 0x80 0xBF d)
    (hshort : 0xFFFF < (a.toNat - 0xF0) * 262144 + (b.toNat - 0x80) * 4096)
    (hlarge : (a.toNat - 0xF0) * 262144 + (b.toNat - 0x80) * 4096 < 0x110000) :
    ∃ char, String.utf8EncodeChar char = [a, b, c, d] := by
  simp only [inRange_iff, UInt8.reduceToNat] at ha hb hc hd
  obtain ⟨n, hn⟩ : ∃ n, n = (a.toNat - 0xF0) * 262144 +
      (b.toNat - 0x80) * 4096 + (c.toNat - 0x80) * 64 + (d.toNat - 0x80) :=
    ⟨_, rfl⟩
  have hvalid : n.isValidChar := by
    unfold Nat.isValidChar
    omega
  refine ⟨Char.ofNat n, ?_⟩
  rw [utf8EncodeChar_ofNat_four hvalid (by omega)]
  rw [uint8_eq_ofNat (b := a) (by omega), uint8_eq_ofNat (b := b) (by omega),
    uint8_eq_ofNat (b := c) (by omega), uint8_eq_ofNat (b := d) (by omega)]

theorem WellFormedChar.exists_char
    {bytes : List UInt8} (h : WellFormedChar bytes) :
    ∃ c, String.utf8EncodeChar c = bytes := by
  cases h with
  | @one a ha =>
      simp only [inRange_iff, UInt8.reduceToNat] at ha
      refine ⟨Char.ofNat a.toNat, ?_⟩
      rw [utf8EncodeChar_ofNat_one ha.2, UInt8.ofNat_toNat]
  | @two a b ha hb =>
      simp only [inRange_iff, UInt8.reduceToNat] at ha hb
      refine ⟨Char.ofNat ((a.toNat - 0xC0) * 64 + (b.toNat - 0x80)), ?_⟩
      rw [utf8EncodeChar_ofNat_two (by omega) (by omega)]
      rw [uint8_eq_ofNat (b := a) (by omega),
        uint8_eq_ofNat (b := b) (by omega)]
  | threeE0 hb hc =>
      have hb' := hb
      simp only [inRange_iff, UInt8.reduceToNat] at hb'
      apply exists_char_of_three (by decide) _ hc
      · simp only [UInt8.reduceToNat]; omega
      · simp only [UInt8.reduceToNat]; omega
      · simp only [inRange_iff, UInt8.reduceToNat]; omega
  | threeE1EC ha hb hc =>
      have ha' := ha
      have hb' := hb
      simp only [inRange_iff, UInt8.reduceToNat] at ha' hb'
      apply exists_char_of_three _ hb hc
      · omega
      · omega
      · simp only [inRange_iff, UInt8.reduceToNat]; omega
  | threeED hb hc =>
      have hb' := hb
      simp only [inRange_iff, UInt8.reduceToNat] at hb'
      apply exists_char_of_three (by decide) _ hc
      · simp only [UInt8.reduceToNat]; omega
      · simp only [UInt8.reduceToNat]; omega
      · simp only [inRange_iff, UInt8.reduceToNat]; omega
  | threeEEEF ha hb hc =>
      have ha' := ha
      have hb' := hb
      simp only [inRange_iff, UInt8.reduceToNat] at ha' hb'
      apply exists_char_of_three _ hb hc
      · omega
      · omega
      · simp only [inRange_iff, UInt8.reduceToNat]; omega
  | fourF0 hb hc hd =>
      have hb' := hb
      simp only [inRange_iff, UInt8.reduceToNat] at hb'
      apply exists_char_of_four (by decide) _ hc hd
      · simp only [UInt8.reduceToNat]; omega
      · simp only [UInt8.reduceToNat]; omega
      · simp only [inRange_iff, UInt8.reduceToNat]; omega
  | fourF1F3 ha hb hc hd =>
      have ha' := ha
      have hb' := hb
      simp only [inRange_iff, UInt8.reduceToNat] at ha' hb'
      apply exists_char_of_four _ hb hc hd
      · omega
      · omega
      · simp only [inRange_iff, UInt8.reduceToNat]; omega
  | fourF4 hb hc hd =>
      have hb' := hb
      simp only [inRange_iff, UInt8.reduceToNat] at hb'
      apply exists_char_of_four (by decide) _ hc hd
      · simp only [UInt8.reduceToNat]; omega
      · simp only [UInt8.reduceToNat]; omega
      · simp only [inRange_iff, UInt8.reduceToNat]; omega

theorem WellFormed.exists_text
    {bytes : List UInt8} (h : WellFormed bytes) :
    ∃ text, utf8 text = bytes := by
  induction h with
  | nil => exact ⟨[], rfl⟩
  | cons hfirst _ ih =>
      obtain ⟨c, hc⟩ := hfirst.exists_char
      obtain ⟨text, htext⟩ := ih
      exact ⟨c :: text, by rw [utf8_cons, hc, htext]⟩

theorem inRange_ofNat
    {low high : UInt8} {n : ℕ} (hlow : low.toNat ≤ n) (hhigh : n ≤ high.toNat) :
    InRange low high (UInt8.ofNat n) := by
  have hlt := high.toNat_lt
  rw [inRange_iff, UInt8.toNat_ofNat', Nat.mod_eq_of_lt (by omega)]
  exact ⟨hlow, hhigh⟩

theorem wellFormedChar_utf8EncodeChar (c : Char) :
    WellFormedChar (String.utf8EncodeChar c) := by
  have hbounds := char_toNat_bounds c
  have htail : ∀ n : ℕ, InRange 0x80 0xBF (UInt8.ofNat (n % 64 + 0x80)) := by
    intro n
    apply inRange_ofNat <;> simp only [UInt8.reduceToNat] <;> omega
  rcases utf8EncodeChar_rows c with ⟨hone, henc⟩ | ⟨hlow, htwo, henc⟩ |
    ⟨hlow, hthree, henc⟩ | ⟨hlow, henc⟩
  · rw [henc]
    exact .one (inRange_ofNat (Nat.zero_le _) hone)
  · rw [henc]
    refine .two ?_ (htail _)
    apply inRange_ofNat <;> simp only [UInt8.reduceToNat] <;> omega
  · rw [henc]
    obtain hE0 | hE1EC | hED | hEEEF : c.toNat / 4096 = 0 ∨
        (1 ≤ c.toNat / 4096 ∧ c.toNat / 4096 ≤ 12) ∨ c.toNat / 4096 = 13 ∨
        (14 ≤ c.toNat / 4096 ∧ c.toNat / 4096 ≤ 15) := by omega
    · rw [hE0]
      refine .threeE0 ?_ (htail _)
      apply inRange_ofNat <;> simp only [UInt8.reduceToNat] <;> omega
    · refine .threeE1EC ?_ (htail _) (htail _)
      apply inRange_ofNat <;> simp only [UInt8.reduceToNat] <;> omega
    · rw [hED]
      refine .threeED ?_ (htail _)
      apply inRange_ofNat <;> simp only [UInt8.reduceToNat] <;> omega
    · refine .threeEEEF ?_ (htail _) (htail _)
      apply inRange_ofNat <;> simp only [UInt8.reduceToNat] <;> omega
  · rw [henc]
    obtain hF0 | hF1F3 | hF4 : c.toNat / 262144 = 0 ∨
        (1 ≤ c.toNat / 262144 ∧ c.toNat / 262144 ≤ 3) ∨
        c.toNat / 262144 = 4 := by omega
    · rw [hF0]
      refine .fourF0 ?_ (htail _) (htail _)
      apply inRange_ofNat <;> simp only [UInt8.reduceToNat] <;> omega
    · refine .fourF1F3 ?_ (htail _) (htail _) (htail _)
      apply inRange_ofNat <;> simp only [UInt8.reduceToNat] <;> omega
    · rw [hF4]
      refine .fourF4 ?_ (htail _) (htail _)
      apply inRange_ofNat <;> simp only [UInt8.reduceToNat] <;> omega

theorem wellFormed_utf8 (text : List Char) : WellFormed (utf8 text) := by
  induction text with
  | nil => exact .nil
  | cons c text ih => exact .cons (wellFormedChar_utf8EncodeChar c) ih

end UnicodeText
