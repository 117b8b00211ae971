import PwFilter.UnicodeText

/-!
# Surrogate pairs among code units

Whether a surrogate is paired can be seen from its two neighbours alone: no
unit is both high and low, so two pairs never overlap.  Reading code units as
text and encoding the text again therefore replaces the unpaired surrogates
and nothing else.
-/

namespace UnicodeText

abbrev IsSurrogate (u : UInt16) : Prop := IsHighSurrogate u ∨ IsLowSurrogate u

/-- `u` stands between `prev` and `next` and is one half of a high-low pair. -/
def Paired (prev : Option UInt16) (u : UInt16) (next : Option UInt16) : Prop :=
  (IsHighSurrogate u ∧ ∃ v ∈ next, IsLowSurrogate v) ∨
    (IsLowSurrogate u ∧ ∃ v ∈ prev, IsHighSurrogate v)

instance (prev : Option UInt16) (u : UInt16) (next : Option UInt16) :
    Decidable (Paired prev u next) := by
  unfold Paired
  infer_instance

/-- `U+FFFD` for an unpaired surrogate, any other unit unchanged. -/
def replaceUnit (prev : Option UInt16) (u : UInt16) (next : Option UInt16) :
    UInt16 :=
  if IsSurrogate u ∧ ¬ Paired prev u next then 0xFFFD else u

def replaceFrom : Option UInt16 → List UInt16 → List UInt16
  | _, [] => []
  | prev, u :: rest => replaceUnit prev u rest.head? :: replaceFrom (some u) rest

def replaceUnpaired (s : List UInt16) : List UInt16 := replaceFrom none s

/-- Every surrogate of `s` belongs to a high-low pair. -/
def WellFormedUtf16 (s : List UInt16) : Prop :=
  ∀ before u after, s = before ++ u :: after → IsSurrogate u →
    Paired before.getLast? u after.head?

theorem not_high_of_low {u : UInt16} (hlow : IsLowSurrogate u) :
    ¬ IsHighSurrogate u := by
  rw [isHighSurrogate_iff]
  rw [isLowSurrogate_iff] at hlow
  omega

theorem replaceUnit_of_not_surrogate
    {u : UInt16} (hu : ¬ IsSurrogate u) (prev next : Option UInt16) :
    replaceUnit prev u next = u :=
  if_neg fun h => hu h.1

theorem replaceUnit_of_paired
    {prev : Option UInt16} {u : UInt16} {next : Option UInt16}
    (hpaired : Paired prev u next) : replaceUnit prev u next = u :=
  if_neg fun h => h.2 hpaired

theorem replaceUnit_of_unpaired
    {prev : Option UInt16} {u : UInt16} {next : Option UInt16}
    (hu : IsSurrogate u) (hunpaired : ¬ Paired prev u next) :
    replaceUnit prev u next = 0xFFFD :=
  if_pos ⟨hu, hunpaired⟩

theorem replaceFrom_getElem?
    (prev : Option UInt16) (before : List UInt16) (u : UInt16)
    (after : List UInt16) :
    (replaceFrom prev (before ++ u :: after))[before.length]? =
      some (replaceUnit (before.getLast?.or prev) u after.head?) := by
  induction before generalizing prev with
  | nil => rfl
  | cons b before ih =>
      have hlast : before.getLast?.or (some b) =
          ((b :: before).getLast?).or prev := by
        cases hbefore : before.getLast? with
        | none => simp [List.getLast?_cons, hbefore]
        | some c => simp [List.getLast?_cons, hbefore]
      rw [List.cons_append, replaceFrom, List.length_cons,
        List.getElem?_cons_succ, ih (some b), hlast]

theorem replaceUnpaired_getElem?
    (before : List UInt16) (u : UInt16) (after : List UInt16) :
    (replaceUnpaired (before ++ u :: after))[before.length]? =
      some (replaceUnit before.getLast? u after.head?) := by
  rw [replaceUnpaired, replaceFrom_getElem?, Option.or_none]

@[simp] theorem replaceFrom_length (prev : Option UInt16) (s : List UInt16) :
    (replaceFrom prev s).length = s.length := by
  induction s generalizing prev with
  | nil => rfl
  | cons u rest ih => rw [replaceFrom, List.length_cons, ih, List.length_cons]

/-! ## Encoding what was read -/

theorem utf16EncodeChar_unitChar (u : UInt16) :
    utf16EncodeChar (unitChar u) = [if IsSurrogate u then 0xFFFD else u] := by
  have hsmall : (unitChar u).toNat < 0x10000 := by
    have hle := unitChar_toNat_le u
    omega
  rw [utf16EncodeChar, if_pos hsmall]
  by_cases hu : IsSurrogate u
  · rw [if_pos hu, unitChar, if_pos hu, replacement_toNat]
    rfl
  · rw [if_neg hu, unitChar_toNat_of_not_surrogate hu, UInt16.ofNat_toNat]

theorem utf16EncodeChar_pairChar
    {hi lo : UInt16} (hhi : IsHighSurrogate hi) (hlo : IsLowSurrogate lo) :
    utf16EncodeChar (pairChar hi lo) = [hi, lo] := by
  have hchar := pairChar_toNat hhi hlo
  rw [isHighSurrogate_iff] at hhi
  rw [isLowSurrogate_iff] at hlo
  have hbig : ¬ (pairChar hi lo).toNat < 0x10000 := by omega
  have hfirst : 0xD800 + ((pairChar hi lo).toNat - 0x10000) / 0x400 =
      hi.toNat := by omega
  have hsecond : 0xDC00 + ((pairChar hi lo).toNat - 0x10000) % 0x400 =
      lo.toNat := by omega
  rw [utf16EncodeChar, if_neg hbig]
  dsimp only
  rw [hfirst, hsecond, UInt16.ofNat_toNat, UInt16.ofNat_toNat]

/-- `prev` must not open a pair with the first unit, which is what the reader
knows when it starts on a new character. -/
theorem utf16_decodeUtf16_from
    (s : List UInt16) (prev : Option UInt16)
    (hstart : ∀ p ∈ prev, IsHighSurrogate p → ∀ u ∈ s.head?,
      ¬ IsLowSurrogate u) :
    utf16 (decodeUtf16 s) = replaceFrom prev s := by
  have hunit : ∀ (prev : Option UInt16) (u : UInt16) (next : Option UInt16),
      ¬ Paired prev u next →
        [if IsSurrogate u then (0xFFFD : UInt16) else u] =
          [replaceUnit prev u next] := by
    intro prev u next hunpaired
    by_cases hu : IsSurrogate u
    · rw [if_pos hu, replaceUnit_of_unpaired hu hunpaired]
    · rw [if_neg hu, replaceUnit_of_not_surrogate hu]
  induction s using decodeUtf16.induct generalizing prev with
  | case1 => rfl
  | case2 u =>
      have hunpaired : ¬ Paired prev u none := by
        rintro (⟨_, v, hv, _⟩ | ⟨hlow, p, hp, hhigh⟩)
        · cases hv
        · exact hstart p hp hhigh u rfl hlow
      rw [decodeUtf16_singleton, utf16_cons, utf16EncodeChar_unitChar,
        hunit prev u none hunpaired]
      rfl
  | case3 u v rest hpair ih =>
      have hhead : Paired prev u (v :: rest).head? :=
        Or.inl ⟨hpair.1, v, rfl, hpair.2⟩
      have hnext : Paired (some u) v rest.head? :=
        Or.inr ⟨hpair.2, u, rfl, hpair.1⟩
      have hrest := ih (some v) (by
        intro p hp hhigh
        cases hp
        exact absurd hhigh (not_high_of_low hpair.2))
      rw [decodeUtf16_pair hpair.1 hpair.2, utf16_cons,
        utf16EncodeChar_pairChar hpair.1 hpair.2, hrest, replaceFrom,
        replaceFrom, replaceUnit_of_paired hhead, replaceUnit_of_paired hnext]
      rfl
  | case4 u v rest hpair ih =>
      have hunpaired : ¬ Paired prev u (v :: rest).head? := by
        rintro (⟨hhigh, w, hw, hlow⟩ | ⟨hlow, p, hp, hhigh⟩)
        · cases hw
          exact hpair ⟨hhigh, hlow⟩
        · exact hstart p hp hhigh u rfl hlow
      have hrest := ih (some u) (by
        intro p hp hhigh w hw hlow
        cases hp
        cases hw
        exact hpair ⟨hhigh, hlow⟩)
      rw [decodeUtf16_unpaired hpair, utf16_cons, utf16EncodeChar_unitChar,
        hunit prev u _ hunpaired, hrest, replaceFrom]
      rfl

theorem utf16_decodeUtf16 (s : List UInt16) :
    utf16 (decodeUtf16 s) = replaceUnpaired s :=
  utf16_decodeUtf16_from s none (by simp)

/-- Two sequences read as the same text exactly when they are equal after the
replacement. -/
theorem decodeUtf16_eq_iff (s t : List UInt16) :
    decodeUtf16 s = decodeUtf16 t ↔ replaceUnpaired s = replaceUnpaired t := by
  rw [← utf16_decodeUtf16, ← utf16_decodeUtf16]
  constructor
  · intro h
    rw [h]
  · intro h
    rw [← decodeUtf16_utf16 (decodeUtf16 s), h, decodeUtf16_utf16]

end UnicodeText
