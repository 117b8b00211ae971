import PwFilter.ByteMemory
import PwFilter.UnicodeText

/-!
# Conversion between UTF-16 and UTF-8

Windows hands passwords over as UTF-16 code units, the breach corpus is
hashed over UTF-8, and the configuration files are UTF-8.  The three
conversions are translated here and compared with the standard encodings.
`none` as the result of the bounded form is its `SIZE_MAX`.
-/

namespace PwFilter

open ByteMemory UnicodeText

/-! ## UTF-16 to UTF-8 -/

def utf8Len (cp : UInt32) : ℕ :=
  if cp < 0x80 then 1
  else if cp < 0x800 then 2
  else if cp < 0x10000 then 3
  else 4

def utf8Encode (cp : UInt32) : List UInt8 :=
  if cp < 0x80 then
    [cp.toUInt8]
  else if cp < 0x800 then
    [((0xC0 : UInt32) ||| (cp >>> 6)).toUInt8,
      ((0x80 : UInt32) ||| (cp &&& 0x3F)).toUInt8]
  else if cp < 0x10000 then
    [((0xE0 : UInt32) ||| (cp >>> 12)).toUInt8,
      ((0x80 : UInt32) ||| ((cp >>> 6) &&& 0x3F)).toUInt8,
      ((0x80 : UInt32) ||| (cp &&& 0x3F)).toUInt8]
  else
    [((0xF0 : UInt32) ||| (cp >>> 18)).toUInt8,
      ((0x80 : UInt32) ||| ((cp >>> 12) &&& 0x3F)).toUInt8,
      ((0x80 : UInt32) ||| ((cp >>> 6) &&& 0x3F)).toUInt8,
      ((0x80 : UInt32) ||| (cp &&& 0x3F)).toUInt8]

def feed {σ : Type} (emit : σ → List UInt8 → ℕ → σ × Bool)
    (cp : UInt32) (s : σ) (next : σ → σ × Bool) : σ × Bool :=
  let r := emit s (utf8Encode cp) (utf8Len cp)
  if r.2 then next r.1 else (r.1, false)

/-- `ForEachUtf8`: decode UTF-16 and feed each code point's bytes to `emit`,
which carries the state `s` and returns `false` to stop early. -/
def forEachUtf8 {σ : Type} (emit : σ → List UInt8 → ℕ → σ × Bool) :
    List UInt16 → σ → σ × Bool
  | [], s => (s, true)
  | u :: rest, s =>
      if 0xD800 ≤ u ∧ u ≤ 0xDBFF then
        match rest with
        | v :: after =>
            if 0xDC00 ≤ v ∧ v ≤ 0xDFFF then
              feed emit
                ((0x10000 : UInt32) + (((u - 0xD800).toUInt32 <<< 10) |||
                  (v - 0xDC00).toUInt32))
                s (forEachUtf8 emit after)
            else feed emit 0xFFFD s (forEachUtf8 emit (v :: after))
        | [] => feed emit 0xFFFD s (forEachUtf8 emit [])
      else if 0xDC00 ≤ u ∧ u ≤ 0xDFFF then
        feed emit 0xFFFD s (forEachUtf8 emit rest)
      else feed emit u.toUInt32 s (forEachUtf8 emit rest)

def storeBytes : List UInt8 → ℕ → List UInt8 → List UInt8 × ℕ
  | out, n, [] => (out, n)
  | out, n, b :: rest => storeBytes (out.set n b) (n + 1) rest

def emitBounded (outCap : ℕ) (s : List UInt8 × ℕ) (b : List UInt8) (len : ℕ) :
    (List UInt8 × ℕ) × Bool :=
  if s.2 + len > outCap then (s, false)
  else (storeBytes s.1 s.2 (b.take len), true)

def utf16ToUtf8Bounded (input : List UInt16) (out : List UInt8) (outCap : ℕ) :
    Option ℕ × List UInt8 :=
  let r := forEachUtf8 (emitBounded outCap) input (out, 0)
  (if r.2 then some r.1.2 else none, r.1.1)

def emitAppend (s : List UInt8) (b : List UInt8) (len : ℕ) :
    List UInt8 × Bool :=
  (s ++ b.take len, true)

def utf16ToUtf8 (input : List UInt16) : List UInt8 :=
  (forEachUtf8 emitAppend input []).1

/-! ## UTF-8 to UTF-16 -/

/-- The lead byte: the bits it contributes and how many bytes follow it. -/
def leadByte (c : UInt8) : Option (UInt32 × ℕ) :=
  if c < 0x80 then some (c.toUInt32, 0)
  else if c >>> 5 = 0x6 then some ((c &&& 0x1F).toUInt32, 1)
  else if c >>> 4 = 0xE then some ((c &&& 0x0F).toUInt32, 2)
  else if c >>> 3 = 0x1E then some ((c &&& 0x07).toUInt32, 3)
  else none

/-- The loop over the `extra` continuation bytes; `none` when one is bad. -/
def continuation : ℕ → UInt32 → List UInt8 → Option UInt32
  | 0, cp, _ => some cp
  | _ + 1, _, [] => none
  | extra + 1, cp, cc :: rest =>
      if cc >>> 6 ≠ 0x2 then none
      else continuation extra ((cp <<< 6) ||| (cc &&& 0x3F).toUInt32) rest

def emitUtf16 (cp : UInt32) : List UInt16 :=
  if cp > 0xFFFF then
    let v := cp - 0x10000
    [((0xD800 : UInt32) + (v >>> 10)).toUInt16,
      ((0xDC00 : UInt32) + (v &&& 0x3FF)).toUInt16]
  else [cp.toUInt16]

/-- The `while` loop of `Utf8ToUtf16` over the bytes that are left; every
round consumes at least one of them, so their number is fuel enough. -/
def utf8ToUtf16Loop : ℕ → List UInt8 → List UInt16
  | 0, _ => []
  | _ + 1, [] => []
  | fuel + 1, c :: rest =>
      match leadByte c with
      | none => emitUtf16 0xFFFD ++ utf8ToUtf16Loop fuel rest
      | some (cp, extra) =>
          if rest.length < extra then emitUtf16 0xFFFD
          else
            match continuation extra cp rest with
            | none => emitUtf16 0xFFFD ++ utf8ToUtf16Loop fuel rest
            | some cp =>
                emitUtf16 cp ++ utf8ToUtf16Loop fuel (rest.drop extra)

def utf8ToUtf16 (input : List UInt8) : List UInt16 :=
  utf8ToUtf16Loop input.length input

example : utf16ToUtf8 [0x61, 0xD83D, 0xDE00, 0xDC00] =
    [0x61, 0xF0, 0x9F, 0x98, 0x80, 0xEF, 0xBF, 0xBD] := by decide

/-! ## The encoder's bit arithmetic -/

theorem or_low_bits {i a b : ℕ} (hb : b < 2 ^ i) :
    (2 ^ i * a ||| b) = 2 ^ i * a + b :=
  (Nat.two_pow_add_eq_or_of_lt hb a).symm

theorem markedByte_eq
    (x : UInt32) (mark i a : ℕ) (hmark : mark = 2 ^ i * a)
    (hmarkLt : mark < 2 ^ 32) (hlow : x.toNat < 2 ^ i) :
    (UInt32.ofNat mark ||| x).toUInt8 = UInt8.ofNat (x.toNat + mark) := by
  rw [← UInt8.toNat_inj]
  simp only [UInt32.toNat_toUInt8, UInt32.toNat_or, UInt8.toNat_ofNat',
    UInt32.toNat_ofNat']
  rw [Nat.mod_eq_of_lt hmarkLt, hmark, or_low_bits hlow, Nat.add_comm]

theorem continuationByte_eq (x : UInt32) :
    ((0x80 : UInt32) ||| (x &&& 0x3F)).toUInt8 =
      UInt8.ofNat (x.toNat % 64 + 0x80) := by
  have hlow : (x &&& 0x3F).toNat = x.toNat % 64 := by
    rw [UInt32.toNat_and]
    exact Nat.and_two_pow_sub_one_eq_mod x.toNat 6
  have hmarked := markedByte_eq (x &&& 0x3F) 0x80 6 2
    (by norm_num) (by norm_num) (by omega)
  rw [hlow] at hmarked
  exact hmarked

theorem shiftRight_six (cp : UInt32) : (cp >>> 6).toNat = cp.toNat / 64 := by
  simp [UInt32.toNat_shiftRight, Nat.shiftRight_eq_div_pow]

theorem shiftRight_twelve (cp : UInt32) : (cp >>> 12).toNat = cp.toNat / 4096 := by
  simp [UInt32.toNat_shiftRight, Nat.shiftRight_eq_div_pow]

theorem shiftRight_eighteen (cp : UInt32) : (cp >>> 18).toNat = cp.toNat / 262144 := by
  simp [UInt32.toNat_shiftRight, Nat.shiftRight_eq_div_pow]

theorem utf8Encode_char (c : Char) :
    utf8Encode c.val = String.utf8EncodeChar c := by
  have hbounds := char_toNat_bounds c
  unfold Char.toNat at hbounds
  unfold utf8Encode String.utf8EncodeChar
  simp only [UInt32.lt_iff_toNat_lt, UInt32.reduceToNat, continuationByte_eq,
    shiftRight_six, shiftRight_twelve]
  by_cases hone : c.val.toNat < 0x80
  · have hone' : c.val.toNat ≤ 0x7F := by omega
    simp only [hone, hone', if_true]
    exact congrArg (fun b => [b]) (UInt8.ofNat_uInt32ToNat c.val).symm
  have hone' : ¬ c.val.toNat ≤ 0x7F := by omega
  by_cases htwo : c.val.toNat < 0x800
  · have htwo' : c.val.toNat ≤ 0x7FF := by omega
    have hlead := markedByte_eq (c.val >>> 6) 0xC0 6 3
      (by norm_num) (by norm_num) (by rw [shiftRight_six]; omega)
    rw [shiftRight_six] at hlead
    have hmod : c.val.toNat / 64 % 0x20 = c.val.toNat / 64 := by omega
    simp only [hone, hone', htwo, htwo', if_true, if_false, hmod]
    rw [← hlead]
    rfl
  have htwo' : ¬ c.val.toNat ≤ 0x7FF := by omega
  by_cases hthree : c.val.toNat < 0x10000
  · have hthree' : c.val.toNat ≤ 0xFFFF := by omega
    have hlead := markedByte_eq (c.val >>> 12) 0xE0 5 7
      (by norm_num) (by norm_num) (by rw [shiftRight_twelve]; omega)
    rw [shiftRight_twelve] at hlead
    have hmod : c.val.toNat / 4096 % 0x10 = c.val.toNat / 4096 := by omega
    simp only [hone, hone', htwo, htwo', hthree, hthree', if_true, if_false,
      hmod]
    rw [← hlead]
    rfl
  · have hthree' : ¬ c.val.toNat ≤ 0xFFFF := by omega
    have hlead := markedByte_eq (c.val >>> 18) 0xF0 4 15
      (by norm_num) (by norm_num) (by rw [shiftRight_eighteen]; omega)
    rw [shiftRight_eighteen] at hlead
    have hmod : c.val.toNat / 262144 % 0x08 = c.val.toNat / 262144 := by omega
    simp only [hone, hone', htwo, htwo', hthree, hthree', if_false, hmod]
    rw [← hlead]
    rfl

theorem utf8Len_char (c : Char) :
    utf8Len c.val = (String.utf8EncodeChar c).length := by
  rw [← utf8Encode_char]
  unfold utf8Len utf8Encode
  split_ifs <;> rfl

/-! ## The loop over code units -/

def feedAll {σ : Type} (emit : σ → List UInt8 → ℕ → σ × Bool) :
    List Char → σ → σ × Bool
  | [], s => (s, true)
  | c :: text, s => feed emit c.val s (feedAll emit text)

theorem unitChar_val_of_surrogate {u : UInt16}
    (hu : IsHighSurrogate u ∨ IsLowSurrogate u) :
    (unitChar u).val = 0xFFFD := by
  rw [unitChar, if_pos hu]
  rfl

theorem unitChar_val_of_not_surrogate {u : UInt16}
    (hu : ¬ (IsHighSurrogate u ∨ IsLowSurrogate u)) :
    (unitChar u).val = u.toUInt32 := by
  rw [← UInt32.toNat_inj, UInt16.toNat_toUInt32]
  exact unitChar_toNat_of_not_surrogate hu

theorem pairChar_val {u v : UInt16}
    (hu : IsHighSurrogate u) (hv : IsLowSurrogate v) :
    (pairChar u v).val =
      (0x10000 : UInt32) + (((u - 0xD800).toUInt32 <<< 10) |||
        (v - 0xDC00).toUInt32) := by
  have hvalue := pairChar_toNat hu hv
  have hule := hu.1
  have hvle := hv.1
  rw [isHighSurrogate_iff] at hu
  rw [isLowSurrogate_iff] at hv
  have hhi : (u - 0xD800).toNat = u.toNat - 0xD800 :=
    UInt16.toNat_sub_of_le _ _ hule
  have hlo : (v - 0xDC00).toNat = v.toNat - 0xDC00 :=
    UInt16.toNat_sub_of_le _ _ hvle
  rw [← UInt32.toNat_inj]
  refine hvalue.trans ?_
  rw [UInt32.toNat_add, UInt32.toNat_or, UInt32.toNat_shiftLeft,
    UInt16.toNat_toUInt32, UInt16.toNat_toUInt32, hhi, hlo]
  have hshift : (u.toNat - 0xD800) <<< (UInt32.toNat 10 % 32) % 2 ^ 32 =
      2 ^ 10 * (u.toNat - 0xD800) := by
    have hten : UInt32.toNat 10 % 32 = 10 := rfl
    rw [hten, Nat.shiftLeft_eq]
    omega
  have hbase : UInt32.toNat 0x10000 = 0x10000 := rfl
  rw [hshift, or_low_bits (by omega), hbase]
  omega

theorem forEachUtf8_pair {σ : Type}
    (emit : σ → List UInt8 → ℕ → σ × Bool) {u v : UInt16}
    (hu : IsHighSurrogate u) (hv : IsLowSurrogate v)
    (rest : List UInt16) (s : σ) :
    forEachUtf8 emit (u :: v :: rest) s =
      feed emit (pairChar u v).val s (forEachUtf8 emit rest) := by
  rw [pairChar_val hu hv]
  simp only [forEachUtf8]
  rw [if_pos hu, if_pos hv]

theorem forEachUtf8_unit {σ : Type}
    (emit : σ → List UInt8 → ℕ → σ × Bool) {u : UInt16} {rest : List UInt16}
    (hpair : ∀ v ∈ rest.head?, ¬ (IsHighSurrogate u ∧ IsLowSurrogate v))
    (s : σ) :
    forEachUtf8 emit (u :: rest) s =
      feed emit (unitChar u).val s (forEachUtf8 emit rest) := by
  have hloop : forEachUtf8 emit (u :: rest) s =
      if IsHighSurrogate u ∨ IsLowSurrogate u then
        feed emit 0xFFFD s (forEachUtf8 emit rest)
      else feed emit u.toUInt32 s (forEachUtf8 emit rest) := by
    by_cases hhigh : IsHighSurrogate u
    · rw [if_pos (Or.inl hhigh)]
      cases rest with
      | nil =>
          simp only [forEachUtf8]
          rw [if_pos hhigh]
      | cons v rest =>
          have hv : ¬ IsLowSurrogate v := fun hv => hpair v rfl ⟨hhigh, hv⟩
          simp only [forEachUtf8]
          rw [if_pos hhigh, if_neg hv]
    · by_cases hlow : IsLowSurrogate u
      · rw [if_pos (Or.inr hlow)]
        cases rest <;> simp only [forEachUtf8] <;> rw [if_neg hhigh, if_pos hlow]
      · rw [if_neg (not_or.mpr ⟨hhigh, hlow⟩)]
        cases rest <;> simp only [forEachUtf8] <;> rw [if_neg hhigh, if_neg hlow]
  rw [hloop]
  by_cases hu : IsHighSurrogate u ∨ IsLowSurrogate u
  · rw [if_pos hu, unitChar_val_of_surrogate hu]
  · rw [if_neg hu, unitChar_val_of_not_surrogate hu]

/-- The loop feeds `emit` the characters of the lossy reading. -/
theorem forEachUtf8_eq_feedAll {σ : Type}
    (emit : σ → List UInt8 → ℕ → σ × Bool) (input : List UInt16) (s : σ) :
    forEachUtf8 emit input s = feedAll emit (decodeUtf16 input) s := by
  induction input using decodeUtf16.induct generalizing s with
  | case1 => rfl
  | case2 u =>
      rw [forEachUtf8_unit emit (by simp), decodeUtf16_singleton]
      rfl
  | case3 u v rest hpair ih =>
      rw [forEachUtf8_pair emit hpair.1 hpair.2,
        decodeUtf16_pair hpair.1 hpair.2, feedAll, funext ih]
  | case4 u v rest hpair ih =>
      rw [forEachUtf8_unit emit (by simpa using hpair),
        decodeUtf16_unpaired hpair, feedAll, funext ih]

/-! ## The allocating form -/

theorem feedAll_emitAppend
    (text : List Char) (written : List UInt8) :
    feedAll emitAppend text written = (written ++ utf8 text, true) := by
  induction text generalizing written with
  | nil => simp [feedAll]
  | cons c text ih =>
      simp only [feedAll, feed, emitAppend, if_true, utf8Encode_char, utf8Len_char,
        List.take_length]
      rw [ih, utf8_cons, List.append_assoc]

/-- The allocating form is the standard encoding of the lossy reading. -/
theorem utf16ToUtf8_eq (input : List UInt16) :
    utf16ToUtf8 input = utf8 (decodeUtf16 input) := by
  unfold utf16ToUtf8
  rw [forEachUtf8_eq_feedAll, feedAll_emitAppend]
  simp

/-! ## The bounded form -/

theorem storeBytes_eq (out : List UInt8) (n : ℕ) (bytes : List UInt8) :
    storeBytes out n bytes = (store out n bytes, n + bytes.length) := by
  induction bytes generalizing out n with
  | nil => rfl
  | cons b bytes ih =>
      have hcount : n + 1 + bytes.length = n + (b :: bytes).length := by
        rw [List.length_cons]
        omega
      rw [storeBytes, ih, store, hcount]

/-- The loop stores the characters that fit and stops at the first that does
not. -/
theorem feedAll_emitBounded
    {outCap : ℕ} (text : List Char) (out : List UInt8) (n : ℕ)
    (hn : n ≤ outCap) :
    feedAll (emitBounded outCap) text (out, n) =
      ((store out n (utf8 (fitting (outCap - n) text)),
          n + (utf8 (fitting (outCap - n) text)).length),
        decide (fitting (outCap - n) text = text)) := by
  induction text generalizing out n with
  | nil => simp [feedAll, fitting, store]
  | cons c text ih =>
      by_cases hroom : (String.utf8EncodeChar c).length ≤ outCap - n
      · have hgo : ¬ n + (String.utf8EncodeChar c).length > outCap := by omega
        have hleft : outCap - (n + (String.utf8EncodeChar c).length) =
            outCap - n - (String.utf8EncodeChar c).length := by omega
        simp only [feedAll, feed, emitBounded, utf8Encode_char, utf8Len_char,
          List.take_length, hgo, if_false, if_true, storeBytes_eq]
        rw [ih _ _ (by omega), hleft, fitting, if_pos hroom, utf8_cons,
          store_append, List.length_append, Nat.add_assoc]
        simp
      · have hstop : n + (String.utf8EncodeChar c).length > outCap := by omega
        simp only [feedAll, feed, emitBounded, utf8Encode_char, utf8Len_char,
          hstop, if_true, Bool.false_eq_true, if_false]
        rw [fitting, if_neg hroom]
        simp [store]

/-- The bounded form writes the longest prefix that fits and reports its
length when that is everything. -/
theorem utf16ToUtf8Bounded_eq
    (input : List UInt16) (out : List UInt8) (outCap : ℕ) :
    utf16ToUtf8Bounded input out outCap =
      (if (utf8 (decodeUtf16 input)).length ≤ outCap then
          some (utf8 (decodeUtf16 input)).length
        else none,
        store out 0 (utf8 (fitting outCap (decodeUtf16 input)))) := by
  have hrun := feedAll_emitBounded (decodeUtf16 input) out 0
    (Nat.zero_le outCap)
  rw [Nat.sub_zero] at hrun
  simp only [utf16ToUtf8Bounded, forEachUtf8_eq_feedAll, hrun, Nat.zero_add,
    decide_eq_true_eq]
  by_cases hfit : (utf8 (decodeUtf16 input)).length ≤ outCap
  · have hall := (fitting_eq_self_iff outCap (decodeUtf16 input)).mpr hfit
    simp only [hall, hfit, if_true]
  · have hpart := mt (fitting_eq_self_iff outCap (decodeUtf16 input)).mp hfit
    simp only [hpart, hfit, if_false]

theorem utf16ToUtf8Bounded_fits
    {input : List UInt16} {out : List UInt8} {outCap : ℕ}
    (hcap : outCap ≤ out.length)
    (hfit : (utf8 (decodeUtf16 input)).length ≤ outCap) :
    (utf16ToUtf8Bounded input out outCap).1 =
        some (utf8 (decodeUtf16 input)).length ∧
      (utf16ToUtf8Bounded input out outCap).2.take
          (utf8 (decodeUtf16 input)).length =
        utf8 (decodeUtf16 input) := by
  have hall := (fitting_eq_self_iff outCap (decodeUtf16 input)).mpr hfit
  have hroom : 0 + (utf8 (decodeUtf16 input)).length ≤ out.length := by omega
  rw [utf16ToUtf8Bounded_eq, hall, if_pos hfit, store_eq hroom]
  refine ⟨rfl, ?_⟩
  rw [List.take_zero, List.nil_append, List.take_left]

theorem utf16ToUtf8Bounded_overflow
    {input : List UInt16} {out : List UInt8} {outCap : ℕ}
    (hover : outCap < (utf8 (decodeUtf16 input)).length) :
    (utf16ToUtf8Bounded input out outCap).1 = none := by
  rw [utf16ToUtf8Bounded_eq, if_neg (Nat.not_le.mpr hover)]

@[simp] theorem utf16ToUtf8Bounded_length
    (input : List UInt16) (out : List UInt8) (outCap : ℕ) :
    (utf16ToUtf8Bounded input out outCap).2.length = out.length := by
  rw [utf16ToUtf8Bounded_eq, store_length]

/-! ## Reading UTF-8 -/

theorem shiftRight_eq_iff (c : UInt8) (shift n : ℕ) (hshift : shift < 8)
    (hn : n < 256) :
    c >>> UInt8.ofNat shift = UInt8.ofNat n ↔ c.toNat / 2 ^ shift = n := by
  rw [← UInt8.toNat_inj, UInt8.toNat_shiftRight, UInt8.toNat_ofNat',
    UInt8.toNat_ofNat', Nat.mod_eq_of_lt hn,
    Nat.mod_eq_of_lt (a := shift) (by omega), Nat.mod_eq_of_lt hshift,
    Nat.shiftRight_eq_div_pow]

theorem maskLow_eq (c : UInt8) (width : ℕ) (hwidth : width < 8) :
    (c &&& UInt8.ofNat (2 ^ width - 1)).toUInt32 =
      UInt32.ofNat (c.toNat % 2 ^ width) := by
  have hpow : 2 ^ width < 256 := by
    calc 2 ^ width < 2 ^ 8 := Nat.pow_lt_pow_right (by norm_num) hwidth
      _ = 256 := by norm_num
  have hmask : (2 ^ width - 1) % 2 ^ 8 = 2 ^ width - 1 := by omega
  have hlt := c.toNat_lt
  have hle := Nat.mod_le c.toNat (2 ^ width)
  rw [← UInt32.toNat_inj, UInt8.toNat_toUInt32, UInt8.toNat_and,
    UInt8.toNat_ofNat', UInt32.toNat_ofNat', hmask,
    Nat.and_two_pow_sub_one_eq_mod, Nat.mod_eq_of_lt (b := 2 ^ 32) (by omega)]

theorem leadByte_eq (c : UInt8) :
    leadByte c =
      if c.toNat < 0x80 then some (UInt32.ofNat c.toNat, 0)
      else if c.toNat / 32 = 6 then some (UInt32.ofNat (c.toNat % 32), 1)
      else if c.toNat / 16 = 14 then some (UInt32.ofNat (c.toNat % 16), 2)
      else if c.toNat / 8 = 30 then some (UInt32.ofNat (c.toNat % 8), 3)
      else none := by
  have htwo : c >>> 5 = 0x6 ↔ c.toNat / 32 = 6 :=
    shiftRight_eq_iff c 5 6 (by norm_num) (by norm_num)
  have hthree : c >>> 4 = 0xE ↔ c.toNat / 16 = 14 :=
    shiftRight_eq_iff c 4 14 (by norm_num) (by norm_num)
  have hfour : c >>> 3 = 0x1E ↔ c.toNat / 8 = 30 :=
    shiftRight_eq_iff c 3 30 (by norm_num) (by norm_num)
  have hmaskTwo : (c &&& 0x1F).toUInt32 = UInt32.ofNat (c.toNat % 32) :=
    maskLow_eq c 5 (by norm_num)
  have hmaskThree : (c &&& 0x0F).toUInt32 = UInt32.ofNat (c.toNat % 16) :=
    maskLow_eq c 4 (by norm_num)
  have hmaskFour : (c &&& 0x07).toUInt32 = UInt32.ofNat (c.toNat % 8) :=
    maskLow_eq c 3 (by norm_num)
  have hone : c.toUInt32 = UInt32.ofNat c.toNat := by
    rw [← UInt32.toNat_inj, UInt8.toNat_toUInt32, UInt32.toNat_ofNat',
      Nat.mod_eq_of_lt (by have := c.toNat_lt; omega)]
  simp only [leadByte, UInt8.lt_iff_toNat_lt, UInt8.reduceToNat, htwo, hthree,
    hfour, hmaskTwo, hmaskThree, hmaskFour, hone]

theorem continuation_cons
    {cp : ℕ} {cc : UInt8} (extra : ℕ) (rest : List UInt8)
    (hcp : cp * 64 + 64 ≤ 2 ^ 32) (hcc : cc.toNat / 64 = 2) :
    continuation (extra + 1) (UInt32.ofNat cp) (cc :: rest) =
      continuation extra (UInt32.ofNat (cp * 64 + cc.toNat % 64)) rest := by
  have hmark : cc >>> 6 = 0x2 :=
    (shiftRight_eq_iff cc 6 2 (by norm_num)
      (by norm_num)).mpr hcc
  have hlow : cc.toNat % 64 < 64 := Nat.mod_lt _ (by norm_num)
  have hvalue : (UInt32.ofNat cp <<< 6) ||| (cc &&& 0x3F).toUInt32 =
      UInt32.ofNat (cp * 64 + cc.toNat % 64) := by
    have hmask : (cc &&& 0x3F).toUInt32 = UInt32.ofNat (cc.toNat % 64) :=
      maskLow_eq cc 6 (by norm_num)
    rw [hmask, ← UInt32.toNat_inj, UInt32.toNat_or, UInt32.toNat_shiftLeft,
      UInt32.toNat_ofNat', UInt32.toNat_ofNat', UInt32.toNat_ofNat',
      Nat.mod_eq_of_lt (a := cp) (by omega),
      Nat.mod_eq_of_lt (a := cc.toNat % 64) (by omega),
      Nat.mod_eq_of_lt (a := cp * 64 + cc.toNat % 64) (by omega)]
    have hsix : UInt32.toNat 6 % 32 = 6 := rfl
    rw [hsix, Nat.shiftLeft_eq, Nat.mod_eq_of_lt (by omega), Nat.mul_comm,
      or_low_bits hlow]
  rw [continuation, if_neg (by simpa using hmark), hvalue]

theorem continuation_zero (cp : UInt32) (rest : List UInt8) :
    continuation 0 cp rest = some cp := by
  cases rest <;> rfl

theorem emitUtf16_small {cp : UInt32} (hcp : cp.toNat ≤ 0xFFFF) :
    emitUtf16 cp = [UInt16.ofNat cp.toNat] := by
  have hnot : ¬ cp > 0xFFFF := by
    simp only [gt_iff_lt, UInt32.lt_iff_toNat_lt, UInt32.reduceToNat]
    omega
  rw [emitUtf16, if_neg hnot]
  exact congrArg (fun u => [u]) (UInt16.ofNat_uInt32ToNat cp).symm

/-- The bound is what a lead byte and three continuation bytes can hold. -/
theorem emitUtf16_large
    {cp : UInt32} (hlow : 0xFFFF < cp.toNat) (hhigh : cp.toNat < 0x200000) :
    emitUtf16 cp = [UInt16.ofNat (0xD800 + (cp.toNat - 0x10000) / 0x400),
      UInt16.ofNat (0xDC00 + (cp.toNat - 0x10000) % 0x400)] := by
  have hbig : cp > 0xFFFF := by
    simp only [gt_iff_lt, UInt32.lt_iff_toNat_lt, UInt32.reduceToNat]
    exact hlow
  have hsub : (cp - 0x10000).toNat = cp.toNat - 0x10000 := by
    apply UInt32.toNat_sub_of_le
    rw [UInt32.le_iff_toNat_le]
    simp only [UInt32.reduceToNat]
    omega
  have hhi : ((0xD800 : UInt32) + ((cp - 0x10000) >>> 10)).toUInt16 =
      UInt16.ofNat (0xD800 + (cp.toNat - 0x10000) / 0x400) := by
    have hten : UInt32.toNat 10 % 32 = 10 := rfl
    rw [← UInt16.toNat_inj, UInt32.toNat_toUInt16, UInt32.toNat_add,
      UInt32.toNat_shiftRight, hsub, UInt16.toNat_ofNat', hten,
      Nat.shiftRight_eq_div_pow]
    simp only [UInt32.reduceToNat]
    omega
  have hlo : ((0xDC00 : UInt32) + ((cp - 0x10000) &&& 0x3FF)).toUInt16 =
      UInt16.ofNat (0xDC00 + (cp.toNat - 0x10000) % 0x400) := by
    have hmask : (cp.toNat - 0x10000) &&& 0x3FF =
        (cp.toNat - 0x10000) % 0x400 :=
      Nat.and_two_pow_sub_one_eq_mod (cp.toNat - 0x10000) 10
    rw [← UInt16.toNat_inj, UInt32.toNat_toUInt16, UInt32.toNat_add,
      UInt32.toNat_and, hsub, UInt16.toNat_ofNat']
    simp only [UInt32.reduceToNat, hmask]
    omega
  rw [emitUtf16, if_pos hbig]
  dsimp only
  rw [hhi, hlo]

theorem emitUtf16_char (c : Char) : emitUtf16 c.val = utf16EncodeChar c := by
  have hbounds := char_toNat_bounds c
  have hval : c.val.toNat = c.toNat := rfl
  by_cases hsmall : c.toNat < 0x10000
  · rw [emitUtf16_small (by omega), utf16EncodeChar, if_pos hsmall, hval]
  · rw [emitUtf16_large (by omega) (by omega), utf16EncodeChar, if_neg hsmall,
      hval]

/-- A continuation byte brings back the six bits the encoder put into it. -/
theorem continuation_encoded
    {n : ℕ} (hn : n < 2 ^ 32) (extra : ℕ) (rest : List UInt8) :
    continuation (extra + 1) (UInt32.ofNat (n / 64))
        (UInt8.ofNat (n % 64 + 0x80) :: rest) =
      continuation extra (UInt32.ofNat n) rest := by
  have hbyte : (UInt8.ofNat (n % 64 + 0x80)).toNat = n % 64 + 0x80 := by
    rw [UInt8.toNat_ofNat']
    omega
  have hvalue : n / 64 * 64 + (n % 64 + 0x80) % 64 = n := by omega
  rw [continuation_cons extra rest (by omega) (by omega), hbyte, hvalue]

theorem utf8ToUtf16Loop_sequence
    {lead : UInt8} {tail rest : List UInt8} {extra : ℕ} {cp v : UInt32}
    (hlead : leadByte lead = some (cp, extra)) (htail : tail.length = extra)
    (hcont : continuation extra cp (tail ++ rest) = some v) (fuel : ℕ) :
    utf8ToUtf16Loop (fuel + 1) (lead :: (tail ++ rest)) =
      emitUtf16 v ++ utf8ToUtf16Loop fuel rest := by
  subst extra
  have hroom : ¬ (tail ++ rest).length < tail.length := by
    rw [List.length_append]
    omega
  simp only [utf8ToUtf16Loop, hlead, if_neg hroom, hcont, List.drop_left]

theorem utf8ToUtf16Loop_char
    (c : Char) (fuel : ℕ) (rest : List UInt8) :
    utf8ToUtf16Loop (fuel + 1) (String.utf8EncodeChar c ++ rest) =
      utf16EncodeChar c ++ utf8ToUtf16Loop fuel rest := by
  have hbounds := char_toNat_bounds c
  have hvalue : UInt32.ofNat c.toNat = c.val := UInt32.ofNat_toNat
  have htwelve : c.toNat / 4096 = c.toNat / 64 / 64 := by omega
  have height : c.toNat / 262144 = c.toNat / 64 / 64 / 64 := by omega
  rcases utf8EncodeChar_rows c with ⟨hone, henc⟩ | ⟨hlow, htwo, henc⟩ |
    ⟨hlow, hthree, henc⟩ | ⟨hlow, henc⟩
  all_goals rw [← emitUtf16_char, henc, List.cons_append]
  · have hlead : leadByte (UInt8.ofNat c.toNat) = some (c.val, 0) := by
      rw [leadByte_eq, UInt8.toNat_ofNat', Nat.mod_eq_of_lt (by omega),
        if_pos (by omega), hvalue]
    exact utf8ToUtf16Loop_sequence hlead rfl (continuation_zero _ _) fuel
  · have hlead : leadByte (UInt8.ofNat (c.toNat / 64 % 32 + 0xC0)) =
        some (UInt32.ofNat (c.toNat / 64), 1) := by
      rw [leadByte_eq, UInt8.toNat_ofNat', Nat.mod_eq_of_lt (by omega),
        if_neg (by omega), if_pos (by omega)]
      congr 3
      omega
    apply utf8ToUtf16Loop_sequence hlead rfl
    rw [List.cons_append, List.nil_append, continuation_encoded (by omega),
      continuation_zero, hvalue]
  · have hlead : leadByte (UInt8.ofNat (c.toNat / 4096 % 16 + 0xE0)) =
        some (UInt32.ofNat (c.toNat / 4096), 2) := by
      rw [leadByte_eq, UInt8.toNat_ofNat', Nat.mod_eq_of_lt (by omega),
        if_neg (by omega), if_neg (by omega), if_pos (by omega)]
      congr 3
      omega
    apply utf8ToUtf16Loop_sequence hlead rfl
    rw [List.cons_append, List.cons_append, List.nil_append, htwelve,
      continuation_encoded (by omega), continuation_encoded (by omega),
      continuation_zero, hvalue]
  · have hlead : leadByte (UInt8.ofNat (c.toNat / 262144 % 8 + 0xF0)) =
        some (UInt32.ofNat (c.toNat / 262144), 3) := by
      rw [leadByte_eq, UInt8.toNat_ofNat', Nat.mod_eq_of_lt (by omega),
        if_neg (by omega), if_neg (by omega), if_neg (by omega),
        if_pos (by omega)]
      congr 3
      omega
    apply utf8ToUtf16Loop_sequence hlead rfl
    rw [List.cons_append, List.cons_append, List.cons_append, List.nil_append,
      height, htwelve, continuation_encoded (by omega),
      continuation_encoded (by omega), continuation_encoded (by omega),
      continuation_zero, hvalue]

theorem utf8ToUtf16Loop_utf8
    (text : List Char) {fuel : ℕ} (hfuel : (utf8 text).length ≤ fuel) :
    utf8ToUtf16Loop fuel (utf8 text) = utf16 text := by
  induction text generalizing fuel with
  | nil => cases fuel <;> rfl
  | cons c text ih =>
      rw [utf8_cons, List.length_append] at hfuel
      have hpos : 0 < (String.utf8EncodeChar c).length :=
        List.length_pos_of_ne_nil String.utf8EncodeChar_ne_nil
      obtain ⟨fuel', rfl⟩ : ∃ fuel', fuel = fuel' + 1 := ⟨fuel - 1, by omega⟩
      rw [utf8_cons, utf8ToUtf16Loop_char, ih (by omega), utf16_cons]

/-- On well-formed input the decoder is the standard transcoding. -/
theorem utf8ToUtf16_utf8 (text : List Char) :
    utf8ToUtf16 (utf8 text) = utf16 text :=
  utf8ToUtf16Loop_utf8 text le_rfl

end PwFilter
