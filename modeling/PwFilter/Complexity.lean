import PwFilter.ConsecutiveRuns

/-!
# The local complexity checks

The character-class count, the three run detectors and the substring tests,
each followed by what it decides.  A string is its list of UTF-16 code units.
The detectors are counting loops, so their meaning comes from
`ConsecutiveRuns`: some window of the requested length is a chain.
-/

namespace PwFilter

open ConsecutiveRuns

def toLowerAscii (c : UInt16) : UInt16 :=
  if 0x41 ≤ c ∧ c ≤ 0x5A then c + 32 else c

/-- Code units of an ASCII literal of the source. -/
def asciiUnits (text : List Char) : List UInt16 :=
  text.map fun c => UInt16.ofNat c.toNat

/-! ## Character classes -/

inductive CharClass where
  | lower
  | upper
  | digit
  | symbol
  deriving DecidableEq, Repr

instance : Fintype CharClass where
  elems := {.lower, .upper, .digit, .symbol}
  complete := by
    intro c
    cases c <;> decide

def CharClass.bit : CharClass → ℕ
  | .lower => 1
  | .upper => 2
  | .digit => 4
  | .symbol => 8

/-- The branch `CharClassesPresent` takes for a code unit: every unit outside
the ASCII letters and digits counts as a symbol. -/
def charClass (c : UInt16) : CharClass :=
  if 0x61 ≤ c ∧ c ≤ 0x7A then .lower
  else if 0x41 ≤ c ∧ c ≤ 0x5A then .upper
  else if 0x30 ≤ c ∧ c ≤ 0x39 then .digit
  else .symbol

def charClassesPresent (s : List UInt16) : ℕ :=
  s.foldl (fun mask c => mask ||| (charClass c).bit) 0

/-- The loop `while (mask != 0)`; the mask itself is fuel enough, since every
round halves it. -/
def countBits : ℕ → ℕ → ℕ → ℕ
  | 0, _, count => count
  | fuel + 1, mask, count =>
      if mask ≠ 0 then countBits fuel (mask >>> 1) (count + (mask &&& 1))
      else count

def countCharClasses (s : List UInt16) : ℕ :=
  let mask := charClassesPresent s
  countBits mask mask 0

/-! ## Run detectors -/

def repeatLoop (maxRun : ℕ) : UInt16 → ℕ → List UInt16 → Bool
  | _, _, [] => false
  | prev, run, c :: rest =>
      if c = prev then
        if run + 1 > maxRun then true else repeatLoop maxRun c (run + 1) rest
      else repeatLoop maxRun c 1 rest

def hasExcessiveRepeat (s : List UInt16) (maxRun : ℕ) : Bool :=
  match s with
  | [] => false
  | c :: rest => repeatLoop maxRun c 1 rest

def sequenceLoop (minRun : ℕ) : UInt16 → ℕ → ℕ → List UInt16 → Bool
  | _, _, _, [] => false
  | prev, up, down, c :: rest =>
      let diff : ℤ := (c.toNat : ℤ) - (prev.toNat : ℤ)
      let up' := if diff = 1 then up + 1 else 1
      let down' := if diff = 1 then 1 else if diff = -1 then down + 1 else 1
      if up' ≥ minRun ∨ down' ≥ minRun then true
      else sequenceLoop minRun c up' down' rest

def hasSequentialRun (s : List UInt16) (minRun : ℕ) : Bool :=
  if minRun < 2 ∨ s.length < minRun then false
  else
    match s with
    | [] => false
    | c :: rest => sequenceLoop minRun c 1 1 rest

def keyboardRows : List (List UInt16) :=
  [ asciiUnits ['1', '2', '3', '4', '5', '6', '7', '8', '9', '0'],
    asciiUnits ['q', 'w', 'e', 'r', 't', 'y', 'u', 'i', 'o', 'p'],
    asciiUnits ['a', 's', 'd', 'f', 'g', 'h', 'j', 'k', 'l'],
    asciiUnits ['z', 'x', 'c', 'v', 'b', 'n', 'm'] ]

/-- The inner loop of `KeyboardPos`: the first column of the row that holds
`lc`, counting from `i`. -/
def findColumn (lc : UInt16) : List UInt16 → ℕ → Option ℕ
  | [], _ => none
  | key :: rest, i => if key = lc then some i else findColumn lc rest (i + 1)

def findRow (lc : UInt16) : List (List UInt16) → ℕ → Option (ℕ × ℕ)
  | [], _ => none
  | row :: rest, r =>
      match findColumn lc row 0 with
      | some col => some (r, col)
      | none => findRow lc rest (r + 1)

def keyboardPos (c : UInt16) : Option (ℕ × ℕ) :=
  findRow (toLowerAscii c) keyboardRows 0

/-- The counter after a key at `(row, col)`.  `prev` is `(prev_row, prev_col)`
while `prev_valid` holds; stale values are never read. -/
def walkRun (prev : Option (ℕ × ℕ)) (row col run : ℕ) : ℕ :=
  match prev with
  | some (prevRow, prevCol) =>
      let dc : ℤ := (col : ℤ) - (prevCol : ℤ)
      if row = prevRow ∧ (dc = 1 ∨ dc = -1) then run + 1 else 1
  | none => 1

def keyboardLoop (minRun : ℕ) : Option (ℕ × ℕ) → ℕ → List UInt16 → Bool
  | _, _, [] => false
  | prev, run, c :: rest =>
      match keyboardPos c with
      | some (row, col) =>
          let run' := walkRun prev row col run
          if run' ≥ minRun then true
          else keyboardLoop minRun (some (row, col)) run' rest
      | none =>
          if 1 ≥ minRun then true else keyboardLoop minRun none 1 rest

def hasKeyboardWalk (s : List UInt16) (minRun : ℕ) : Bool :=
  if minRun < 2 ∨ s.length < minRun then false
  else keyboardLoop minRun none 1 s

/-! ## Substring tests -/

/-- The inner loop of `ContainsIgnoreCase`: whether it runs to the end of the
needle when the match starts at the head of `haystack`. -/
def matchesHere : List UInt16 → List UInt16 → Bool
  | _, [] => true
  | [], _ :: _ => false
  | h :: haystack, n :: needle =>
      if toLowerAscii h ≠ toLowerAscii n then false
      else matchesHere haystack needle

/-- The outer loop of `ContainsIgnoreCase`, with `left` offsets still to try
and `haystack` the part from the current offset on. -/
def containsLoop (needle : List UInt16) : ℕ → List UInt16 → Bool
  | 0, _ => false
  | left + 1, haystack =>
      if matchesHere haystack needle then true
      else containsLoop needle left haystack.tail

def containsIgnoreCase (haystack needle : List UInt16) : Bool :=
  if needle.isEmpty ∨ needle.length > haystack.length then false
  else
    let last := haystack.length - needle.length
    containsLoop needle (last + 1) haystack

def containsAccount (password account : List UInt16) (minLen : ℕ) : Bool :=
  if account.length < minLen then false
  else containsIgnoreCase password account

/-! ## What the class count counts -/

theorem testBit_foldl_classes (s : List UInt16) (mask i : ℕ) :
    (s.foldl (fun mask c => mask ||| (charClass c).bit) mask).testBit i =
      (mask.testBit i || s.any fun c => (charClass c).bit.testBit i) := by
  induction s generalizing mask with
  | nil => simp
  | cons c s ih =>
      rw [List.foldl_cons, ih, Nat.testBit_or, List.any_cons, Bool.or_assoc]

theorem charClassesPresent_testBit (s : List UInt16) (i : ℕ) :
    (charClassesPresent s).testBit i =
      s.any fun c => (charClass c).bit.testBit i := by
  rw [charClassesPresent, testBit_foldl_classes]
  simp

theorem CharClass.bit_lt (k : CharClass) : k.bit < 2 ^ 4 := by
  cases k <;> decide

theorem charClassesPresent_lt (s : List UInt16) :
    charClassesPresent s < 16 := by
  apply Nat.lt_pow_two_of_testBit (n := 4)
  intro i hi
  rw [charClassesPresent_testBit, List.any_eq_false]
  intro c _
  rw [Nat.testBit_lt_two_pow ((charClass c).bit_lt.trans_le
    (Nat.pow_le_pow_right (by norm_num) hi))]
  simp

theorem countBits_of_lt : ∀ mask < 16,
    countBits mask mask 0 =
      (mask.testBit 0).toNat + (mask.testBit 1).toNat +
        (mask.testBit 2).toNat + (mask.testBit 3).toNat := by
  decide

/-- The unit stands between two characters of the ASCII table. -/
def AsciiRange (first last : Char) (c : UInt16) : Prop :=
  first.toNat ≤ c.toNat ∧ c.toNat ≤ last.toNat

instance (first last : Char) (c : UInt16) :
    Decidable (AsciiRange first last c) :=
  inferInstanceAs (Decidable (_ ∧ _))

theorem AsciiRange.disjoint
    {first last first' last' : Char} {c : UInt16}
    (hlt : last.toNat < first'.toNat) (h : AsciiRange first last c) :
    ¬ AsciiRange first' last' c := by
  intro h'
  have hle := h.2
  have hle' := h'.1
  omega

/-- What a class stands for: the ASCII small letters, capitals and digits, and
every other code unit. -/
def CharClass.Has : CharClass → UInt16 → Prop
  | .lower, c => AsciiRange 'a' 'z' c
  | .upper, c => AsciiRange 'A' 'Z' c
  | .digit, c => AsciiRange '0' '9' c
  | .symbol, c => ¬ AsciiRange 'a' 'z' c ∧ ¬ AsciiRange 'A' 'Z' c ∧
      ¬ AsciiRange '0' '9' c

instance : ∀ (k : CharClass) (c : UInt16), Decidable (k.Has c)
  | .lower, c => inferInstanceAs (Decidable (AsciiRange 'a' 'z' c))
  | .upper, c => inferInstanceAs (Decidable (AsciiRange 'A' 'Z' c))
  | .digit, c => inferInstanceAs (Decidable (AsciiRange '0' '9' c))
  | .symbol, _ => inferInstanceAs (Decidable (_ ∧ _ ∧ _))

theorem charClass_eq_iff (c : UInt16) (k : CharClass) :
    charClass c = k ↔ k.Has c := by
  have hlower : 0x61 ≤ c ∧ c ≤ 0x7A ↔ AsciiRange 'a' 'z' c := Iff.rfl
  have hupper : 0x41 ≤ c ∧ c ≤ 0x5A ↔ AsciiRange 'A' 'Z' c := Iff.rfl
  have hdigit : 0x30 ≤ c ∧ c ≤ 0x39 ↔ AsciiRange '0' '9' c := Iff.rfl
  simp only [charClass, hlower, hupper, hdigit]
  by_cases hu : AsciiRange 'A' 'Z' c
  · have hl : ¬ AsciiRange 'a' 'z' c := hu.disjoint (by decide)
    have hd : ¬ AsciiRange '0' '9' c := fun hd => hd.disjoint (by decide) hu
    cases k <;> simp [CharClass.Has, hl, hu, hd]
  · by_cases hd : AsciiRange '0' '9' c
    · have hl : ¬ AsciiRange 'a' 'z' c := hd.disjoint (by decide)
      cases k <;> simp [CharClass.Has, hl, hu, hd]
    · by_cases hl : AsciiRange 'a' 'z' c
      · cases k <;> simp [CharClass.Has, hl, hu, hd]
      · cases k <;> simp [CharClass.Has, hl, hu, hd]

/-- The classes that occur in a string. -/
def classesOf (s : List UInt16) : Finset CharClass :=
  Finset.univ.filter fun k => ∃ c ∈ s, k.Has c

theorem charClassesPresent_testBit_class (s : List UInt16) (k : CharClass) (i : ℕ)
    (hk : k.bit = 2 ^ i) :
    (charClassesPresent s).testBit i = decide (∃ c ∈ s, k.Has c) := by
  have hbit : ∀ j : CharClass, j.bit.testBit i = decide (j = k) := by
    intro j
    have hi : i < 4 := by
      have hlt := k.bit_lt
      rw [hk] at hlt
      exact (Nat.pow_lt_pow_iff_right (by norm_num)).mp hlt
    interval_cases i <;> cases k <;> simp [CharClass.bit] at hk <;>
      cases j <;> decide
  rw [charClassesPresent_testBit]
  simp only [hbit, charClass_eq_iff]
  rw [Bool.eq_iff_iff]
  simp

theorem countCharClasses_eq (s : List UInt16) :
    countCharClasses s = (classesOf s).card := by
  have huniv : (Finset.univ : Finset CharClass) =
      {.lower, .upper, .digit, .symbol} := rfl
  unfold countCharClasses classesOf
  dsimp only
  rw [countBits_of_lt _ (charClassesPresent_lt s),
    charClassesPresent_testBit_class s .lower 0 rfl,
    charClassesPresent_testBit_class s .upper 1 rfl,
    charClassesPresent_testBit_class s .digit 2 rfl,
    charClassesPresent_testBit_class s .symbol 3 rfl,
    Finset.card_filter, huniv]
  rw [Finset.sum_insert (by decide), Finset.sum_insert (by decide),
    Finset.sum_insert (by decide), Finset.sum_singleton]
  have hnumber : ∀ (p : Prop) [Decidable p],
      (decide p).toNat = if p then 1 else 0 := by
    intro p _
    by_cases hp : p <;> simp [hp]
  rw [hnumber, hnumber, hnumber, hnumber]
  omega

/-! ## What the run detectors detect -/

abbrev StepUp (a b : UInt16) : Prop := b.toNat = a.toNat + 1

abbrev StepDown (a b : UInt16) : Prop := a.toNat = b.toNat + 1

theorem repeatLoop_eq_scan
    {maxRun : ℕ} (hmax : 1 ≤ maxRun) (prev : UInt16) (run : ℕ)
    (rest : List UInt16) :
    repeatLoop maxRun prev run rest = scan (· = ·) (maxRun + 1) prev run rest := by
  induction rest generalizing prev run with
  | nil => rfl
  | cons c rest ih =>
      by_cases heq : c = prev
      · subst heq
        by_cases hfull : run + 1 > maxRun
        · have hreach : maxRun + 1 ≤ run + 1 := by omega
          simp [repeatLoop, scan, hfull, hreach]
        · have hreach : ¬ maxRun + 1 ≤ run + 1 := by omega
          simp [repeatLoop, scan, hfull, hreach, ih]
      · have hne : ¬ prev = c := fun h => heq h.symm
        have hreach : ¬ maxRun + 1 ≤ 1 := by omega
        simp [repeatLoop, scan, heq, hne, hreach, ih]

theorem hasExcessiveRepeat_iff
    {s : List UInt16} {maxRun : ℕ} (hmax : 1 ≤ maxRun) :
    hasExcessiveRepeat s maxRun = true ↔ HasRun (· = ·) (maxRun + 1) s := by
  cases s with
  | nil =>
      simp only [hasExcessiveRepeat, Bool.false_eq_true, false_iff]
      intro hrun
      have hle := hrun.length_le
      simp at hle
  | cons c rest =>
      rw [hasExcessiveRepeat, repeatLoop_eq_scan hmax,
        scan_start_eq_true_iff (by omega)]

theorem sequenceLoop_eq_scan
    {minRun : ℕ} (prev : UInt16) (up down : ℕ) (rest : List UInt16) :
    sequenceLoop minRun prev up down rest =
      (scan StepUp minRun prev up rest || scan StepDown minRun prev down rest) := by
  induction rest generalizing prev up down with
  | nil => rfl
  | cons c rest ih =>
      have hup : ((c.toNat : ℤ) - prev.toNat = 1) ↔ StepUp prev c := by
        unfold StepUp
        omega
      have hdown : ((c.toNat : ℤ) - prev.toNat = -1) ↔ StepDown prev c := by
        unfold StepDown
        omega
      have hdown' : (if StepUp prev c then 1
          else if StepDown prev c then down + 1 else 1) =
          if StepDown prev c then down + 1 else 1 := by
        by_cases h : StepUp prev c
        · have hnot : ¬ StepDown prev c := by
            unfold StepUp StepDown at *
            omega
          rw [if_pos h, if_neg hnot]
        · rw [if_neg h]
      simp only [sequenceLoop, scan, hup, hdown, hdown', ih]
      generalize (if StepUp prev c then up + 1 else 1) = up'
      generalize (if StepDown prev c then down + 1 else 1) = down'
      by_cases hreachUp : minRun ≤ up'
      · simp [hreachUp]
      · by_cases hreachDown : minRun ≤ down' <;> simp [hreachUp, hreachDown]

theorem hasSequentialRun_iff (s : List UInt16) (minRun : ℕ) :
    hasSequentialRun s minRun = true ↔
      2 ≤ minRun ∧ (HasRun StepUp minRun s ∨ HasRun StepDown minRun s) := by
  unfold hasSequentialRun
  by_cases hguard : minRun < 2 ∨ s.length < minRun
  · simp only [hguard, if_true, Bool.false_eq_true, false_iff]
    rintro ⟨hmin, hup | hdown⟩
    · have hle := hup.length_le
      omega
    · have hle := hdown.length_le
      omega
  · have hmin : 2 ≤ minRun := by omega
    simp only [hguard, if_false]
    cases s with
    | nil =>
        simp only [List.length_nil] at hguard
        omega
    | cons c rest =>
        simp only [sequenceLoop_eq_scan, Bool.or_eq_true,
          scan_start_eq_true_iff hmin, hmin, true_and]

/-! ### Keyboard walks -/

def KeyStep (a b : UInt16) : Prop :=
  ∃ row col col', keyboardPos a = some (row, col) ∧
    keyboardPos b = some (row, col') ∧ (col' = col + 1 ∨ col = col' + 1)

theorem walkRun_eq
    [DecidableRel KeyStep] {a c : UInt16} {row col : ℕ}
    (hc : keyboardPos c = some (row, col)) (run : ℕ) :
    walkRun (keyboardPos a) row col run =
      if KeyStep a c then run + 1 else 1 := by
  cases ha : keyboardPos a with
  | none =>
      have hbreak : ¬ KeyStep a c := by
        rintro ⟨_, _, _, h, _⟩
        rw [ha] at h
        cases h
      rw [if_neg hbreak]
      rfl
  | some pos =>
      obtain ⟨prevRow, prevCol⟩ := pos
      have hiff : (row = prevRow ∧ (((col : ℤ) - (prevCol : ℤ)) = 1 ∨
          ((col : ℤ) - (prevCol : ℤ)) = -1)) ↔ KeyStep a c := by
        unfold KeyStep
        rw [ha, hc]
        constructor
        · rintro ⟨rfl, h⟩
          exact ⟨row, prevCol, col, rfl, rfl, by omega⟩
        · rintro ⟨r, c₁, c₂, h₁, h₂, h⟩
          simp only [Option.some.injEq, Prod.mk.injEq] at h₁ h₂
          omega
      simp only [walkRun, hiff]

theorem keyboardLoop_eq_scan
    [DecidableRel KeyStep] {minRun : ℕ} (hmin : 2 ≤ minRun) (a : UInt16) (run : ℕ)
    (rest : List UInt16) :
    keyboardLoop minRun (keyboardPos a) run rest =
      scan KeyStep minRun a run rest := by
  induction rest generalizing a run with
  | nil => rfl
  | cons c rest ih =>
      have hone : ¬ minRun ≤ 1 := by omega
      cases hc : keyboardPos c with
      | none =>
          have hbreak : ¬ KeyStep a c := by
            rintro ⟨_, _, _, _, h, _⟩
            rw [hc] at h
            cases h
          have hnext := ih c 1
          rw [hc] at hnext
          simp [keyboardLoop, scan, hc, hbreak, hone, hnext]
      | some pos =>
          obtain ⟨row, col⟩ := pos
          have hnext := ih c (if KeyStep a c then run + 1 else 1)
          rw [hc] at hnext
          simp only [keyboardLoop, scan, hc]
          rw [walkRun_eq hc, hnext]
          by_cases hreach : minRun ≤ if KeyStep a c then run + 1 else 1
          · simp [hreach]
          · simp [hreach]

theorem keyboardLoop_start
    [DecidableRel KeyStep] {minRun : ℕ} (hmin : 2 ≤ minRun) (c : UInt16)
    (rest : List UInt16) :
    keyboardLoop minRun none 1 (c :: rest) = scan KeyStep minRun c 1 rest := by
  have hone : ¬ minRun ≤ 1 := by omega
  rw [← keyboardLoop_eq_scan hmin]
  cases hc : keyboardPos c with
  | none => simp [keyboardLoop, hc, hone]
  | some pos => simp [keyboardLoop, walkRun, hc, hone]

theorem hasKeyboardWalk_iff (s : List UInt16) (minRun : ℕ) :
    hasKeyboardWalk s minRun = true ↔
      2 ≤ minRun ∧ HasRun KeyStep minRun s := by
  classical
  unfold hasKeyboardWalk
  by_cases hguard : minRun < 2 ∨ s.length < minRun
  · simp only [hguard, if_true, Bool.false_eq_true, false_iff]
    rintro ⟨hmin, hrun⟩
    have hle := hrun.length_le
    omega
  · have hmin : 2 ≤ minRun := by omega
    simp only [hguard, if_false]
    cases s with
    | nil =>
        simp only [List.length_nil] at hguard
        omega
    | cons c rest =>
        simp only [keyboardLoop_start hmin, scan_start_eq_true_iff hmin, hmin,
          true_and]

/-! ## What the substring tests find -/

/-- The small letter for an ASCII capital, any other unit as it is. -/
def foldCase (c : UInt16) : UInt16 :=
  if AsciiRange 'A' 'Z' c then c + 32 else c

theorem toLowerAscii_eq (c : UInt16) : toLowerAscii c = foldCase c :=
  if_congr Iff.rfl rfl rfl

abbrev lowered (s : List UInt16) : List UInt16 := s.map foldCase

theorem matchesHere_iff (haystack needle : List UInt16) :
    matchesHere haystack needle = true ↔ lowered needle <+: lowered haystack := by
  induction haystack generalizing needle with
  | nil => cases needle <;> simp [matchesHere]
  | cons h haystack ih =>
      cases needle with
      | nil => simp [matchesHere]
      | cons n needle =>
          rw [matchesHere, toLowerAscii_eq, toLowerAscii_eq]
          by_cases heq : foldCase h = foldCase n
          · simp [heq, ih, List.cons_prefix_cons]
          · have hne : ¬ foldCase n = foldCase h := fun e => heq e.symm
            simp [heq, hne, List.cons_prefix_cons]

theorem containsLoop_iff
    {needle : List UInt16} (hneedle : needle ≠ []) (haystack : List UInt16)
    {left : ℕ} (hleft : haystack.length < left + needle.length) :
    containsLoop needle left haystack = true ↔
      lowered needle <:+: lowered haystack := by
  have hpos : 0 < needle.length := List.length_pos_of_ne_nil hneedle
  induction left generalizing haystack with
  | zero =>
      simp only [containsLoop, Bool.false_eq_true, false_iff]
      intro hwindow
      have hle := hwindow.length_le
      simp only [List.length_map] at hle
      omega
  | succ left ih =>
      cases haystack with
      | nil =>
          have hnil : lowered needle ≠ [] := by simpa using hneedle
          have htail := ih [] (by simp only [List.length_nil]; omega)
          have hhere : matchesHere [] needle = false := by
            cases needle with
            | nil => exact absurd rfl hneedle
            | cons n needle => rfl
          rw [containsLoop, hhere]
          simpa using htail
      | cons h haystack =>
          simp only [List.length_cons] at hleft
          have htail : containsLoop needle left haystack = true ↔
              lowered needle <:+: lowered haystack := ih haystack (by omega)
          have hhere := matchesHere_iff (h :: haystack) needle
          have hcons : lowered (h :: haystack) =
              foldCase h :: lowered haystack := rfl
          rw [hcons, List.infix_cons_iff, ← htail, ← hcons, ← hhere]
          simp only [containsLoop, List.tail_cons]
          by_cases hmatch : matchesHere (h :: haystack) needle = true
          · simp [hmatch]
          · simp [hmatch]

theorem containsIgnoreCase_iff (haystack needle : List UInt16) :
    containsIgnoreCase haystack needle = true ↔
      needle ≠ [] ∧ lowered needle <:+: lowered haystack := by
  unfold containsIgnoreCase
  by_cases hguard : needle.isEmpty ∨ needle.length > haystack.length
  · simp only [hguard, if_true, Bool.false_eq_true, false_iff]
    rintro ⟨hneedle, hwindow⟩
    have hle := hwindow.length_le
    simp only [List.length_map] at hle
    rcases hguard with hempty | hlong
    · exact hneedle (List.isEmpty_iff.mp hempty)
    · omega
  · have hneedle : needle ≠ [] := by
      intro h
      exact hguard (Or.inl (by simp [h]))
    simp only [hguard, if_false, hneedle, ne_eq, not_false_eq_true, true_and]
    exact containsLoop_iff hneedle haystack (by omega)

theorem containsAccount_iff (password account : List UInt16) (minLen : ℕ) :
    containsAccount password account minLen = true ↔
      minLen ≤ account.length ∧ account ≠ [] ∧
        lowered account <:+: lowered password := by
  unfold containsAccount
  by_cases hshort : account.length < minLen
  · have hnot : ¬ minLen ≤ account.length := by omega
    simp [hshort, hnot]
  · have hle : minLen ≤ account.length := by omega
    simp [hshort, hle, containsIgnoreCase_iff]

end PwFilter
