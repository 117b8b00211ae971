import Mathlib.Data.List.DropRight
import Mathlib.Tactic

/-!
# Python text

The parts of `str`, `bytes` and text files that line-based Python scripts rest
on: iteration over a file opened with `newline=''`, `str.strip`,
`str.splitlines`, `str.partition`, `int`, and `bytes.fromhex`, which skips
ASCII whitespace between two pairs of digits and raises `ValueError` on
anything else.
-/

namespace PythonText

/-! ## White space -/

/-- `str.isspace` of a single character. -/
def isSpace (c : Char) : Bool :=
  let n := c.toNat
  (0x09 ≤ n && n ≤ 0x0D) || (0x1C ≤ n && n ≤ 0x20) || n == 0x85 ||
    n == 0xA0 || n == 0x1680 || (0x2000 ≤ n && n ≤ 0x200A) || n == 0x2028 ||
    n == 0x2029 || n == 0x202F || n == 0x205F || n == 0x3000

def isAsciiSpace (c : Char) : Bool :=
  (0x09 ≤ c.toNat && c.toNat ≤ 0x0D) || c.toNat == 0x20

def stripWith (space : Char → Bool) (s : List Char) : List Char :=
  (s.dropWhile space).rdropWhile space

/-- `str.strip` -/
def strip (s : List Char) : List Char := stripWith isSpace s

/-! ## Lines -/

def isNewline (c : Char) : Bool := c == '\r' || c == '\n'

/-- The lines of a file with their ends; `current` has been read of the first
one. -/
def rawLines : List Char → List Char → List (List Char)
  | current, [] => if current = [] then [] else [current]
  | current, '\r' :: '\n' :: rest =>
      (current ++ ['\r', '\n']) :: rawLines [] rest
  | current, '\r' :: rest => (current ++ ['\r']) :: rawLines [] rest
  | current, '\n' :: rest => (current ++ ['\n']) :: rawLines [] rest
  | current, c :: rest => rawLines (current ++ [c]) rest

/-- What stands on the lines, ended by CR, LF or both. -/
def lineTexts : List Char → List Char → List (List Char)
  | current, [] => if current = [] then [] else [current]
  | current, '\r' :: '\n' :: rest => current :: lineTexts [] rest
  | current, '\r' :: rest => current :: lineTexts [] rest
  | current, '\n' :: rest => current :: lineTexts [] rest
  | current, c :: rest => lineTexts (current ++ [c]) rest

theorem rdropWhile_newline
    {line ending : List Char} (hline : ∀ c ∈ line, isNewline c = false)
    (hending : ∀ c ∈ ending, isNewline c = true) :
    (line ++ ending).rdropWhile isNewline = line := by
  induction ending using List.reverseRecOn with
  | nil =>
      rw [List.append_nil, List.rdropWhile_eq_self_iff]
      intro hne
      rw [hline _ (List.getLast_mem hne)]
      decide
  | append_singleton ending c ih =>
      rw [← List.append_assoc,
        List.rdropWhile_concat_pos _ _ _ (hending c (by simp))]
      exact ih fun d hd => hending d (List.mem_append_left _ hd)

/-- `raw.rstrip("\r\n")` takes off the end of a line and nothing else. -/
theorem rawLines_rstrip
    (current text : List Char) (hcurrent : ∀ c ∈ current, isNewline c = false) :
    (rawLines current text).map (fun raw => raw.rdropWhile isNewline) =
      lineTexts current text := by
  have hnil : ∀ c ∈ ([] : List Char), isNewline c = false := by simp
  have hcut : ∀ ending : List Char, (∀ c ∈ ending, isNewline c = true) →
      (current ++ ending).rdropWhile isNewline = current :=
    fun _ hending => rdropWhile_newline hcurrent hending
  induction current, text using rawLines.induct with
  | case1 => rfl
  | case2 current hne =>
      have hwhole := hcut [] (by simp)
      rw [List.append_nil] at hwhole
      simp only [rawLines, lineTexts, if_neg hne, List.map_cons, List.map_nil,
        hwhole]
  | case3 current rest ih =>
      rw [rawLines, lineTexts, List.map_cons, hcut _ (by simp [isNewline]),
        ih hnil fun _ => rdropWhile_newline hnil]
  | case4 current rest hsingle ih =>
      rw [rawLines.eq_3 _ _ hsingle, lineTexts.eq_3 _ _ hsingle, List.map_cons,
        hcut _ (by simp [isNewline]), ih hnil fun _ => rdropWhile_newline hnil]
  | case5 current rest ih =>
      rw [rawLines, lineTexts, List.map_cons, hcut _ (by simp [isNewline]),
        ih hnil fun _ => rdropWhile_newline hnil]
  | case6 current c rest hpair hcr hlf ih =>
      have hplain : isNewline c = false := by
        simp only [isNewline, Bool.or_eq_false_iff, beq_eq_false_iff_ne]
        exact ⟨hcr, hlf⟩
      have hnext : ∀ d ∈ current ++ [c], isNewline d = false := by
        intro d hd
        rcases List.mem_append.mp hd with hold | hnew
        · exact hcurrent d hold
        · rw [List.mem_singleton.mp hnew]
          exact hplain
      rw [rawLines.eq_5 _ _ _ hpair hcr hlf, lineTexts.eq_5 _ _ _ hpair hcr hlf]
      exact ih hnext fun _ => rdropWhile_newline hnext

/-! ## Hexadecimal digits -/

def hexValue (c : Char) : Option ℕ :=
  let n := c.toNat
  if 0x30 ≤ n ∧ n ≤ 0x39 then some (n - 0x30)
  else if 0x41 ≤ n ∧ n ≤ 0x46 then some (n - 0x41 + 10)
  else if 0x61 ≤ n ∧ n ≤ 0x66 then some (n - 0x61 + 10)
  else none

def isHexDigit (c : Char) : Bool := (hexValue c).isSome

/-- `bytes.fromhex`, or none for a `ValueError`. -/
def fromHex : List Char → Option (List UInt8)
  | [] => some []
  | [c] => if isAsciiSpace c then some [] else none
  | c :: c' :: rest =>
      if isAsciiSpace c then fromHex (c' :: rest)
      else
        match hexValue c, hexValue c' with
        | some top, some bot =>
            (fromHex rest).map (UInt8.ofNat (top * 16 + bot) :: ·)
        | _, _ => none

/-- The bytes that pairs of digits stand for. -/
def decodeHex : List Char → List UInt8
  | c :: c' :: rest =>
      UInt8.ofNat ((hexValue c).getD 0 * 16 + (hexValue c').getD 0) ::
        decodeHex rest
  | _ => []

/-- Pairs of digits with ASCII whitespace between them. -/
inductive SpacedHex : List Char → Prop where
  | nil : SpacedHex []
  | space {c : Char} {rest : List Char} (hspace : isAsciiSpace c = true)
      (hrest : SpacedHex rest) : SpacedHex (c :: rest)
  | pair {c c' : Char} {rest : List Char} (hc : isHexDigit c = true)
      (hc' : isHexDigit c' = true) (hrest : SpacedHex rest) :
      SpacedHex (c :: c' :: rest)

theorem not_isHexDigit_of_isAsciiSpace
    {c : Char} (hspace : isAsciiSpace c = true) : isHexDigit c = false := by
  simp only [isAsciiSpace, Bool.or_eq_true, Bool.and_eq_true,
    decide_eq_true_eq, beq_iff_eq] at hspace
  rw [isHexDigit, hexValue, if_neg (by omega), if_neg (by omega),
    if_neg (by omega)]
  rfl

theorem fromHex_space
    {c : Char} (rest : List Char) (hspace : isAsciiSpace c = true) :
    fromHex (c :: rest) = fromHex rest := by
  cases rest with
  | nil => simp [fromHex, hspace]
  | cons c' rest => rw [fromHex, if_pos hspace]

theorem fromHex_pair
    {c c' : Char} (rest : List Char) (hc : isHexDigit c = true)
    (hc' : isHexDigit c' = true) :
    fromHex (c :: c' :: rest) =
      (fromHex rest).map
        (UInt8.ofNat ((hexValue c).getD 0 * 16 + (hexValue c').getD 0) :: ·) := by
  have hdigit : ¬ isAsciiSpace c = true := by
    intro hspace
    rw [not_isHexDigit_of_isAsciiSpace hspace] at hc
    cases hc
  obtain ⟨top, htop⟩ := Option.isSome_iff_exists.mp hc
  obtain ⟨bot, hbot⟩ := Option.isSome_iff_exists.mp hc'
  rw [fromHex, if_neg hdigit, htop, hbot]
  rfl

theorem SpacedHex.reads {s : List Char} (h : SpacedHex s) :
    ∃ bytes, fromHex s = some bytes ∧
      2 * bytes.length + s.countP isAsciiSpace = s.length := by
  induction h with
  | nil => exact ⟨[], rfl, rfl⟩
  | space hspace hrest ih =>
      obtain ⟨bytes, hread, hlength⟩ := ih
      refine ⟨bytes, (fromHex_space _ hspace).trans hread, ?_⟩
      rw [List.countP_cons_of_pos hspace, List.length_cons]
      omega
  | pair hc hc' hrest ih =>
      obtain ⟨bytes, hread, hlength⟩ := ih
      have hdigit : ∀ {c : Char}, isHexDigit c = true →
          ¬ isAsciiSpace c = true := by
        intro c hc hspace
        rw [not_isHexDigit_of_isAsciiSpace hspace] at hc
        cases hc
      refine ⟨_ :: bytes, by rw [fromHex_pair _ hc hc', hread]; rfl, ?_⟩
      rw [List.countP_cons_of_neg (hdigit hc), List.countP_cons_of_neg (hdigit hc'),
        List.length_cons, List.length_cons, List.length_cons]
      omega

theorem spacedHex_of_fromHex
    {s : List Char} {bytes : List UInt8} (h : fromHex s = some bytes) :
    SpacedHex s := by
  induction s using fromHex.induct generalizing bytes with
  | case1 => exact .nil
  | case2 c hspace => exact .space hspace .nil
  | case3 c hspace =>
      rw [fromHex, if_neg hspace] at h
      cases h
  | case4 c c' rest hspace ih =>
      rw [fromHex_space _ hspace] at h
      exact .space hspace (ih h)
  | case5 c c' rest hspace top bot hbot htop ih =>
      rw [fromHex, if_neg hspace, htop, hbot, Option.map_eq_some_iff] at h
      obtain ⟨tail, htail, _⟩ := h
      refine .pair ?_ ?_ (ih htail)
      · rw [isHexDigit, htop]
        rfl
      · rw [isHexDigit, hbot]
        rfl
  | case6 c c' rest hspace hmiss =>
      rw [fromHex, if_neg hspace] at h
      split at h
      · rename_i top bot htop hbot
        exact absurd hbot (hmiss top bot htop)
      · cases h

theorem fromHex_eq_decodeHex
    {s : List Char} (hdigits : ∀ c ∈ s, isHexDigit c = true)
    (heven : s.length % 2 = 0) : fromHex s = some (decodeHex s) := by
  induction s using decodeHex.induct with
  | case1 c c' rest ih =>
      rw [List.length_cons, List.length_cons] at heven
      have hrest := ih
        (fun d hd => hdigits d (List.mem_cons_of_mem _ (List.mem_cons_of_mem _ hd)))
        (by omega)
      rw [fromHex_pair rest (hdigits c List.mem_cons_self)
        (hdigits c' (List.mem_cons_of_mem _ List.mem_cons_self)), hrest]
      rfl
  | case2 s hshort =>
      match s, hshort, heven with
      | [], _, _ => rfl
      | [c], _, heven => exact absurd heven (by simp)
      | c :: c' :: rest, hshort, _ => exact absurd rfl (hshort c c' rest)

theorem decodeHex_length (s : List Char) :
    (decodeHex s).length = s.length / 2 := by
  induction s using decodeHex.induct with
  | case1 c c' rest ih =>
      rw [decodeHex, List.length_cons, ih, List.length_cons, List.length_cons]
      omega
  | case2 s hshort =>
      match s, hshort with
      | [], _ => simp [decodeHex]
      | [c], _ => simp [decodeHex]
      | c :: c' :: rest, hshort => exact absurd rfl (hshort c c' rest)

/-- Without whitespace there are digits only. -/
theorem SpacedHex.digits
    {s : List Char} (h : SpacedHex s)
    (hnone : ∀ c ∈ s, isAsciiSpace c = false) :
    ∀ c ∈ s, isHexDigit c = true := by
  induction h with
  | nil => simp
  | space hspace _ _ =>
      rw [hnone _ List.mem_cons_self] at hspace
      cases hspace
  | pair hc hc' _ ih =>
      have hrest := ih fun d hd =>
        hnone d (List.mem_cons_of_mem _ (List.mem_cons_of_mem _ hd))
      intro d hd
      rcases List.mem_cons.mp hd with rfl | hd
      · exact hc
      · rcases List.mem_cons.mp hd with rfl | hd
        · exact hc'
        · exact hrest d hd

/-! ## Lines of a string -/

/-- The line boundaries of `str.splitlines`. -/
def isLineBreak (c : Char) : Bool :=
  let n := c.toNat
  (0x0A ≤ n && n ≤ 0x0D) || (0x1C ≤ n && n ≤ 0x1E) || n == 0x85 ||
    n == 0x2028 || n == 0x2029

def splitlinesFrom : List Char → List Char → List (List Char)
  | current, [] => if current = [] then [] else [current]
  | current, '\r' :: '\n' :: rest => current :: splitlinesFrom [] rest
  | current, c :: rest =>
      if isLineBreak c then current :: splitlinesFrom [] rest
      else splitlinesFrom (current ++ [c]) rest

/-- `str.splitlines` -/
def splitlines (text : List Char) : List (List Char) := splitlinesFrom [] text

theorem splitlinesFrom_append
    (rest : List Char) {line : List Char}
    (hline : ∀ c ∈ line, isLineBreak c = false) (current : List Char) :
    splitlinesFrom current (line ++ rest) =
      splitlinesFrom (current ++ line) rest := by
  induction line generalizing current with
  | nil => rw [List.nil_append, List.append_nil]
  | cons c line ih =>
      have hc := hline c List.mem_cons_self
      have hpair : ∀ tail, c = '\r' → line ++ rest = '\n' :: tail → False := by
        rintro tail rfl _
        cases hc
      rw [List.cons_append, splitlinesFrom.eq_3 _ _ _ hpair, hc,
        if_neg Bool.false_ne_true,
        ih (fun d hd => hline d (List.mem_cons_of_mem c hd)), List.append_assoc,
        List.singleton_append]

theorem splitlines_crlf
    (rest : List Char) {line : List Char}
    (hline : ∀ c ∈ line, isLineBreak c = false) :
    splitlines (line ++ '\r' :: '\n' :: rest) = line :: splitlines rest := by
  rw [splitlines, splitlinesFrom_append _ hline, List.nil_append,
    splitlinesFrom, splitlines]

theorem splitlines_last
    {line : List Char} (hne : line ≠ [])
    (hline : ∀ c ∈ line, isLineBreak c = false) : splitlines line = [line] := by
  have happend := splitlinesFrom_append [] hline []
  rw [List.append_nil, List.nil_append] at happend
  rw [splitlines, happend, splitlinesFrom, if_neg hne]

/-- `str.partition`, when the separator is there. -/
theorem partition_append
    {sep : Char} {field : List Char} (hfield : ∀ c ∈ field, c ≠ sep)
    (rest : List Char) :
    (field ++ sep :: rest).takeWhile (· ≠ sep) = field ∧
      ((field ++ sep :: rest).dropWhile (· ≠ sep)).drop 1 = rest := by
  have hkeep : ∀ c ∈ field, decide (c ≠ sep) = true :=
    fun c hc => decide_eq_true (hfield c hc)
  constructor
  · rw [List.takeWhile_append_of_pos hkeep,
      List.takeWhile_cons_of_neg (by simp), List.append_nil]
  · rw [List.dropWhile_append_of_pos hkeep,
      List.dropWhile_cons_of_neg (by simp), List.drop_one, List.tail_cons]

/-! ## Decimal numbers -/

/-- The decimal digits of Unicode 14 come in tens; these are the zeros. -/
def decimalZeros : List ℕ :=
  [0x30, 0x660, 0x6F0, 0x7C0, 0x966, 0x9E6, 0xA66, 0xAE6, 0xB66, 0xBE6, 0xC66,
    0xCE6, 0xD66, 0xDE6, 0xE50, 0xED0, 0xF20, 0x1040, 0x1090, 0x17E0, 0x1810,
    0x1946, 0x19D0, 0x1A80, 0x1A90, 0x1B50, 0x1BB0, 0x1C40, 0x1C50, 0xA620,
    0xA8D0, 0xA900, 0xA9D0, 0xA9F0, 0xAA50, 0xABF0, 0xFF10, 0x104A0, 0x10D30,
    0x11066, 0x110F0, 0x11136, 0x111D0, 0x112F0, 0x11450, 0x114D0, 0x11650,
    0x116C0, 0x11730, 0x118E0, 0x11950, 0x11C50, 0x11D50, 0x11DA0, 0x16A60,
    0x16AC0, 0x16B50, 0x1D7CE, 0x1D7D8, 0x1D7E2, 0x1D7EC, 0x1D7F6, 0x1E140,
    0x1E2F0, 0x1E950, 0x1FBF0]

def decimalDigit (c : Char) : Option ℕ :=
  (decimalZeros.find? fun z => z ≤ c.toNat && c.toNat ≤ z + 9).map
    fun z => c.toNat - z

/-- What `int` strips: of the ASCII characters fewer than `str.strip`. -/
def isIntSpace (c : Char) : Bool :=
  if c.toNat < 127 then isAsciiSpace c else isSpace c

/-- Digits with single underscores between them. -/
def decimalFrom : ℕ → Bool → List Char → Option ℕ
  | acc, afterDigit, [] => if afterDigit then some acc else none
  | acc, afterDigit, c :: rest =>
      match decimalDigit c with
      | some d => decimalFrom (10 * acc + d) true rest
      | none =>
          if c = '_' ∧ afterDigit then decimalFrom acc false rest else none

/-- `sys.get_int_max_str_digits()`, as it is by default. -/
def maxStrDigits : ℕ := 4300

def readDecimal (digits : List Char) : Option ℕ :=
  if digits.countP (fun c => (decimalDigit c).isSome) > maxStrDigits then none
  else decimalFrom 0 false digits

/-- `int(s)`, or none for a `ValueError`. -/
def pyInt (s : List Char) : Option ℤ :=
  match stripWith isIntSpace s with
  | '-' :: digits => (readDecimal digits).map fun n : ℕ => -(n : ℤ)
  | '+' :: digits => (readDecimal digits).map Int.ofNat
  | digits => (readDecimal digits).map Int.ofNat

theorem digit_toNat {c : Char} (hdigit : c.isDigit = true) :
    48 ≤ c.toNat ∧ c.toNat ≤ 57 := by
  rw [Char.isDigit, Bool.and_eq_true, decide_eq_true_eq, decide_eq_true_eq]
    at hdigit
  exact hdigit

theorem decimalDigit_of_isDigit {c : Char} (hdigit : c.isDigit = true) :
    decimalDigit c = some (c.toNat - '0'.toNat) := by
  obtain ⟨hlow, hhigh⟩ := digit_toNat hdigit
  have hfirst : (decide (0x30 ≤ c.toNat) && decide (c.toNat ≤ 0x30 + 9)) =
      true := by
    rw [Bool.and_eq_true, decide_eq_true_eq, decide_eq_true_eq]
    omega
  rw [decimalDigit, decimalZeros, List.find?_cons]
  simp only [hfirst]
  rfl

theorem decimalFrom_digits
    {digits : List Char} (hdigits : ∀ c ∈ digits, c.isDigit = true)
    (acc : ℕ) :
    decimalFrom acc true digits = some (Nat.ofDigitChars 10 digits acc) := by
  induction digits generalizing acc with
  | nil => rfl
  | cons c digits ih =>
      have hc := hdigits c List.mem_cons_self
      rw [decimalFrom, decimalDigit_of_isDigit hc, Nat.ofDigitChars_cons]
      exact ih (fun d hd => hdigits d (List.mem_cons_of_mem c hd)) _

theorem isIntSpace_of_isDigit {c : Char} (hdigit : c.isDigit = true) :
    isIntSpace c = false := by
  have hrange := digit_toNat hdigit
  rw [isIntSpace, if_pos (by omega)]
  simp only [isAsciiSpace, Bool.or_eq_false_iff, Bool.and_eq_false_iff,
    decide_eq_false_iff_not, beq_eq_false_iff_ne]
  omega

theorem isLineBreak_of_isDigit {c : Char} (hdigit : c.isDigit = true) :
    isLineBreak c = false := by
  have hrange := digit_toNat hdigit
  simp only [isLineBreak, Bool.or_eq_false_iff, Bool.and_eq_false_iff,
    decide_eq_false_iff_not, beq_eq_false_iff_ne]
  omega

theorem stripWith_eq_self
    {space : Char → Bool} {s : List Char} (hs : ∀ c ∈ s, space c = false) :
    stripWith space s = s := by
  have hfirst : s.dropWhile space = s := by
    rw [List.dropWhile_eq_self_iff]
    intro hpos hspace
    rw [hs _ (List.getElem_mem hpos)] at hspace
    cases hspace
  have hlast : s.rdropWhile space = s := by
    rw [List.rdropWhile_eq_self_iff]
    intro hne hspace
    rw [hs _ (List.getLast_mem hne)] at hspace
    cases hspace
  rw [stripWith, hfirst, hlast]

theorem strip_eq_self {s : List Char} (hs : ∀ c ∈ s, isSpace c = false) :
    strip s = s :=
  stripWith_eq_self hs

theorem readDecimal_toDigits {n : ℕ} (hn : n < 10 ^ maxStrDigits) :
    readDecimal (Nat.toDigits 10 n) = some n := by
  have hdigits : ∀ c ∈ Nat.toDigits 10 n, c.isDigit = true :=
    fun c hc => Nat.isDigit_of_mem_toDigits (by norm_num) (by norm_num) hc
  have hvalue := Nat.ofDigitChars_toDigits (b := 10) (n := n) (by norm_num)
    (by norm_num)
  have hlength : (Nat.toDigits 10 n).length ≤ maxStrDigits :=
    Nat.toDigits_length 10 n maxStrDigits (by norm_num [maxStrDigits]) hn
  have hcount : ¬ (Nat.toDigits 10 n).countP (fun c => (decimalDigit c).isSome) >
      maxStrDigits :=
    Nat.not_lt.mpr (Nat.le_trans List.countP_le_length hlength)
  rw [readDecimal, if_neg hcount]
  cases hprinted : Nat.toDigits 10 n with
  | nil => exact absurd hprinted Nat.toDigits_ne_nil
  | cons c digits =>
      rw [hprinted] at hdigits hvalue
      rw [decimalFrom, decimalDigit_of_isDigit (hdigits c List.mem_cons_self)]
      refine (decimalFrom_digits
        (fun d hd => hdigits d (List.mem_cons_of_mem c hd)) _).trans ?_
      rw [← Nat.ofDigitChars_cons, hvalue]

/-- A number that is printed with at most `maxStrDigits` digits is read back. -/
theorem pyInt_toDigits {n : ℕ} (hn : n < 10 ^ maxStrDigits) :
    pyInt (Nat.toDigits 10 n) = some (n : ℤ) := by
  have hdigits : ∀ c ∈ Nat.toDigits 10 n, c.isDigit = true :=
    fun c hc => Nat.isDigit_of_mem_toDigits (by norm_num) (by norm_num) hc
  have hread := readDecimal_toDigits hn
  rw [pyInt, stripWith_eq_self fun c hc => isIntSpace_of_isDigit (hdigits c hc)]
  split
  · rename_i hminus
    have hc := hdigits '-' (by rw [hminus]; exact List.mem_cons_self)
    cases hc
  · rename_i hplus
    have hc := hdigits '+' (by rw [hplus]; exact List.mem_cons_self)
    cases hc
  · rw [hread]
    rfl

end PythonText
