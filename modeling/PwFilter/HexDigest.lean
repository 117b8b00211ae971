import PwFilter.DumpReader

/-!
# Printed digests

`ToHex` prints a digest the way the dumps have it.  A dump printed from
digests is read back digest by digest, and builds the very file that the C++
builder makes of them.
-/

namespace PwFilter

open PythonText

/-- `kHex` -/
def kHex : List Char :=
  ['0', '1', '2', '3', '4', '5', '6', '7', '8', '9', 'A', 'B', 'C', 'D', 'E',
    'F']

def hexChar (nibble : UInt8) : Char := kHex.getD nibble.toNat '0'

/-- The loop of `ToHex`, with `left` rounds before twenty. -/
def toHexLoop (bytes : List UInt8) : ℕ → ℕ → List Char → List Char
  | 0, _, s => s
  | left + 1, i, s =>
      let b := bytes.getD i 0
      toHexLoop bytes left (i + 1)
        ((s.set (2 * i) (hexChar ((b >>> 4) &&& 0xF))).set (2 * i + 1)
          (hexChar (b &&& 0xF)))

def toHex (d : Sha1Digest) : List Char :=
  toHexLoop d.bytes 20 0 (List.replicate 40 '0')

/-! ## Digits -/

def byteDigits (b : UInt8) : List Char :=
  [hexChar ((b >>> 4) &&& 0xF), hexChar (b &&& 0xF)]

theorem toHexLoop_eq
    (bytes : List UInt8) (left i : ℕ) {done old : List Char}
    (hdone : done.length = 2 * i) (hold : old.length = 2 * left)
    (hbytes : i + left = bytes.length) :
    toHexLoop bytes left i (done ++ old) =
      done ++ (bytes.drop i).flatMap byteDigits := by
  induction left generalizing i done old with
  | zero =>
      have hnil : old = [] := List.eq_nil_of_length_eq_zero hold
      rw [hnil, List.drop_of_length_le (by omega)]
      rfl
  | succ left ih =>
      match old, hold with
      | x :: y :: old, hold =>
          simp only [List.length_cons] at hold
          have hlt : i < bytes.length := by omega
          have hbyte : bytes.getD i 0 = bytes[i] := by
            rw [List.getD_eq_getElem?_getD, List.getElem?_eq_getElem hlt]
            rfl
          have hset : ((done ++ x :: y :: old).set (2 * i)
                (hexChar ((bytes[i] >>> 4) &&& 0xF))).set (2 * i + 1)
                (hexChar (bytes[i] &&& 0xF)) =
              (done ++ byteDigits bytes[i]) ++ old := by
            rw [← hdone, List.set_append_right _ _ (Nat.le_refl _),
              Nat.sub_self,
              List.set_append_right _ _ (Nat.le_add_right done.length 1),
              Nat.add_sub_cancel_left, List.append_assoc]
            rfl
          have hnext : (done ++ byteDigits bytes[i]).length = 2 * (i + 1) := by
            rw [List.length_append, hdone]
            rfl
          rw [toHexLoop, hbyte]
          rw [hset, ih (i + 1) hnext (by omega) (by omega),
            List.drop_eq_getElem_cons hlt, List.flatMap_cons,
            List.append_assoc]

theorem toHex_eq (d : Sha1Digest) : toHex d = d.bytes.flatMap byteDigits := by
  have hstart : (List.replicate 40 '0').length = 2 * 20 :=
    List.length_replicate
  have hloop := toHexLoop_eq d.bytes 20 0 List.length_nil hstart
    (by rw [d.length_eq])
  rw [List.nil_append, List.nil_append, List.drop_zero] at hloop
  rw [toHex]
  exact hloop

theorem nibble_value (nibble : UInt8) (hnibble : nibble.toNat < 16) :
    hexValue (hexChar nibble) = some nibble.toNat ∧
      isSpace (hexChar nibble) = false ∧ hexChar nibble ≠ ':' := by
  have hall : ∀ n < 16, hexValue (kHex.getD n '0') = some n ∧
      isSpace (kHex.getD n '0') = false ∧ kHex.getD n '0' ≠ ':' := by decide
  exact hall nibble.toNat hnibble

theorem high_nibble (b : UInt8) : ((b >>> 4) &&& 0xF).toNat = b.toNat / 16 := by
  have hb := b.toNat_lt
  have hmask : (0xF : UInt8).toNat = 2 ^ 4 - 1 := rfl
  have hshift : (4 : UInt8).toNat % 8 = 4 := rfl
  rw [UInt8.toNat_and, UInt8.toNat_shiftRight, hmask, hshift,
    Nat.and_two_pow_sub_one_eq_mod, Nat.shiftRight_eq_div_pow]
  omega

theorem low_nibble (b : UInt8) : (b &&& 0xF).toNat = b.toNat % 16 := by
  have hmask : (0xF : UInt8).toNat = 2 ^ 4 - 1 := rfl
  rw [UInt8.toNat_and, hmask, Nat.and_two_pow_sub_one_eq_mod]

theorem byteDigits_spec (b : UInt8) :
    decodeHex (byteDigits b) = [b] ∧
      ∀ c ∈ byteDigits b, isHexDigit c = true ∧ isSpace c = false ∧ c ≠ ':' := by
  have hb := b.toNat_lt
  obtain ⟨hhigh, hspace, hcolon⟩ := nibble_value ((b >>> 4) &&& 0xF)
    (by rw [high_nibble]; omega)
  obtain ⟨hlow, hspace', hcolon'⟩ := nibble_value (b &&& 0xF)
    (by rw [low_nibble]; omega)
  constructor
  · rw [byteDigits, decodeHex, hhigh, hlow, high_nibble, low_nibble,
      Option.getD_some, Option.getD_some, Nat.div_add_mod' b.toNat 16,
      UInt8.ofNat_toNat]
    rfl
  · intro c hc
    rw [byteDigits] at hc
    rcases List.mem_cons.mp hc with rfl | hc
    · exact ⟨by rw [isHexDigit, hhigh]; rfl, hspace, hcolon⟩
    · rw [List.mem_singleton.mp hc]
      exact ⟨by rw [isHexDigit, hlow]; rfl, hspace', hcolon'⟩

theorem mem_toHex {d : Sha1Digest} {c : Char} (hc : c ∈ toHex d) :
    isHexDigit c = true ∧ isSpace c = false ∧ c ≠ ':' := by
  rw [toHex_eq] at hc
  obtain ⟨b, _, hb⟩ := List.mem_flatMap.mp hc
  exact (byteDigits_spec b).2 c hb

theorem flatMap_byteDigits_length (bytes : List UInt8) :
    (bytes.flatMap byteDigits).length = 2 * bytes.length := by
  induction bytes with
  | nil => rfl
  | cons b bytes ih =>
      rw [List.flatMap_cons, List.length_append, ih, List.length_cons]
      change 2 + _ = _
      omega

theorem decodeHex_flatMap (bytes : List UInt8) :
    decodeHex (bytes.flatMap byteDigits) = bytes := by
  induction bytes with
  | nil => rfl
  | cons b bytes ih =>
      have hhead := (byteDigits_spec b).1
      rw [byteDigits, decodeHex, List.cons.injEq] at hhead
      rw [List.flatMap_cons, byteDigits, List.cons_append, List.cons_append,
        List.nil_append, decodeHex, ih, hhead.1]

theorem toHex_length (d : Sha1Digest) : (toHex d).length = 40 := by
  rw [toHex_eq, flatMap_byteDigits_length, d.length_eq]

theorem fromHex_toHex (d : Sha1Digest) : fromHex (toHex d) = some d.bytes := by
  rw [fromHex_eq_decodeHex (fun c hc => (mem_toHex hc).1)
    (by rw [toHex_length]), toHex_eq, decodeHex_flatMap]

/-! ## Dumps -/

inductive LineEnd where
  | lf
  | crlf

def LineEnd.chars : LineEnd → List Char
  | .lf => ['\n']
  | .crlf => ['\r', '\n']

/-- A digest and what stands behind the colon, line by line. -/
def printDump (ending : LineEnd) (lines : List (Sha1Digest × List Char)) :
    List Char :=
  lines.flatMap fun line => toHex line.1 ++ ':' :: line.2 ++ ending.chars

theorem lineTexts_line
    (ending : LineEnd) (rest : List Char) {line : List Char}
    (hline : ∀ c ∈ line, isNewline c = false) (current : List Char) :
    lineTexts current (line ++ ending.chars ++ rest) =
      (current ++ line) :: lineTexts [] rest := by
  induction line generalizing current with
  | nil =>
      rw [List.append_nil]
      cases ending with
      | lf =>
          rw [LineEnd.chars, List.nil_append, List.singleton_append]
          rw [lineTexts]
      | crlf =>
          rw [LineEnd.chars, List.nil_append, List.cons_append,
            List.cons_append, List.nil_append, lineTexts]
  | cons c line ih =>
      have hc := hline c List.mem_cons_self
      simp only [isNewline, Bool.or_eq_false_iff, beq_eq_false_iff_ne] at hc
      obtain ⟨hcr, hlf⟩ := hc
      have hpair : ∀ tail, c = '\r' →
          line ++ ending.chars ++ rest = '\n' :: tail → False :=
        fun _ h _ => hcr h
      rw [List.cons_append, List.cons_append,
        lineTexts.eq_5 _ _ _ hpair hcr hlf,
        ih (fun d hd => hline d (List.mem_cons_of_mem c hd)),
        List.append_assoc]
      rfl

theorem isNewline_of_isSpace {c : Char} (hspace : isSpace c = false) :
    isNewline c = false := by
  rw [isNewline, Bool.or_eq_false_iff, beq_eq_false_iff_ne,
    beq_eq_false_iff_ne]
  constructor
  · rintro rfl
    exact absurd hspace (by decide)
  · rintro rfl
    exact absurd hspace (by decide)

theorem lineTexts_printDump
    (ending : LineEnd) {lines : List (Sha1Digest × List Char)}
    (hcounts : ∀ line ∈ lines, ∀ c ∈ line.2, isNewline c = false) :
    lineTexts [] (printDump ending lines) =
      lines.map fun line => toHex line.1 ++ ':' :: line.2 := by
  induction lines with
  | nil => rfl
  | cons line lines ih =>
      have hline : ∀ c ∈ toHex line.1 ++ ':' :: line.2,
          isNewline c = false := by
        intro c hc
        rcases List.mem_append.mp hc with hhex | hrest
        · exact isNewline_of_isSpace (mem_toHex hhex).2.1
        · rcases List.mem_cons.mp hrest with rfl | hcount
          · rfl
          · exact hcounts line List.mem_cons_self c hcount
      have hrest := ih fun l hl => hcounts l (List.mem_cons_of_mem line hl)
      have hcons : printDump ending (line :: lines) =
          (toHex line.1 ++ ':' :: line.2) ++ ending.chars ++
            printDump ending lines := List.flatMap_cons
      rw [hcons, lineTexts_line ending _ hline, hrest, List.nil_append,
        List.map_cons]

theorem hashField_printed (d : Sha1Digest) (count : List Char) :
    BuildBloom.hashField (toHex d ++ ':' :: count) = toHex d := by
  have hcolon : ∀ c ∈ toHex d, c ≠ ':' := fun c hc => (mem_toHex hc).2.2
  have hfield := partition_append hcolon count
  rw [BuildBloom.hashField, hfield.1,
    strip_eq_self fun c hc => (mem_toHex hc).2.1]

namespace BuildBloom

theorem iterDigests_printDump
    (ending : LineEnd) {lines : List (Sha1Digest × List Char)}
    (hcounts : ∀ line ∈ lines, ∀ c ∈ line.2, isNewline c = false) :
    iterDigests false (printDump ending lines) =
      (lines.map Prod.fst).map Sha1Digest.bytes := by
  have hread : ∀ line : Sha1Digest × List Char,
      (if (hashField (toHex line.1 ++ ':' :: line.2)).length ≠ 40 then none
        else fromHex (hashField (toHex line.1 ++ ':' :: line.2))) =
        some line.1.bytes := by
    intro line
    rw [hashField_printed, toHex_length, if_neg (not_not.mpr rfl),
      fromHex_toHex]
  rw [iterDigests_dump, lineTexts_printDump ending hcounts,
    List.filterMap_map]
  simp only [Function.comp_def, hread, List.filterMap_eq_map', List.map_map]

/-- A dump printed from digests, with any counts and either line end, builds
the file that the C++ builder serializes for them, and the self test finds no
miss. -/
theorem printed_dump_builds
    (ending : LineEnd) {lines : List (Sha1Digest × List Char)}
    (hcounts : ∀ line ∈ lines, ∀ c ∈ line.2, isNewline c = false)
    {Rate : Type} {floats : Floats Rate} {args : Args Rate}
    (hplain : args.plain = false)
    (hpos : 0 < args.count.getD lines.length) {m k : ℕ}
    (hparams : computeParams floats (args.count.getD lines.length) args.fp =
      .ok (m, k))
    (hm : m < 2 ^ 64) (hlines : lines.length < 2 ^ 64) :
    buildFile floats args (printDump ending lines) =
      .ok (0, some ((BloomBuilder.withParams (UInt64.ofNat m)
        (UInt32.ofNat k)).addAll (lines.map Prod.fst)).serialize) := by
  obtain ⟨hmpos, hdvd, hk, hkmax⟩ := computeParams_ok hparams
  have hkmax' : k < 2 ^ 32 := by omega
  have hlength : (lines.map Prod.fst).length = lines.length :=
    List.length_map _
  have hdigests : iterDigests args.plain (printDump ending lines) =
      (lines.map Prod.fst).map Sha1Digest.bytes := by
    rw [hplain]
    exact iterDigests_printDump ending hcounts
  have hcount : countItems args.plain (printDump ending lines) =
      lines.length := by
    rw [countItems, hdigests, List.length_map, hlength]
  obtain ⟨hmb, hkb⟩ :=
    BloomBuilder.withParams_eq hmpos hdvd hm hk hkmax'
  have hsound := BloomBuilder.withParams_ofNat_sound hmpos hdvd hm hk hkmax'
  obtain ⟨hsound', hm', _, _, hmarks⟩ :=
    BloomBuilder.addAll_spec hsound (lines.map Prod.fst)
  have hfill := fillBitset_eq hmpos hdvd hm hk hkmax' (lines.map Prod.fst)
  have hserialize := serialize_addAll hmpos hdvd hm hk hkmax'
    (show (lines.map Prod.fst).length < 2 ^ 64 by rw [hlength]; exact hlines)
  have hpack : packHeader k m lines.length =
      .ok (BloomBuilder.headerFields k m lines.length ++
        List.replicate 28 0) := by
    rw [packHeader_eq lines.length (by omega) (by omega), if_pos (by omega)]
  generalize (BloomBuilder.withParams (UInt64.ofNat m) (UInt32.ofNat k)).addAll
    (lines.map Prod.fst) = built at *
  have hmisses : selftestMisses args built.bitset m k
      ((lines.map Prod.fst).map Sha1Digest.bytes) = .ok 0 := by
    refine selftestMisses_zero hmpos ?_ ?_ args
    · rw [hsound'.size, hm', hmb]
      omega
    · intro d hd j hj
      rw [hmarks j, hmb, hkb]
      exact Or.inr ⟨d, hd, hj⟩
  simp only [buildFile, hcount, if_neg (not_le.mpr hpos), hparams, ok_bind,
    hdigests, hfill, List.length_map, hpack, hmisses, hserialize]
  rfl

def sampleLines : List (Sha1Digest × List Char) :=
  [(⟨List.replicate 20 171, rfl⟩, ['5']), (⟨List.replicate 20 0, rfl⟩, [])]

def fixedFloats : Floats Unit where
  inUnit := fun _ => true
  defaultRate := ()
  ceilBits := fun _ _ => .ok 29
  floorRounds := fun _ _ => .ok 11

theorem printed_dump_builds_sample :
    buildFile fixedFloats ⟨false, (), none, true⟩
        (printDump .crlf sampleLines) =
      .ok (0, some ((BloomBuilder.withParams 32 11).addAll
        (sampleLines.map Prod.fst)).serialize) := by
  have hcounts : ∀ line ∈ sampleLines, ∀ c ∈ line.2, isNewline c = false := by
    intro line hline c hc
    rcases List.mem_cons.mp hline with rfl | hline
    · rw [List.mem_singleton.mp hc]
      rfl
    · rw [List.mem_singleton.mp hline] at hc
      cases hc
  exact printed_dump_builds .crlf hcounts rfl (by decide) rfl (by norm_num)
    (by decide)

end BuildBloom

end PwFilter
