import PwFilter.PythonText
import PwFilter.PythonTools

/-!
# The dump reader of the builder

`iter_digests` takes the part of a line before the first colon, strips it, and
reads it as hexadecimal when it has forty characters.  `bytes.fromhex` lets
white space pass between two digits, so such a field may also be fewer than
forty digits with blanks among them.
-/

namespace PwFilter

open ByteMemory ProbeFilter UnicodeText PythonText

namespace BuildBloom

/-- `line.split(":", 1)[0].strip()` -/
def hashField (line : List Char) : List Char :=
  strip (line.takeWhile (· ≠ ':'))

/-- One round of the loop of `iter_digests`. -/
def lineDigest (plain : Bool) (raw : List Char) : Option (List UInt8) :=
  let line := raw.rdropWhile isNewline
  if line = [] then none
  else if plain then some (Fips180.sha1 (utf8 line))
  else
    let hexhash := hashField line
    if hexhash.length ≠ 40 then none
    else fromHex hexhash  -- `except ValueError: continue`

def iterDigests (plain : Bool) (text : List Char) : List (List UInt8) :=
  (rawLines [] text).filterMap (lineDigest plain)

def countItems (plain : Bool) (text : List Char) : ℕ :=
  (iterDigests plain text).length

/-- What `compute_params` takes from floating point: the test `0.0 < p < 1.0`,
the rate `0.001`, `int(math.ceil(m_real))` from `n` and the rate, and
`int(math.floor(…))` from `m_bits` and `n`. -/
structure Floats (Rate : Type) where
  inUnit : Rate → Bool
  defaultRate : Rate
  ceilBits : ℤ → Rate → Except PyError ℤ
  floorRounds : ℤ → ℤ → Except PyError ℤ

def computeParams {Rate : Type} (floats : Floats Rate) (n : ℤ) (p : Rate) :
    Except PyError (ℕ × ℕ) := do
  let n := if n ≤ 0 then 1 else n
  let p := if !floats.inUnit p then floats.defaultRate else p
  let mBits ← floats.ceilBits n p
  let mBits := if mBits < 8 then 8 else mBits
  let mBits := (mBits + 7) / 8 * 8
  let k ← floats.floorRounds mBits n
  let k := max 1 (min 64 k)
  .ok (mBits.toNat, k.toNat)

structure Args (Rate : Type) where
  plain : Bool
  fp : Rate
  count : Option ℤ
  selftest : Bool

/-- The misses of the self test, over the first digests of the file. -/
def selftestMisses {Rate : Type} (args : Args Rate) (bitset : List UInt8)
    (mBits k : ℕ) (digests : List (List UInt8)) : Except PyError ℕ :=
  if args.selftest then
    (digests.take 100000).foldlM (fun misses digest => do
      let found ← maybeContains bitset digest mBits k
      .ok (if found then misses else misses + 1)) 0
  else .ok 0

/-- `build(args)` for an input with this text: the exit code, and the output
file if one is written. -/
def buildFile {Rate : Type} (floats : Floats Rate) (args : Args Rate)
    (text : List Char) : Except PyError (ℕ × Option (List UInt8)) :=
  let digests := iterDigests args.plain text
  let n := args.count.getD (countItems args.plain text)
  if n ≤ 0 then .ok (2, none)
  else do
    let (mBits, k) ← computeParams floats n args.fp
    let bitset ← fillBitset mBits k digests
    let header ← packHeader k mBits digests.length
    let misses ← selftestMisses args bitset mBits k digests
    .ok (if misses ≠ 0 then 3 else 0, some (header ++ bitset))

/-! ## The grammar -/

/-- Forty digits before the colon stand for the twenty bytes they encode;
every other line stands for nothing. -/
def dumpDigest (line : List Char) : Option (List UInt8) :=
  if (hashField line).length = 40 ∧
      (hashField line).all isHexDigit = true then
    some (decodeHex (hashField line))
  else none

/-- Forty characters that are digits in pairs, with white space among them. -/
def HasSpacedHash (line : List Char) : Prop :=
  (hashField line).length = 40 ∧ SpacedHex (hashField line) ∧
    ∃ c ∈ hashField line, isAsciiSpace c = true

theorem length_of_dumpDigest
    {line : List Char} {d : List UInt8} (hd : dumpDigest line = some d) :
    d.length = 20 := by
  unfold dumpDigest at hd
  split at hd
  · rename_i hfield
    rw [← Option.some.inj hd, decodeHex_length, hfield.1]
  · cases hd

theorem hashField_nil : hashField [] = [] := rfl

theorem iterDigests_dump (text : List Char) :
    iterDigests false text =
      (lineTexts [] text).filterMap fun line =>
        if (hashField line).length ≠ 40 then none
        else fromHex (hashField line) := by
  rw [iterDigests, ← rawLines_rstrip [] text (by simp), List.filterMap_map]
  apply List.filterMap_congr
  intro raw _
  simp only [lineDigest, Function.comp_apply, Bool.false_eq_true, if_false]
  by_cases hempty : raw.rdropWhile isNewline = []
  · rw [if_pos hempty, hempty, hashField_nil, if_pos (by decide)]
  · rw [if_neg hempty]

theorem fromHex_hashField
    {line : List Char} (hline : ¬ HasSpacedHash line) :
    (if (hashField line).length ≠ 40 then none
      else fromHex (hashField line)) = dumpDigest line := by
  by_cases hlength : (hashField line).length = 40
  · rw [if_neg (not_not.mpr hlength), dumpDigest]
    by_cases hdigits : (hashField line).all isHexDigit = true
    · rw [if_pos ⟨hlength, hdigits⟩,
        fromHex_eq_decodeHex (List.all_eq_true.mp hdigits) (by rw [hlength])]
    · rw [if_neg fun h => hdigits h.2]
      cases hread : fromHex (hashField line) with
      | none => rfl
      | some bytes =>
          have hspaced := spacedHex_of_fromHex hread
          refine absurd (List.all_eq_true.mpr (hspaced.digits ?_)) hdigits
          intro c hc
          rw [Bool.eq_false_iff]
          intro hspace
          exact hline ⟨hlength, hspaced, c, hc, hspace⟩
  · rw [if_pos hlength, dumpDigest, if_neg fun h => hlength h.1]

theorem HasSpacedHash.short
    {line : List Char} (h : HasSpacedHash line) :
    ∃ bytes, fromHex (hashField line) = some bytes ∧ bytes.length < 20 := by
  obtain ⟨hlength, hspaced, c, hc, hspace⟩ := h
  obtain ⟨bytes, hread, hcount⟩ := hspaced.reads
  have hpos : 0 < (hashField line).countP isAsciiSpace :=
    List.countP_pos_iff.mpr ⟨c, hc, hspace⟩
  exact ⟨bytes, hread, by omega⟩

/-! ## A successful build -/

theorem exists_of_bind_ok
    {α β : Type} {x : Except PyError α} {f : α → Except PyError β} {r : β}
    (h : (x >>= f) = .ok r) : ∃ a, x = .ok a ∧ f a = .ok r := by
  cases x with
  | error e => cases h
  | ok a => exact ⟨a, rfl, h⟩

theorem computeParams_ok
    {Rate : Type} {floats : Floats Rate} {n : ℤ} {p : Rate} {m k : ℕ}
    (h : computeParams floats n p = .ok (m, k)) :
    0 < m ∧ m % 8 = 0 ∧ 1 ≤ k ∧ k ≤ 64 := by
  obtain ⟨bits, _, h⟩ := exists_of_bind_ok h
  obtain ⟨rounds, _, h⟩ := exists_of_bind_ok h
  simp only [Except.ok.injEq, Prod.mk.injEq] at h
  obtain ⟨rfl, rfl⟩ := h
  by_cases hsmall : bits < 8
  · rw [if_pos hsmall]
    omega
  · rw [if_neg hsmall]
    omega

theorem packField_ok
    {width value : ℕ} {bytes : List UInt8}
    (h : packField width value = .ok bytes) : value < 256 ^ width := by
  unfold packField at h
  split at h
  · assumption
  · cases h

theorem packHeader_ok
    {k m n : ℕ} {header : List UInt8} (h : packHeader k m n = .ok header) :
    m < 256 ^ 8 ∧ n < 256 ^ 8 ∧
      header = BloomBuilder.headerFields k m n ++ List.replicate 28 0 := by
  have hpacked := h
  obtain ⟨_, _, h⟩ := exists_of_bind_ok h
  obtain ⟨_, hk, h⟩ := exists_of_bind_ok h
  obtain ⟨_, hm, h⟩ := exists_of_bind_ok h
  obtain ⟨_, hn, _⟩ := exists_of_bind_ok h
  have hnlt := packField_ok hn
  rw [packHeader_eq n (packField_ok hk) (packField_ok hm), if_pos hnlt]
    at hpacked
  exact ⟨packField_ok hm, hnlt, (Except.ok.inj hpacked).symm⟩

theorem buildFile_image
    {Rate : Type} {floats : Floats Rate} {args : Args Rate} {text : List Char}
    {code : ℕ} {image : List UInt8}
    (h : buildFile floats args text = .ok (code, some image)) :
    ∃ m k bitset header misses, 0 < m ∧ m % 8 = 0 ∧ 1 ≤ k ∧ k ≤ 64 ∧
      fillBitset m k (iterDigests args.plain text) = .ok bitset ∧
      packHeader k m (iterDigests args.plain text).length = .ok header ∧
      selftestMisses args bitset m k (iterDigests args.plain text) =
        .ok misses ∧
      code = (if misses ≠ 0 then 3 else 0) ∧ image = header ++ bitset := by
  simp only [buildFile] at h
  split at h
  · cases h
  · obtain ⟨⟨m, k⟩, hparams, h⟩ := exists_of_bind_ok h
    obtain ⟨bitset, hfill, h⟩ := exists_of_bind_ok h
    obtain ⟨header, hpack, h⟩ := exists_of_bind_ok h
    obtain ⟨misses, hmisses, h⟩ := exists_of_bind_ok h
    obtain ⟨hm, hdvd, hk, hkmax⟩ := computeParams_ok hparams
    simp only [Except.ok.injEq, Prod.mk.injEq, Option.some.injEq] at h
    exact ⟨m, k, bitset, header, misses, hm, hdvd, hk, hkmax, hfill, hpack,
      hmisses, h.1.symm, h.2.symm⟩

theorem exists_sha1Digests
    {digests : List (List UInt8)} (hlength : ∀ d ∈ digests, d.length = 20) :
    ∃ ds : List Sha1Digest, ds.map Sha1Digest.bytes = digests := by
  induction digests with
  | nil => exact ⟨[], rfl⟩
  | cons d digests ih =>
      obtain ⟨ds, hds⟩ := ih fun e he => hlength e (List.mem_cons_of_mem _ he)
      refine ⟨⟨d, hlength d List.mem_cons_self⟩ :: ds, ?_⟩
      rw [List.map_cons, hds]

/-- A file built from whole digests is accepted by the C++ reader, counts the
digests, and reports every one of them. -/
theorem buildFile_reports
    {Rate : Type} {floats : Floats Rate} {args : Args Rate} {text : List Char}
    {code : ℕ} {image : List UInt8}
    (h : buildFile floats args text = .ok (code, some image))
    (hlength : ∀ d ∈ iterDigests args.plain text, d.length = 20) :
    ∃ bf, BloomFilter.fromMemory (some image) = some bf ∧
      bf.n.toNat = (iterDigests args.plain text).length ∧
      ∀ q : Sha1Digest, q.bytes ∈ iterDigests args.plain text →
        bf.maybeContains q = true := by
  obtain ⟨m, k, bitset, header, _, hm, hdvd, hk, hkmax, hfill, hpack, _, _,
    himage⟩ := buildFile_image h
  obtain ⟨hmax, hcount, hheader⟩ := packHeader_ok hpack
  obtain ⟨ds, hds⟩ := exists_sha1Digests hlength
  have hmax' : m < 2 ^ 64 := by omega
  have hkmax' : k < 2 ^ 32 := by omega
  have hdslength : ds.length = (iterDigests args.plain text).length := by
    rw [← hds, List.length_map]
  have hfill' := fillBitset_eq hm hdvd hmax' hk hkmax' ds
  rw [hds, hfill, Except.ok.injEq] at hfill'
  have hsound := BloomBuilder.withParams_ofNat_sound hm hdvd hmax' hk hkmax'
  have hsound' := (BloomBuilder.addAll_spec hsound ds).1
  obtain ⟨bf, hread, _, _, hnbf, _⟩ := hsound'.fromMemory
  have hserialize : image = ((BloomBuilder.withParams (UInt64.ofNat m)
      (UInt32.ofNat k)).addAll ds).serialize := by
    rw [serialize_addAll hm hdvd hmax' hk hkmax' (by omega), himage, hheader,
      hfill', hdslength]
  refine ⟨bf, by rw [hserialize]; exact hread, ?_, ?_⟩
  · rw [hnbf, BloomBuilder.addAll_n_toNat _ hsound (by omega), hdslength]
  · intro q hq
    rw [← hds] at hq
    obtain ⟨d, hd, hbytes⟩ := List.mem_map.mp hq
    rw [Sha1Digest.ext_bytes hbytes] at hd
    rw [maybeContains_built_iff hread]
    intro j hj
    exact ⟨q, hd, hj⟩

/-! ## What the reader accepts -/

/-- What the dump reader promises for a file with this text. -/
structure ReadsDump (text : List Char) : Prop where
  digests : iterDigests false text = (lineTexts [] text).filterMap dumpDigest
  length : ∀ d ∈ iterDigests false text, d.length = 20
  built : ∀ {Rate : Type} (floats : Floats Rate) (args : Args Rate) code image,
    args.plain = false → buildFile floats args text = .ok (code, some image) →
    ∃ bf, BloomFilter.fromMemory (some image) = some bf ∧
      bf.n.toNat = ((lineTexts [] text).filterMap dumpDigest).length ∧
      ∀ line ∈ lineTexts [] text, ∀ q : Sha1Digest,
        dumpDigest line = some q.bytes → bf.maybeContains q = true

/-- The reader accepts exactly its grammar, and what is built from the file
holds exactly that, unless a hash of forty characters has white space between
its digits. -/
theorem reads_dump_iff (text : List Char) :
    ReadsDump text ↔ ∀ line ∈ lineTexts [] text, ¬ HasSpacedHash line := by
  constructor
  · intro hreads line hline hspaced
    obtain ⟨bytes, hread, hshort⟩ := hspaced.short
    have hmem : bytes ∈ iterDigests false text := by
      rw [iterDigests_dump, List.mem_filterMap]
      exact ⟨line, hline, by rw [if_neg (not_not.mpr hspaced.1), hread]⟩
    have hlength := hreads.length bytes hmem
    omega
  · intro hplain
    have hdigests : iterDigests false text =
        (lineTexts [] text).filterMap dumpDigest := by
      rw [iterDigests_dump]
      exact List.filterMap_congr fun line hline =>
        fromHex_hashField (hplain line hline)
    have hlength : ∀ d ∈ iterDigests false text, d.length = 20 := by
      intro d hd
      rw [hdigests, List.mem_filterMap] at hd
      obtain ⟨line, _, hline⟩ := hd
      exact length_of_dumpDigest hline
    refine ⟨hdigests, hlength, ?_⟩
    intro Rate floats args code image hargs hbuild
    have hlength' : ∀ d ∈ iterDigests args.plain text, d.length = 20 := by
      rw [hargs]
      exact hlength
    obtain ⟨bf, hread, hn, hfound⟩ := buildFile_reports hbuild hlength'
    rw [hargs, hdigests] at hn hfound
    refine ⟨bf, hread, hn, ?_⟩
    intro line hline q hq
    exact hfound q (List.mem_filterMap.mpr ⟨line, hline, hq⟩)

/-- Thirty-six zeros, two blanks and `ff` are taken for a hash, of nineteen
bytes. -/
def spacedDump : List Char :=
  List.replicate 36 '0' ++ [' ', ' ', 'f', 'f', ':', '5', '\n']

theorem spaced_hash_is_yielded :
    iterDigests false spacedDump = [List.replicate 18 0 ++ [0xFF]] ∧
      (lineTexts [] spacedDump).filterMap dumpDigest = [] ∧
      ¬ ReadsDump spacedDump := by
  have hyields : iterDigests false spacedDump =
      [List.replicate 18 0 ++ [0xFF]] := by decide
  refine ⟨hyields, by decide, ?_⟩
  intro hreads
  have hlength := hreads.length (List.replicate 18 0 ++ [0xFF])
    (by rw [hyields]; exact List.mem_cons_self)
  exact absurd hlength (by decide)

/-! ## The self test and word lists -/

theorem selftestMisses_zero
    {m k : ℕ} (hm : 0 < m) {bits : List UInt8} (hsize : m ≤ 8 * bits.length)
    {ds : List Sha1Digest}
    (hmarked : ∀ d ∈ ds, ∀ j ∈ BloomFilter.probes m k d, bit bits j = true)
    {Rate : Type} (args : Args Rate) :
    selftestMisses args bits m k (ds.map Sha1Digest.bytes) = .ok 0 := by
  have hfold : ∀ es : List Sha1Digest, (∀ e ∈ es, e ∈ ds) →
      (es.map Sha1Digest.bytes).foldlM (fun misses digest => do
        let found ← maybeContains bits digest m k
        .ok (if found then misses else misses + 1)) 0 =
          (.ok 0 : Except PyError ℕ) := by
    intro es
    induction es with
    | nil => exact fun _ => rfl
    | cons e es ih =>
        intro hes
        obtain ⟨found, hrun, hfound⟩ := maybeContains_spec e hm k bits hsize
        have hhit : found = true :=
          hfound.mpr (hmarked e (hes e List.mem_cons_self))
        rw [List.map_cons, List.foldlM_cons, hrun, hhit]
        exact ih fun d hd => hes d (List.mem_cons_of_mem _ hd)
  unfold selftestMisses
  split
  · rw [← List.map_take]
    exact hfold _ fun e he => List.mem_of_mem_take he
  · rfl

/-- In plain mode every line gives a whole digest. -/
theorem iterDigests_plain_length (text : List Char) :
    ∀ d ∈ iterDigests true text, d.length = 20 := by
  intro d hd
  obtain ⟨raw, _, hraw⟩ := List.mem_filterMap.mp hd
  simp only [lineDigest, if_true] at hraw
  split at hraw
  · cases hraw
  · rw [← Option.some.inj hraw]
    exact Fips180.sha1_length _

end BuildBloom

end PwFilter
