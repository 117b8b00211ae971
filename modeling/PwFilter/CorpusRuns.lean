import PwFilter.PolicyRuns
import PwFilter.RateParams

/-!
# From the corpus to the answer

The file that `build_bloom.py` makes of a corpus lies where the package looks
for it.  Then no password of the corpus is accepted, unless an error is raised
on the way.
-/

namespace PwFilter

open ByteMemory HandleTable ActionRuns UnicodeText PythonText

namespace BuildBloom

/-- A word list holds the passwords on its lines, a dump those whose digests
stand on its lines; a dump with white space inside a hash is not read
faithfully. -/
def Lists (plain : Bool) (text : List Char) (password : List Char) : Prop :=
  if plain then password ≠ [] ∧ password ∈ lineTexts [] text
  else (∀ line ∈ lineTexts [] text, ¬ HasSpacedHash line) ∧
    ∃ line ∈ lineTexts [] text,
      dumpDigest line = some (Fips180.sha1 (utf8 password))

theorem Lists.digests
    {plain : Bool} {text password : List Char} (h : Lists plain text password) :
    (∀ d ∈ iterDigests plain text, d.length = 20) ∧
      Fips180.sha1 (utf8 password) ∈ iterDigests plain text := by
  cases plain with
  | true =>
      rw [Lists, if_pos rfl] at h
      obtain ⟨hne, hline⟩ := h
      refine ⟨iterDigests_plain_length text, ?_⟩
      rw [← rawLines_rstrip [] text (by simp)] at hline
      obtain ⟨raw, hraw, hstripped⟩ := List.mem_map.mp hline
      refine List.mem_filterMap.mpr ⟨raw, hraw, ?_⟩
      simp only [lineDigest, hstripped, if_neg hne, if_true]
  | false =>
      rw [Lists, if_neg Bool.false_ne_true] at h
      obtain ⟨hplain, line, hline, hdigest⟩ := h
      have hdigests : iterDigests false text =
          (lineTexts [] text).filterMap dumpDigest := by
        rw [iterDigests_dump]
        exact List.filterMap_congr fun line hline =>
          fromHex_hashField (hplain line hline)
      rw [hdigests]
      refine ⟨?_, List.mem_filterMap.mpr ⟨line, hline, hdigest⟩⟩
      intro d hd
      obtain ⟨other, _, hother⟩ := List.mem_filterMap.mp hd
      exact length_of_dumpDigest hother

end BuildBloom

theorem Host.bloom_eq {host : Host} {bf : BloomFilter}
    (hbloom : host.bloom = some bf) :
    BloomFilter.fromMemory (some (host.files
      (filePath host "BloomFile" "breach.bloom")).content) = some bf := by
  unfold bloom WinFile.bloomFilter at hbloom
  split at hbloom
  · split at hbloom
    · exact hbloom
    · cases hbloom
  · cases hbloom

/-- What the declared filter reports breaks the rule on breaches. -/
theorem Host.violates_breached
    {host : Host} {ctx : FilterContext} {args : CallArgs} {bf : BloomFilter}
    (hchecker : ctx.checker = some bf) (hbloom : host.bloom = some bf)
    (hlength : (viewString args.password).length ≤ 1365)
    (hcontains : bf.maybeContains
      (sha1Value (passwordBytes (viewString args.password))) = true) :
    host.Violates ctx args .breached := by
  have hcheck : host.policy.checkBreach = true := by
    by_contra hoff
    rw [Host.bloom, if_neg hoff] at hbloom
    cases hbloom
  have hbytes := utf8_decodeUtf16_length_le (viewString args.password)
  have hfit : (passwordBytes (viewString args.password)).length ≤ kMaxUtf8 := by
    rw [kMaxUtf8, passwordBytes]
    omega
  refine ⟨hcheck, BloomBreachChecker.isBreached bf host.stack host.shaMemory,
    ?_, ?_⟩
  · rw [Host.services, hchecker]
    rfl
  · rw [BloomBreachChecker.isBreached_eq, decide_eq_true hfit, hcontains]
    rfl

/-- A call that looks up a password of the corpus, with the file built from it
in place and no error on the way, is answered with a rejection. -/
theorem listed_password_rejected
    {Thread : Type} [DecidableEq Thread] {m : Machine}
    {actions : List (Action Thread)} {p : Process Thread}
    (hrun : run (Process.step m) {} actions = some p)
    {Rate : Type} {floats : BuildBloom.Floats Rate}
    {args : BuildBloom.Args Rate} {text : List Char} {code : ℕ}
    {image : List UInt8}
    (hbuild : BuildBloom.buildFile floats args text = .ok (code, some image))
    (hfile : (m.host.files
      (filePath m.host "BloomFile" "breach.bloom")).content = image)
    {r : Answered} (hr : .answered r ∈ p.history)
    (hchecker : ∃ ctx ∈ r.gCtx, breachEnabled ctx = true)
    (hpassword : r.args.HasPassword)
    (hlength : (viewString r.args.password).length ≤ 1365)
    (hlisted : BuildBloom.Lists args.plain text
      (decodeUtf16 (viewString r.args.password))) :
    r.accepted = false ∨ ∃ fault, r.verdict = .failed fault := by
  obtain ⟨haccepted, hloaded⟩ := Process.answered_of_run hrun hr
  have hjustified := Verdict.justified hloaded
  obtain ⟨ctx, hctx, henabled⟩ := hchecker
  rw [haccepted]
  cases hverdict : r.verdict with
  | rejected rule => exact .inl rfl
  | failed fault => exact .inr ⟨fault, rfl⟩
  | accepted =>
      rw [hverdict] at hjustified
      exfalso
      rcases hjustified with hnone | hmalformed | ⟨other, hother, hholds, hclean⟩
      · rw [hnone] at hctx
        cases hctx
      · exact hmalformed hpassword
      · rw [hother, Option.mem_some_iff] at hctx
        rw [← hctx] at henabled
        obtain ⟨hlength20, hmem⟩ := hlisted.digests
        obtain ⟨bf, hread, _, hreports⟩ :=
          BuildBloom.buildFile_reports hbuild hlength20
        obtain ⟨loadedFilter, hloadedFilter⟩ :=
          Option.isSome_iff_exists.mp henabled
        have hbloom : m.host.bloom = some loadedFilter := by
          rcases hholds.checker with hnone | hsame
          · rw [hnone] at hloadedFilter
            cases hloadedFilter
          · rw [← hsame]
            exact hloadedFilter
        have hsamefilter := Host.bloom_eq hbloom
        rw [hfile, hread, Option.some.injEq] at hsamefilter
        refine hclean .breached (by decide) ?_
        refine Host.violates_breached hloadedFilter hbloom hlength ?_
        rw [← hsamefilter]
        exact hreports _ hmem

/-- A dump with two digests, the first of a password that passes every other
test, and the file for it. -/
def sampleDump : List Char :=
  ("4BF16028EE7E705E3E1C1FE9C8BDA539A7200C56:5\n" ++
    "22EA1C649C82946AA6E479E1FFD321E4A318B1B0:3\n").toList

def samplePassword : List Char := "Wm7!Kp4@Zb9#Vt2$".toList

theorem sampleDigest_bytes : (sha1Value (utf8 samplePassword)).bytes =
    [0x4B, 0xF1, 0x60, 0x28, 0xEE, 0x7E, 0x70, 0x5E, 0x3E, 0x1C, 0x1F, 0xE9,
      0xC8, 0xBD, 0xA5, 0x39, 0xA7, 0x20, 0x0C, 0x56] := by
  have hbytes : utf8 samplePassword =
      samplePassword.map fun c => UInt8.ofNat c.toNat := by decide
  rw [hbytes, ← sha1Hash_eq (Vector.replicate 64 0) (by decide)]
  decide +kernel

theorem sampleDump_lists : BuildBloom.Lists false sampleDump samplePassword := by
  have hlines : lineTexts [] sampleDump =
      [sampleDump.take 42, (sampleDump.drop 43).take 42] := by
    decide +kernel
  have hclean : ∀ line ∈ lineTexts [] sampleDump,
      (BuildBloom.hashField line).all (fun c => !isAsciiSpace c) = true := by
    rw [hlines]
    decide +kernel
  rw [BuildBloom.Lists, if_neg Bool.false_ne_true]
  refine ⟨?_, sampleDump.take 42, by rw [hlines]; exact List.mem_cons_self, ?_⟩
  · intro line hline hspaced
    obtain ⟨_, _, c, hc, hspace⟩ := hspaced
    have hno := List.all_eq_true.mp (hclean line hline) c hc
    rw [hspace] at hno
    cases hno
  · have hread : BuildBloom.dumpDigest (sampleDump.take 42) =
        some (sha1Value (utf8 samplePassword)).bytes := by
      rw [sampleDigest_bytes]
      decide +kernel
    exact hread

def sampleImage : List UInt8 :=
  kBloomMagic ++ leBytes 4 1 ++ leBytes 4 11 ++ leBytes 8 32 ++ leBytes 8 2 ++
    leBytes 4 1 ++ List.replicate 28 0 ++ [239, 91, 148, 239]

theorem sampleDump_builds :
    BuildBloom.buildFile pyThousandths ⟨false, 1, none, true⟩ sampleDump =
      .ok (0, some sampleImage) := rfl

def bloomPath : List UInt16 :=
  asciiUnits "C:\\ProgramData\\PasswordFilter\\breach.bloom".toList

def corpusMachine : Machine :=
  { sampleMachine with
    host :=
      { plainHost with
        files := fun path =>
          if path = bloomPath then plainFile sampleImage
          else plainFile [0x71] } }

def Entry.breached : Entry → Bool
  | .initialized _ _ _ => false
  | .answered r =>
      decide (r.verdict = .rejected .breached) &&
        (r.gCtx.any breachEnabled &&
          (r.args.password.any (fun s => s.buffer.isSome) &&
            decide (viewString r.args.password = asciiUnits samplePassword)))

/-- The call comes to the last test, which rejects it. -/
theorem listed_password_rejected_sample :
    ∃ p r, run (Process.step corpusMachine) {} strongActions = some p ∧
      .answered r ∈ p.history ∧ r.verdict = .rejected .breached ∧
      (r.accepted = false ∨ ∃ fault, r.verdict = .failed fault) := by
  have hbreached : ((run (Process.step corpusMachine) {} strongActions).map
      fun p => p.history.any Entry.breached) = some true := by decide +kernel
  obtain ⟨p, entry, hrun, hentry, hfound⟩ := exists_entry_of_any hbreached
  cases entry with
  | initialized gCtx log stopped => cases hfound
  | answered r =>
      simp only [Entry.breached, Bool.and_eq_true, decide_eq_true_eq,
        Option.any_eq_true] at hfound
      obtain ⟨hverdict, ⟨ctx, hctx, henabled⟩, ⟨s, hs, hbuffer⟩, hview⟩ := hfound
      have hdecoded : decodeUtf16 (asciiUnits samplePassword) =
          samplePassword := by decide
      have hfile : (corpusMachine.host.files
          (filePath corpusMachine.host "BloomFile" "breach.bloom")).content =
            sampleImage := by decide +kernel
      have hargs : r.args.HasPassword := by
        refine ⟨s, hs, ?_⟩
        intro hnone
        rw [hnone.1] at hbuffer
        cases hbuffer
      have hlength : (viewString r.args.password).length ≤ 1365 := by
        rw [hview]
        decide
      have hlisted : BuildBloom.Lists false sampleDump
          (decodeUtf16 (viewString r.args.password)) := by
        rw [hview, hdecoded]
        exact sampleDump_lists
      exact ⟨p, r, hrun, hentry, hverdict,
        listed_password_rejected hrun sampleDump_builds hfile hentry
          ⟨ctx, hctx, henabled⟩ hargs hlength hlisted⟩

end PwFilter
