import PwFilter.HexDigest
import PwFilter.CorpusRuns

/-!
# The online check

`pwhibp_check.py` asks a range service about the first five digits of a hash,
looks for the rest of it in the answer, and can compare with a local Bloom
file.  The service may answer a request according to all it was asked before.
A request that fails raises a `URLError`, which `main` catches, or another
exception, which it does not.
-/

namespace PwFilter

open PythonText UnicodeText ByteMemory

structure RangeRequest where
  url : List Char
  addPadding : Bool
  deriving DecidableEq

def api : List Char := "https://api.pwnedpasswords.com/range/".toList

def passwordDigest (password : List Char) : Sha1Digest :=
  sha1Value (utf8 password)

/-- `hashlib.sha1(password.encode("utf-8")).hexdigest().upper()` -/
def hashDigits (password : List Char) : List Char :=
  toHex (passwordDigest password)

def requestFor (padding : Bool) (digits : List Char) : RangeRequest :=
  { url := api ++ digits.take 5, addPadding := padding }

def rangeRequest (padding : Bool) (password : List Char) : RangeRequest :=
  requestFor padding (hashDigits password)

/-- The loop of `hibp_count` over the lines of the body. -/
def rangeCount (suffix : List Char) : List (List Char) → ℤ
  | [] => 0
  | line :: rest =>
      if line.takeWhile (· ≠ ':') = suffix then
        (pyInt ((line.dropWhile (· ≠ ':')).drop 1)).getD 1
      else rangeCount suffix rest

/-- What a request can raise: a `URLError`, or anything else, as a time-out
while the body is read, a connection that drops, or a body that is not UTF-8. -/
inductive RequestError where
  | urlError
  | other
  deriving DecidableEq

/-- The decoded body of an answer. -/
abbrev Reply := Except RequestError (List Char)

/-- The service sees the requests before this one. -/
abbrev RangeService := List RangeRequest → RangeRequest → Reply

def hibpCount (service : RangeService) (sent : List RangeRequest)
    (padding : Bool) (password : List Char) : Except RequestError ℤ :=
  (service sent (rangeRequest padding password)).map fun body =>
    rangeCount ((hashDigits password).drop 5) (splitlines body)

/-- What is printed for a password. -/
structure Report where
  count : ℤ
  present : Option Bool

def Report.mismatch (r : Report) : Bool :=
  match r.present with
  | some present => decide (0 < r.count) != present
  | none => false

/-- An exception that `main` does not catch; Python prints it and exits. -/
inductive Uncaught where
  | request
  | bloom (e : PyError)

structure CheckRun where
  requests : List RangeRequest
  reports : List Report
  exit : Except Uncaught ℕ

def presence (bloom : Option LocalBloom) (password : List Char) :
    Except PyError (Option Bool) :=
  match bloom with
  | none => .ok none
  | some b => (b.maybeContains password).map some

/-- The loop of `main`, with the requests sent and the exit code so far. -/
def checkPasswords (service : RangeService) (bloom : Option LocalBloom)
    (padding : Bool) :
    List RangeRequest → ℕ → List (List Char) → CheckRun
  | _, rc, [] => { requests := [], reports := [], exit := .ok rc }
  | sent, rc, password :: rest =>
      let request := rangeRequest padding password
      match hibpCount service sent padding password with
      | .error .urlError =>
          { requests := [request], reports := [], exit := .ok 3 }
      | .error .other =>
          { requests := [request], reports := [], exit := .error .request }
      | .ok n =>
          match presence bloom password with
          | .error e =>
              { requests := [request], reports := []
                exit := .error (.bloom e) }
          | .ok present =>
              let run := checkPasswords service bloom padding
                (sent ++ [request]) (if n ≠ 0 then 1 else rc) rest
              { requests := request :: run.requests
                reports := { count := n, present := present } :: run.reports
                exit := run.exit }

/-- `LocalBloom(args.bloom)`, when the option is given; none is a file that
cannot be opened. -/
def openBloom (bloomFile : Option (Option (List UInt8))) :
    Except (Except Uncaught ℕ) (Option LocalBloom) :=
  match bloomFile with
  | none => .ok none
  | some none => .error (.ok 2)
  | some (some data) =>
      match LocalBloom.load data with
      | .error (.valueError _) => .error (.ok 2)
      | .error e => .error (.error (.bloom e))
      | .ok bloom => .ok (some bloom)

/-- `main`, for the passwords that `passwords_from` yields. -/
def checkMain (service : RangeService)
    (bloomFile : Option (Option (List UInt8))) (padding : Bool)
    (passwords : List (List Char)) : CheckRun :=
  match openBloom bloomFile with
  | .error exit => { requests := [], reports := [], exit := exit }
  | .ok bloom => checkPasswords service bloom padding [] 0 passwords

/-! ## What leaves the host -/

/-- Whether a loaded file answers at all does not depend on the password. -/
theorem LocalBloom.maybeContains_total
    {data : List UInt8} {bloom : LocalBloom} (hload : load data = .ok bloom) :
    (∀ password, ∃ found, bloom.maybeContains password = .ok found) ∨
      ∀ password, ∃ e, bloom.maybeContains password = .error e := by
  obtain ⟨hlocal, rfl⟩ := (load_ok_iff data bloom).mp hload
  by_cases hm : 0 < imageField data 16 8
  · refine .inl fun password => ?_
    have hheader : bloomHeader = 64 := rfl
    have hsize : imageField data 16 8 ≤
        8 * (data.drop bloomHeader).length := by
      have hlength := hlocal.size
      have hdvd := hlocal.m_dvd
      rw [List.length_drop, hheader]
      omega
    obtain ⟨found, hrun, _⟩ :=
      pyProbeLoop_spec (sha1Value (utf8 password)) hm hsize
        (imageField data 12 4) 0
    exact ⟨found, hrun⟩
  · have hzero : imageField data 16 8 = 0 := by omega
    cases hk : imageField data 12 4 with
    | zero =>
        refine .inl fun password => ⟨true, ?_⟩
        simp only [maybeContains, pyProbeLoop]
    | succ k =>
        refine .inr fun password => ⟨.zeroDivisionError, ?_⟩
        simp only [maybeContains, hzero, pyProbeLoop, pyProbe, pyMod, if_true]
        rfl

theorem openBloom_ok
    {bloomFile : Option (Option (List UInt8))} {bloom : Option LocalBloom}
    (hopen : openBloom bloomFile = .ok bloom) :
    ∀ b ∈ bloom, ∃ data, bloomFile = some (some data) ∧
      LocalBloom.load data = .ok b := by
  unfold openBloom at hopen
  split at hopen
  · cases hopen
    simp
  · cases hopen
  · rename_i data
    split at hopen
    · cases hopen
    · cases hopen
    · rename_i b hload
      cases hopen
      intro b' hb
      rw [Option.mem_some_iff] at hb
      exact ⟨data, rfl, by rw [hload, hb]⟩

theorem presence_total
    {bloom : Option LocalBloom}
    (hbloom : ∀ b ∈ bloom, ∃ data, LocalBloom.load data = .ok b) :
    (∀ password, ∃ present, presence bloom password = .ok present) ∨
      ∀ password, ∃ e, presence bloom password = .error e := by
  cases bloom with
  | none => exact .inl fun _ => ⟨none, rfl⟩
  | some b =>
      obtain ⟨data, hload⟩ := hbloom b rfl
      rcases LocalBloom.maybeContains_total hload with hall | hall
      · refine .inl fun password => ?_
        obtain ⟨found, hfound⟩ := hall password
        exact ⟨some found, by rw [presence, hfound]; rfl⟩
      · refine .inr fun password => ?_
        obtain ⟨e, he⟩ := hall password
        exact ⟨e, by rw [presence, he]; rfl⟩

/-- The requests depend on the first digits alone, whatever the exit code so
far. -/
theorem checkPasswords_requests
    (service : RangeService) {bloom : Option LocalBloom}
    (hbloom : ∀ b ∈ bloom, ∃ data, LocalBloom.load data = .ok b)
    (padding : Bool) (sent : List RangeRequest) (rc rc' : ℕ)
    {passwords others : List (List Char)}
    (hsame : passwords.map (fun p => (hashDigits p).take 5) =
      others.map fun p => (hashDigits p).take 5) :
    (checkPasswords service bloom padding sent rc passwords).requests =
      (checkPasswords service bloom padding sent rc' others).requests := by
  induction passwords generalizing sent rc rc' others with
  | nil =>
      rw [List.map_nil] at hsame
      rw [List.map_eq_nil_iff.mp hsame.symm]
      rfl
  | cons password rest ih =>
      cases others with
      | nil => cases hsame
      | cons other others =>
          rw [List.map_cons, List.map_cons, List.cons.injEq] at hsame
          obtain ⟨hfirst, hrest⟩ := hsame
          have hrequest : rangeRequest padding password =
              rangeRequest padding other := by
            rw [rangeRequest, rangeRequest, requestFor, requestFor, hfirst]
          simp only [checkPasswords, hibpCount, hrequest]
          cases service sent (rangeRequest padding other) with
          | error e =>
              cases e with
              | urlError => rfl
              | other => rfl
          | ok body =>
              -- a file that answers one password answers the other
              rcases presence_total hbloom with hall | hall
              · obtain ⟨present, hpresent⟩ := hall password
                obtain ⟨present', hpresent'⟩ := hall other
                simp only [Except.map, hpresent, hpresent']
                rw [ih _ _ _ hrest]
              · obtain ⟨e, he⟩ := hall password
                obtain ⟨e', he'⟩ := hall other
                simp only [Except.map, he, he']

/-- Passwords whose digests agree in five digits cause the same requests,
whatever the service answers and whatever file is read. -/
theorem range_requests_anonymous
    (service : RangeService) (bloomFile : Option (Option (List UInt8)))
    (padding : Bool) {passwords others : List (List Char)}
    (hsame : passwords.map (fun p => (hashDigits p).take 5) =
      others.map fun p => (hashDigits p).take 5) :
    (checkMain service bloomFile padding passwords).requests =
      (checkMain service bloomFile padding others).requests := by
  unfold checkMain
  split
  · rfl
  · rename_i bloom hopen
    refine checkPasswords_requests service ?_ padding [] 0 0 hsame
    intro b hb
    obtain ⟨data, _, hload⟩ := openBloom_ok hopen b hb
    exact ⟨data, hload⟩

theorem range_requests_anonymous_sample :
    (checkMain (fun _ _ => .ok []) none true [['d', 'u']]).requests =
      (checkMain (fun _ _ => .ok []) none true [['a', 'd', 'b']]).requests := by
  have hfirst : (hashDigits ['d', 'u']).take 5 =
      (hashDigits ['a', 'd', 'b']).take 5 := by
    rw [hashDigits, hashDigits, passwordDigest, passwordDigest,
      ← sha1Hash_eq (Vector.replicate 64 0) (by decide),
      ← sha1Hash_eq (Vector.replicate 64 0) (by decide)]
    decide +kernel
  exact range_requests_anonymous _ none true
    (by rw [List.map_singleton, List.map_singleton, hfirst])

/-! ## A service over a corpus -/

/-- One line of an answer: the last digits and how often they were seen. -/
def rangeLine (corpus : Sha1Digest → ℕ) (d : Sha1Digest) : List Char :=
  (toHex d).drop 5 ++ ':' :: Nat.toDigits 10 (corpus d)

/-- Lines with CRLF between them. -/
def rangeBody (corpus : Sha1Digest → ℕ) : List Sha1Digest → List Char
  | [] => []
  | [d] => rangeLine corpus d
  | d :: d' :: rest =>
      rangeLine corpus d ++ '\r' :: '\n' :: rangeBody corpus (d' :: rest)

/-- An answer for some first digits lists every digest of the corpus that has
them; a padded one also lists others, which were seen zero times. -/
def FollowsRange (corpus : Sha1Digest → ℕ) (service : RangeService) : Prop :=
  ∀ sent padding digits body,
    service sent (requestFor padding digits) = .ok body →
    ∃ listed, body = rangeBody corpus listed ∧
      (∀ d ∈ listed, (toHex d).take 5 = digits.take 5) ∧
      ∀ d, 0 < corpus d → (toHex d).take 5 = digits.take 5 → d ∈ listed

theorem toHex_injective {d d' : Sha1Digest} (h : toHex d = toHex d') :
    d = d' := by
  have hread := fromHex_toHex d
  rw [h, fromHex_toHex, Option.some.injEq] at hread
  exact Sha1Digest.ext_bytes hread.symm

theorem isSpace_of_isLineBreak {c : Char} (hbreak : isLineBreak c = true) :
    isSpace c = true := by
  simp only [isLineBreak, Bool.or_eq_true, Bool.and_eq_true, decide_eq_true_eq,
    beq_iff_eq] at hbreak
  simp only [isSpace, Bool.or_eq_true, Bool.and_eq_true, decide_eq_true_eq,
    beq_iff_eq]
  omega

theorem rangeLine_unbroken (corpus : Sha1Digest → ℕ) (d : Sha1Digest) :
    rangeLine corpus d ≠ [] ∧
      ∀ c ∈ rangeLine corpus d, isLineBreak c = false := by
  constructor
  · unfold rangeLine
    simp
  · intro c hc
    rcases List.mem_append.mp hc with hsuffix | hrest
    · have hspace := (mem_toHex (List.mem_of_mem_drop hsuffix)).2.1
      rw [Bool.eq_false_iff]
      intro hbreak
      rw [isSpace_of_isLineBreak hbreak] at hspace
      cases hspace
    · rcases List.mem_cons.mp hrest with rfl | hcount
      · decide
      · exact isLineBreak_of_isDigit
          (Nat.isDigit_of_mem_toDigits (by norm_num) (by norm_num) hcount)

theorem splitlines_rangeBody
    (corpus : Sha1Digest → ℕ) (listed : List Sha1Digest) :
    splitlines (rangeBody corpus listed) = listed.map (rangeLine corpus) := by
  induction listed with
  | nil => rfl
  | cons d rest ih =>
      obtain ⟨hne, hline⟩ := rangeLine_unbroken corpus d
      cases rest with
      | nil => exact splitlines_last hne hline
      | cons d' rest =>
          rw [rangeBody, splitlines_crlf _ hline, ih]
          rfl

/-- One line, as the loop takes it apart. -/
theorem rangeLine_parts
    {corpus : Sha1Digest → ℕ} (hcounts : ∀ d, corpus d < 10 ^ maxStrDigits)
    (d : Sha1Digest) :
    (rangeLine corpus d).takeWhile (· ≠ ':') = (toHex d).drop 5 ∧
      pyInt (((rangeLine corpus d).dropWhile (· ≠ ':')).drop 1) =
        some (corpus d : ℤ) := by
  have hcolon : ∀ c ∈ (toHex d).drop 5, c ≠ ':' :=
    fun c hc => (mem_toHex (List.mem_of_mem_drop hc)).2.2
  obtain ⟨hsuffix, hcount⟩ :=
    partition_append hcolon (Nat.toDigits 10 (corpus d))
  exact ⟨hsuffix, by rw [rangeLine, hcount, pyInt_toDigits (hcounts d)]⟩

theorem rangeCount_listed
    {corpus : Sha1Digest → ℕ} (hcounts : ∀ d, corpus d < 10 ^ maxStrDigits)
    {q : Sha1Digest} {listed : List Sha1Digest}
    (hfirst : ∀ d ∈ listed, (toHex d).take 5 = (toHex q).take 5)
    (hmissing : q ∉ listed → corpus q = 0) :
    rangeCount ((toHex q).drop 5) (listed.map (rangeLine corpus)) =
      (corpus q : ℤ) := by
  induction listed with
  | nil =>
      rw [hmissing List.not_mem_nil]
      rfl
  | cons d listed ih =>
      obtain ⟨hsuffix, hcount⟩ := rangeLine_parts hcounts d
      rw [List.map_cons, rangeCount, hsuffix, hcount, Option.getD_some]
      by_cases hsame : (toHex d).drop 5 = (toHex q).drop 5
      · have hdigits : toHex d = toHex q := by
          rw [← List.take_append_drop 5 (toHex d), hsame,
            hfirst d List.mem_cons_self, List.take_append_drop]
        rw [if_pos hsame, toHex_injective hdigits]
      · rw [if_neg hsame]
        refine ih (fun e he => hfirst e (List.mem_cons_of_mem d he)) ?_
        intro hq
        apply hmissing
        rw [List.mem_cons, not_or]
        refine ⟨?_, hq⟩
        rintro rfl
        exact hsame rfl

/-- The count that comes back is that of the corpus. -/
theorem FollowsRange.hibpCount
    {corpus : Sha1Digest → ℕ} {service : RangeService}
    (hservice : FollowsRange corpus service)
    (hcounts : ∀ d, corpus d < 10 ^ maxStrDigits) (sent : List RangeRequest)
    (padding : Bool) (password : List Char) :
    hibpCount service sent padding password =
      (service sent (rangeRequest padding password)).map fun _ =>
        (corpus (passwordDigest password) : ℤ) := by
  rw [PwFilter.hibpCount]
  cases hanswer : service sent (rangeRequest padding password) with
  | error e => rfl
  | ok body =>
      obtain ⟨listed, rfl, hfirst, hcomplete⟩ :=
        hservice sent padding (hashDigits password) body hanswer
      rw [Except.map, Except.map, splitlines_rangeBody, hashDigits,
        rangeCount_listed hcounts hfirst]
      intro hmissing
      by_contra hseen
      exact hmissing (hcomplete _ (by omega) rfl)

/-- A service that knows a list of digests, with none that was seen left out,
and refuses every request after the first `limit`. -/
def limitedService (corpus : Sha1Digest → ℕ) (known : List Sha1Digest)
    (limit : ℕ) : RangeService := fun sent request =>
  if sent.length < limit then
    .ok (rangeBody corpus
      (known.filter fun d => request.url = api ++ (toHex d).take 5))
  else .error .urlError

theorem limitedService_follows
    {corpus : Sha1Digest → ℕ} {known : List Sha1Digest}
    (hknown : ∀ d, 0 < corpus d → d ∈ known) (limit : ℕ) :
    FollowsRange corpus (limitedService corpus known limit) := by
  intro sent padding digits body hbody
  unfold limitedService at hbody
  split at hbody
  · rw [Except.ok.injEq] at hbody
    refine ⟨_, hbody.symm, ?_, ?_⟩
    · intro d hd
      have hurl := of_decide_eq_true (List.mem_filter.mp hd).2
      exact (List.append_cancel_left hurl).symm
    · intro d hseen hfirst
      refine List.mem_filter.mpr ⟨hknown d hseen, decide_eq_true ?_⟩
      rw [requestFor, hfirst]
  · cases hbody

/-! ## What the check reports -/

/-- The count of the corpus, and no mismatch but a local hit on a password
that was never seen. -/
structure Report.Exact (corpus : Sha1Digest → ℕ) (password : List Char)
    (r : Report) : Prop where
  count : r.count = (corpus (passwordDigest password) : ℤ)
  mismatch : r.mismatch = true → r.count = 0 ∧ r.present = some true

/-- A file that has every password that was seen. -/
def Covers (corpus : Sha1Digest → ℕ) (bloom : Option LocalBloom) : Prop :=
  ∀ password, ∃ found, presence bloom password = .ok (some found) ∧
    (0 < corpus (passwordDigest password) → found = true)

/-- The replies to the requests for the passwords. -/
def replies (service : RangeService) (padding : Bool) :
    List RangeRequest → List (List Char) → List Reply
  | _, [] => []
  | sent, password :: rest =>
      service sent (rangeRequest padding password) ::
        replies service padding (sent ++ [rangeRequest padding password]) rest

def firstError : List Reply → Option RequestError
  | [] => none
  | .error e :: _ => some e
  | .ok _ :: rest => firstError rest

/-- How many requests are answered before the first that fails. -/
def answeredCount : List Reply → ℕ
  | [] => 0
  | .error _ :: _ => 0
  | .ok _ :: rest => answeredCount rest + 1

def exitFor (corpus : Sha1Digest → ℕ) (rc : ℕ) (passwords : List (List Char)) :
    Option RequestError → Except Uncaught ℕ
  | some .urlError => .ok 3
  | some .other => .error .request
  | none =>
      .ok (if ∃ p ∈ passwords, 0 < corpus (passwordDigest p) then 1 else rc)

theorem exact_report
    {corpus : Sha1Digest → ℕ} {password : List Char} {found : Bool}
    (hfound : 0 < corpus (passwordDigest password) → found = true) :
    Report.Exact corpus password
      { count := corpus (passwordDigest password), present := some found } where
  count := rfl
  mismatch := by
    intro hmismatch
    simp only [Report.mismatch, bne_iff_ne, ne_eq] at hmismatch
    cases hseen : corpus (passwordDigest password) with
    | zero =>
        rw [hseen] at hmismatch
        cases found with
        | true => exact ⟨rfl, rfl⟩
        | false => exact absurd rfl hmismatch
    | succ n =>
        have hpos : (0 : ℤ) < (corpus (passwordDigest password) : ℤ) := by
          omega
        rw [hfound (by omega), decide_eq_true hpos] at hmismatch
        exact absurd rfl hmismatch

theorem exitFor_cons
    (corpus : Sha1Digest → ℕ) (rc : ℕ) (password : List Char)
    (rest : List (List Char)) (error : Option RequestError) :
    exitFor corpus rc (password :: rest) error =
      exitFor corpus
        (if (corpus (passwordDigest password) : ℤ) ≠ 0 then 1 else rc) rest
        error := by
  cases error with
  | some e =>
      cases e with
      | urlError => rfl
      | other => rfl
  | none =>
      unfold exitFor
      simp only [List.exists_mem_cons_iff]
      by_cases hseen : corpus (passwordDigest password) = 0
      · simp [hseen]
      · simp [hseen, Nat.pos_of_ne_zero hseen]

theorem checkPasswords_exact
    {corpus : Sha1Digest → ℕ} {service : RangeService}
    (hservice : FollowsRange corpus service)
    (hcounts : ∀ d, corpus d < 10 ^ maxStrDigits) {bloom : Option LocalBloom}
    (hcovers : Covers corpus bloom) (padding : Bool)
    (sent : List RangeRequest) (rc : ℕ) (passwords : List (List Char)) :
    (checkPasswords service bloom padding sent rc passwords).exit =
        exitFor corpus rc passwords
          (firstError (replies service padding sent passwords)) ∧
      List.Forall₂ (Report.Exact corpus)
        (passwords.take (answeredCount (replies service padding sent passwords)))
        (checkPasswords service bloom padding sent rc passwords).reports := by
  induction passwords generalizing sent rc with
  | nil =>
      refine ⟨?_, .nil⟩
      simp [checkPasswords, replies, firstError, exitFor]
  | cons password rest ih =>
      rw [checkPasswords, hservice.hibpCount hcounts, replies]
      cases service sent (rangeRequest padding password) with
      | error e =>
          rw [firstError, answeredCount, List.take_zero]
          cases e with
          | urlError => exact ⟨rfl, .nil⟩
          | other => exact ⟨rfl, .nil⟩
      | ok body =>
          obtain ⟨found, hpresence, hfound⟩ := hcovers password
          obtain ⟨hexit, hreports⟩ := ih (sent ++ [rangeRequest padding password])
            (if (corpus (passwordDigest password) : ℤ) ≠ 0 then 1 else rc)
          rw [Except.map, hpresence, firstError, answeredCount,
            List.take_succ_cons, exitFor_cons]
          exact ⟨hexit, .cons (exact_report hfound) hreports⟩

theorem covers_built
    {corpus : Sha1Digest → ℕ} {Rate : Type} {floats : BuildBloom.Floats Rate}
    {args : BuildBloom.Args Rate} {text : List Char} {code : ℕ}
    {image : List UInt8}
    (hbuild : BuildBloom.buildFile floats args text = .ok (code, some image))
    (hlength : ∀ d ∈ BuildBloom.iterDigests args.plain text, d.length = 20)
    (hcorpus : ∀ d : Sha1Digest, 0 < corpus d →
      d.bytes ∈ BuildBloom.iterDigests args.plain text) :
    ∃ bloom, openBloom (some (some image)) = .ok (some bloom) ∧
      Covers corpus (some bloom) := by
  obtain ⟨bf, hread, _, hreports⟩ := BuildBloom.buildFile_reports hbuild hlength
  obtain ⟨hlocal, _⟩ := (wellFormedImage_iff image).mp
    (BloomFilter.fromMemory_some hread).1
  obtain ⟨bloom, hload⟩ := (load_isOk_iff image).mpr hlocal
  refine ⟨bloom, by rw [openBloom, hload], ?_⟩
  intro password
  have hsame := LocalBloom.maybeContains_eq hload hread password
  refine ⟨_, by rw [presence, hsame]; rfl, ?_⟩
  intro hseen
  exact hreports _ (hcorpus _ hseen)

/-- Against a service that follows the protocol, with a file built from the
same corpus, the run ends as the first request that fails says and, when none
does, with a code that tells whether a password was seen.  Every password
before that request is reported with the count of the corpus, and a mismatch
is a false hit of the file. -/
theorem range_check_exact
    {corpus : Sha1Digest → ℕ} {service : RangeService}
    (hservice : FollowsRange corpus service)
    (hcounts : ∀ d, corpus d < 10 ^ maxStrDigits)
    {Rate : Type} {floats : BuildBloom.Floats Rate}
    {args : BuildBloom.Args Rate} {text : List Char} {code : ℕ}
    {image : List UInt8}
    (hbuild : BuildBloom.buildFile floats args text = .ok (code, some image))
    (hlength : ∀ d ∈ BuildBloom.iterDigests args.plain text, d.length = 20)
    (hcorpus : ∀ d : Sha1Digest, 0 < corpus d →
      d.bytes ∈ BuildBloom.iterDigests args.plain text)
    (padding : Bool) (passwords : List (List Char)) :
    (checkMain service (some (some image)) padding passwords).exit =
        exitFor corpus 0 passwords
          (firstError (replies service padding [] passwords)) ∧
      List.Forall₂ (Report.Exact corpus)
        (passwords.take (answeredCount (replies service padding [] passwords)))
        (checkMain service (some (some image)) padding passwords).reports := by
  obtain ⟨bloom, hopen, hcovers⟩ := covers_built hbuild hlength hcorpus
  rw [checkMain, hopen]
  exact checkPasswords_exact hservice hcounts hcovers padding [] 0 passwords

/-- The digests of the sample dump. -/
def sampleKnown : List Sha1Digest :=
  [ ⟨[0x4B, 0xF1, 0x60, 0x28, 0xEE, 0x7E, 0x70, 0x5E, 0x3E, 0x1C, 0x1F, 0xE9,
      0xC8, 0xBD, 0xA5, 0x39, 0xA7, 0x20, 0x0C, 0x56], rfl⟩,
    ⟨[0x22, 0xEA, 0x1C, 0x64, 0x9C, 0x82, 0x94, 0x6A, 0xA6, 0xE4, 0x79, 0xE1,
      0xFF, 0xD3, 0x21, 0xE4, 0xA3, 0x18, 0xB1, 0xB0], rfl⟩ ]

def sampleCorpus (d : Sha1Digest) : ℕ :=
  if d.bytes ∈ sampleKnown.map Sha1Digest.bytes then 5 else 0

/-- The service answers for the first password and refuses the second. -/
theorem range_check_exact_sample :
    (checkMain (limitedService sampleCorpus sampleKnown 1)
        (some (some sampleImage)) true [samplePassword, ['q']]).exit = .ok 3 ∧
      List.Forall₂ (Report.Exact sampleCorpus) [samplePassword]
        (checkMain (limitedService sampleCorpus sampleKnown 1)
          (some (some sampleImage)) true [samplePassword, ['q']]).reports := by
  have hknown : ∀ d, 0 < sampleCorpus d → d ∈ sampleKnown := by
    intro d hseen
    by_contra hother
    rw [sampleCorpus, if_neg] at hseen
    · exact absurd hseen (Nat.lt_irrefl 0)
    · intro hmem
      obtain ⟨e, he, hbytes⟩ := List.mem_map.mp hmem
      rw [Sha1Digest.ext_bytes hbytes] at he
      exact hother he
  have hcounts : ∀ d, sampleCorpus d < 10 ^ maxStrDigits := by
    intro d
    have hfive : sampleCorpus d ≤ 5 := by
      unfold sampleCorpus
      split
      · exact Nat.le_refl 5
      · exact Nat.zero_le 5
    have hten : 10 ^ 1 ≤ 10 ^ maxStrDigits :=
      Nat.pow_le_pow_right (by norm_num) (by norm_num [maxStrDigits])
    omega
  have hdigests : BuildBloom.iterDigests false sampleDump =
      sampleKnown.map Sha1Digest.bytes := by decide +kernel
  have hcorpus : ∀ d : Sha1Digest, 0 < sampleCorpus d →
      d.bytes ∈ BuildBloom.iterDigests false sampleDump := by
    intro d hseen
    rw [hdigests]
    exact List.mem_map_of_mem (hknown d hseen)
  exact range_check_exact (limitedService_follows hknown 1) hcounts
    sampleDump_builds sampleDump_lists.digests.1 hcorpus true
    [samplePassword, ['q']]

end PwFilter
