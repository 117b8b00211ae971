import PwFilter.BreachBloom
import PwFilter.DeclarativePolicy

/-!
# What the verdict does not depend on

The order and the repetitions in the configured lists, the order in which
digests went into the filter, and the ASCII case of terms and names make no
difference to a verdict.  Every rule is a statement about sets of lowered
strings, and lowering a name does not move its token boundaries.
-/

namespace PwFilter

open ProbeFilter

/-! ## Names up to case -/

/-- No separator is a letter. -/
theorem separates_not_letter {c : UInt16} (hc : separates c = true) :
    ¬ AsciiRange 'A' 'Z' c ∧ ¬ AsciiRange 'a' 'z' c := by
  have hall : nameSeparators.all (fun d =>
      decide (¬ AsciiRange 'A' 'Z' d ∧ ¬ AsciiRange 'a' 'z' d)) = true := by
    rw [nameSeparators_eq]
    decide
  exact of_decide_eq_true (List.all_eq_true.mp hall c (of_decide_eq_true hc))

theorem separates_foldCase (c : UInt16) :
    separates (foldCase c) = separates c := by
  by_cases hupper : AsciiRange 'A' 'Z' c
  · have hlower : AsciiRange 'a' 'z' (c + 32) := by
      have hlow : 65 ≤ c.toNat := hupper.1
      have hhigh : c.toNat ≤ 90 := hupper.2
      have hsum : (c + 32).toNat = c.toNat + 32 := by
        have hstep : UInt16.toNat 32 = 32 := rfl
        rw [UInt16.toNat_add, hstep]
        omega
      unfold AsciiRange
      rw [hsum]
      exact ⟨Nat.add_le_add_right hlow 32, Nat.add_le_add_right hhigh 32⟩
    have hno : separates c = false :=
      Bool.eq_false_iff.mpr fun hsep => (separates_not_letter hsep).1 hupper
    have hno' : separates (c + 32) = false :=
      Bool.eq_false_iff.mpr fun hsep => (separates_not_letter hsep).2 hlower
    rw [foldCase, if_pos hupper, hno, hno']
  · rw [foldCase, if_neg hupper]

theorem separates_of_lowered_mem
    {s t : List UInt16} {flag : Bool} (hst : lowered s = lowered t)
    (hs : ∀ c ∈ s, separates c = flag) : ∀ c ∈ t, separates c = flag := by
  intro c hc
  have hmem : foldCase c ∈ lowered s := by
    rw [hst]
    exact List.mem_map_of_mem hc
  obtain ⟨d, hd, hsame⟩ := List.mem_map.mp hmem
  rw [← separates_foldCase, ← hsame, separates_foldCase]
  exact hs d hd

theorem separates_of_lowered_option
    {o o' : Option UInt16} (hsame : o.map foldCase = o'.map foldCase)
    (ho : ∀ c ∈ o, separates c = true) : ∀ c ∈ o', separates c = true := by
  intro c hc
  cases hc
  cases o with
  | none => cases hsame
  | some d =>
      have hlow : foldCase d = foldCase c := Option.some.inj hsame
      rw [← separates_foldCase, ← hlow, separates_foldCase]
      exact ho d rfl

/-- Changing the case of a name changes the case of its tokens only. -/
theorem IsNameToken.of_lowered
    {name name' token : List UInt16} (hname : lowered name = lowered name')
    (htoken : IsNameToken name token) :
    ∃ token', IsNameToken name' token' ∧ lowered token' = lowered token := by
  obtain ⟨hne, hfree, before, after, hsplit, hbefore, hafter⟩ := htoken
  have hparts : lowered name' =
      lowered before ++ lowered token ++ lowered after := by
    rw [← hname, hsplit, lowered, List.map_append, List.map_append]
  obtain ⟨front, after', hname', hfront, hafter'⟩ :=
    List.map_eq_append_iff.mp hparts
  obtain ⟨before', token', hfrontSplit, hbefore', htoken'⟩ :=
    List.map_eq_append_iff.mp hfront
  have hlast : before.getLast?.map foldCase =
      before'.getLast?.map foldCase := by
    rw [← List.getLast?_map, ← List.getLast?_map, hbefore']
  have hhead : after.head?.map foldCase =
      after'.head?.map foldCase := by
    rw [← List.head?_map, ← List.head?_map, hafter']
  refine ⟨token', ⟨?_, ?_, before', after', ?_, ?_, ?_⟩, htoken'⟩
  · intro hnil
    rw [hnil] at htoken'
    exact hne (List.map_eq_nil_iff.mp htoken'.symm)
  · exact separates_of_lowered_mem htoken'.symm hfree
  · rw [hname', hfrontSplit]
  · exact separates_of_lowered_option hlast hbefore
  · exact separates_of_lowered_option hhead hafter

/-! ## Lists as sets -/

abbrev CaseVariant (s t : List UInt16) : Prop := lowered s = lowered t

/-- Every member of either list is, up to `same`, a member of the other; so it
is when one list is a permutation of the other, repeats some of its members or
puts others in their place that are the same. -/
def SameMembers (same : List UInt16 → List UInt16 → Prop)
    (entries₁ entries₂ : List (List UInt16)) : Prop :=
  (∀ e ∈ entries₁, ∃ e' ∈ entries₂, same e e') ∧
    ∀ e ∈ entries₂, ∃ e' ∈ entries₁, same e e'

def SameEntry (caseInsensitive : Bool) (e e' : List UInt16) : Prop :=
  if caseInsensitive then CaseVariant e e' else e = e'

/-- Blacklists in one mode that were fed the same entries, empty ones apart:
up to case when the mode ignores it, exactly otherwise. -/
def SameBanned (banned₁ banned₂ : BannedList) : Prop :=
  banned₁.caseInsensitive = banned₂.caseInsensitive ∧
    SameMembers (SameEntry banned₁.caseInsensitive)
      (banned₁.entries.filter fun e => e ≠ [])
      (banned₂.entries.filter fun e => e ≠ [])

/-- The same checker, or two Bloom checkers over filters of one size that were
built from the same digests; the memory they run in may differ. -/
def SameChecker (isBreached₁ isBreached₂ : List UInt16 → Bool) : Prop :=
  isBreached₁ = isBreached₂ ∨
    ∃ mBits k ds₁ ds₂ bf₁ bf₂ stack₁ stack₂ shaMemory₁ shaMemory₂,
      BloomFilter.fromMemory
          (some ((BloomBuilder.withParams mBits k).addAll ds₁).serialize) =
        some bf₁ ∧
      BloomFilter.fromMemory
          (some ((BloomBuilder.withParams mBits k).addAll ds₂).serialize) =
        some bf₂ ∧
      (∀ d, d ∈ ds₁ ↔ d ∈ ds₂) ∧
      isBreached₁ = BloomBreachChecker.isBreached bf₁ stack₁ shaMemory₁ ∧
      isBreached₂ = BloomBreachChecker.isBreached bf₂ stack₂ shaMemory₂

structure SameServices (services₁ services₂ : Services) : Prop where
  banned : Option.Rel SameBanned services₁.banned services₂.banned
  breached : Option.Rel SameChecker services₁.breached services₂.breached

theorem bans_of_members
    {banned₁ banned₂ : BannedList}
    (hmode : banned₁.caseInsensitive = banned₂.caseInsensitive)
    (hmem : ∀ e ∈ banned₁.entries.filter fun e => e ≠ [],
      ∃ e' ∈ banned₂.entries.filter fun e => e ≠ [],
        SameEntry banned₁.caseInsensitive e e')
    {password : List UInt16} (hban : banned₁.Bans password) :
    banned₂.Bans password := by
  obtain ⟨entry, hentry, hne, hmatch⟩ := hban
  obtain ⟨entry', hentry', hsame⟩ :=
    hmem entry (List.mem_filter.mpr ⟨hentry, by simpa using hne⟩)
  obtain ⟨hin, hne'⟩ := List.mem_filter.mp hentry'
  refine ⟨entry', hin, by simpa using hne', ?_⟩
  rw [← hmode]
  cases hci : banned₁.caseInsensitive with
  | true =>
      rw [SameEntry, hci, if_pos rfl] at hsame
      rw [hci, if_pos rfl] at hmatch
      exact hsame.symm.trans hmatch
  | false =>
      rw [SameEntry, hci, if_neg Bool.false_ne_true] at hsame
      rw [hci, if_neg Bool.false_ne_true] at hmatch
      exact hsame.symm.trans hmatch

theorem SameBanned.bans_iff
    {banned₁ banned₂ : BannedList} (hsame : SameBanned banned₁ banned₂)
    (password : List UInt16) :
    banned₁.Bans password ↔ banned₂.Bans password := by
  obtain ⟨hmode, hforth, hback⟩ := hsame
  constructor
  · intro h
    exact bans_of_members hmode hforth h
  · intro h
    rw [hmode] at hback
    exact bans_of_members hmode.symm hback h

theorem SameChecker.eq
    {isBreached₁ isBreached₂ : List UInt16 → Bool}
    (hsame : SameChecker isBreached₁ isBreached₂) :
    isBreached₁ = isBreached₂ := by
  rcases hsame with heq | ⟨mBits, k, ds₁, ds₂, bf₁, bf₂, stack₁, stack₂,
    shaMemory₁, shaMemory₂, hread₁, hread₂, hmem, rfl, rfl⟩
  · exact heq
  · have hset : {d | d ∈ ds₁} = {d | d ∈ ds₂} := Set.ext hmem
    funext password
    rw [BloomBreachChecker.isBreached_eq, BloomBreachChecker.isBreached_eq]
    congr 1
    rw [Bool.eq_iff_iff, maybeContains_built_iff hread₁,
      maybeContains_built_iff hread₂, hset]

theorem exists_mem_congr
    {α : Type} {R : α → α → Prop} {o₁ o₂ : Option α} {P : α → Prop}
    (hrel : Option.Rel R o₁ o₂) (hP : ∀ a b, R a b → (P a ↔ P b)) :
    (∃ a ∈ o₁, P a) ↔ ∃ b ∈ o₂, P b := by
  cases hrel with
  | none => simp
  | some hab => simpa using hP _ _ hab

/-! ## The verdict -/

section

variable {terms₁ terms₂ : List (List UInt16)} {services₁ services₂ : Services}
variable {accountName₁ accountName₂ fullName₁ fullName₂ : List UInt16}

theorem lowered_length_eq {s t : List UInt16} (hst : lowered s = lowered t) :
    s.length = t.length := by
  have hlength := congrArg List.length hst
  rwa [lowered, lowered, List.length_map, List.length_map] at hlength

theorem lowered_ne_nil {s t : List UInt16} (hst : lowered s = lowered t)
    (hs : s ≠ []) : t ≠ [] := by
  intro ht
  have hlength := lowered_length_eq hst
  rw [ht, List.length_nil] at hlength
  exact hs (List.eq_nil_of_length_eq_zero hlength)

theorem violates_fullName
    (hfull : lowered fullName₁ = lowered fullName₂) (password : List UInt16)
    (minLen : ℕ)
    (h : ∃ token, IsNameToken fullName₁ token ∧ minLen ≤ token.length ∧
      lowered token <:+: lowered password) :
    ∃ token, IsNameToken fullName₂ token ∧ minLen ≤ token.length ∧
      lowered token <:+: lowered password := by
  obtain ⟨token, htoken, hlong, hin⟩ := h
  obtain ⟨token', htoken', hsame⟩ := htoken.of_lowered hfull
  refine ⟨token', htoken', ?_, ?_⟩
  · rw [lowered_length_eq hsame]
    exact hlong
  · rw [hsame]
    exact hin

theorem violates_terms
    (hterms : ∀ t ∈ terms₁, ∃ t' ∈ terms₂, lowered t = lowered t')
    (password : List UInt16)
    (h : ∃ term ∈ terms₁, term ≠ [] ∧ lowered term <:+: lowered password) :
    ∃ term ∈ terms₂, term ≠ [] ∧ lowered term <:+: lowered password := by
  obtain ⟨term, hterm, hne, hin⟩ := h
  obtain ⟨term', hterm', hsame⟩ := hterms term hterm
  refine ⟨term', hterm', lowered_ne_nil hsame hne, ?_⟩
  rw [← hsame]
  exact hin

/-- Rule by rule, the two requests violate the same rules. -/
theorem violates_congr
    (hterms : SameMembers CaseVariant terms₁ terms₂)
    (hservices : SameServices services₁ services₂)
    (haccount : lowered accountName₁ = lowered accountName₂)
    (hfull : lowered fullName₁ = lowered fullName₂)
    (cfg : PolicyConfig) (password : List UInt16) (rule : RuleId) :
    Violates { cfg with companyTerms := terms₁ } services₁ password
        accountName₁ fullName₁ rule ↔
      Violates { cfg with companyTerms := terms₂ } services₂ password
        accountName₂ fullName₂ rule := by
  cases rule with
  | containsAccountName =>
      have hne : accountName₁ ≠ [] ↔ accountName₂ ≠ [] :=
        ⟨lowered_ne_nil haccount, lowered_ne_nil haccount.symm⟩
      simp only [Violates, hne, lowered_length_eq haccount, haccount]
  | containsFullName =>
      refine and_congr_right fun _ => ?_
      exact ⟨violates_fullName hfull password _,
        violates_fullName hfull.symm password _⟩
  | companyTerm =>
      exact ⟨violates_terms hterms.1 password, violates_terms hterms.2 password⟩
  | blacklisted =>
      exact exists_mem_congr hservices.banned fun _ _ hsame =>
        hsame.bans_iff password
  | breached =>
      refine and_congr_right fun _ => ?_
      exact exists_mem_congr hservices.breached fun _ _ hsame => by
        rw [hsame.eq]
  | ok | tooShort | tooLong | notEnoughClasses | repeatRun | sequence
  | keyboardPattern | internalError => exact Iff.rfl

/-- The whole result, rule included, is the same for lists with the same
members up to case and for names that differ in case only. -/
theorem verdict_depends_on_sets
    (hterms : SameMembers CaseVariant terms₁ terms₂)
    (hservices : SameServices services₁ services₂)
    (haccount : lowered accountName₁ = lowered accountName₂)
    (hfull : lowered fullName₁ = lowered fullName₂)
    (cfg : PolicyConfig) (password : List UInt16) :
    (services₁.validator { cfg with companyTerms := terms₁ }).evaluate password
        accountName₁ fullName₁ =
      (services₂.validator { cfg with companyTerms := terms₂ }).evaluate
        password accountName₂ fullName₂ := by
  classical
  rw [evaluate_eq_verdict_violates, evaluate_eq_verdict_violates]
  congr 1
  apply List.map_congr_left
  intro rule _
  have hrule := violates_congr hterms hservices haccount hfull cfg password
    rule
  simp only [hrule]

/-- Of a checker, only what it says of the password matters. -/
theorem evaluate_congr_checker
    {isBreached₁ : List UInt16 → Bool} (isBreached₂ : List UInt16 → Bool)
    {password : List UInt16}
    (hsame : isBreached₁ password = isBreached₂ password)
    (banned : Option BannedList) (cfg : PolicyConfig)
    (accountName fullName : List UInt16) :
    (Services.validator { banned := banned, breached := some isBreached₁ }
        cfg).evaluate password accountName fullName =
      (Services.validator { banned := banned, breached := some isBreached₂ }
        cfg).evaluate password accountName fullName := by
  simp only [Validator.evaluate, Validator.inBreachCorpus, Services.validator,
    hsame]
  rfl

/-- A password that passes every test of the built-in settings. -/
def strongPassword : List UInt16 := asciiUnits "Wm7!Kp4@Zb9#Vt2$".toList

def sampleValidator (bf : BloomFilter) : Validator :=
  Services.validator
    { banned := some ⟨true, [[], asciiUnits ['A'], asciiUnits ['a']]⟩
      breached := some (BloomBreachChecker.isBreached bf
        (Vector.replicate 4096 0) (Vector.replicate 64 0)) }
    { companyTerms := [asciiUnits ['N', 'a', 's'], asciiUnits ['x']] }

/-- Terms repeated, reordered and in another case, and a blacklist without the
empty and the doubled entry. -/
def sampleVariant (bf : BloomFilter) : Validator :=
  Services.validator
    { banned := some ⟨true, [asciiUnits ['a']]⟩
      breached := some (BloomBreachChecker.isBreached bf
        (Vector.replicate 4096 1) (Vector.replicate 64 1)) }
    { companyTerms :=
        [asciiUnits ['X'], asciiUnits ['n', 'A', 's'], asciiUnits ['x']] }

theorem evaluate_strongPassword
    {bf : BloomFilter} {ds : List Sha1Digest}
    (hread : BloomFilter.fromMemory
      (some ((BloomBuilder.withParams 64 3).addAll ds).serialize) = some bf)
    (hmem : sha1Value (passwordBytes strongPassword) ∈ ds) :
    (sampleValidator bf).evaluate strongPassword (asciiUnits ['B', 'o', 'b'])
      (asciiUnits ['B', 'o', 'b']) = .reject .breached := by
  have hbreached := BloomBreachChecker.isBreached_of_mem
    (Vector.replicate 4096 0) (Vector.replicate 64 0) hread
    (show (passwordBytes strongPassword).length ≤ kMaxUtf8 by decide) hmem
  rw [sampleValidator, evaluate_congr_checker (fun _ => true) hbreached]
  decide +kernel

/-- Digests in the other order and doubled, and a name in capitals.  The
password comes to the Bloom filters, and both hold its digest. -/
theorem verdict_depends_on_sets_sample :
    ∃ bf₁ bf₂ : BloomFilter,
      BloomFilter.fromMemory (some ((BloomBuilder.withParams 64 3).addAll
        [sha1Value (passwordBytes strongPassword), sha1Value [0x62]]
          ).serialize) = some bf₁ ∧
      BloomFilter.fromMemory (some ((BloomBuilder.withParams 64 3).addAll
        [sha1Value [0x62], sha1Value (passwordBytes strongPassword),
          sha1Value [0x62]]).serialize) = some bf₂ ∧
      (sampleValidator bf₁).evaluate strongPassword
        (asciiUnits ['B', 'o', 'b']) (asciiUnits ['B', 'o', 'b']) =
          .reject .breached ∧
      (sampleValidator bf₁).evaluate strongPassword
          (asciiUnits ['B', 'o', 'b']) (asciiUnits ['B', 'o', 'b']) =
        (sampleVariant bf₂).evaluate strongPassword
          (asciiUnits ['B', 'O', 'B']) (asciiUnits ['b', 'o', 'B']) := by
  have hsound := BloomBuilder.withParams_sound 3
    (BloomBuilder.withParams_m_pos 3
      (by decide : (64 : UInt64).toNat ≤ 2 ^ 64 - 8))
  obtain ⟨bf₁, hread₁, _⟩ := (BloomBuilder.addAll_spec hsound
    [sha1Value (passwordBytes strongPassword),
      sha1Value [0x62]]).1.fromMemory
  obtain ⟨bf₂, hread₂, _⟩ := (BloomBuilder.addAll_spec hsound
    [sha1Value [0x62], sha1Value (passwordBytes strongPassword),
      sha1Value [0x62]]).1.fromMemory
  have hbanned : SameBanned
      { caseInsensitive := true
        entries := [[], asciiUnits ['A'], asciiUnits ['a']] }
      { caseInsensitive := true, entries := [asciiUnits ['a']] } := by
    have hentries : SameMembers CaseVariant
        [asciiUnits ['A'], asciiUnits ['a']] [asciiUnits ['a']] := by
      constructor <;> decide
    exact ⟨rfl, hentries⟩
  have hchecker : SameChecker
      (BloomBreachChecker.isBreached bf₁ (Vector.replicate 4096 0)
        (Vector.replicate 64 0))
      (BloomBreachChecker.isBreached bf₂ (Vector.replicate 4096 1)
        (Vector.replicate 64 1)) :=
    Or.inr ⟨64, 3, _, _, bf₁, bf₂, _, _, _, _, hread₁, hread₂,
      by simp only [List.mem_cons, List.not_mem_nil]; tauto, rfl, rfl⟩
  refine ⟨bf₁, bf₂, hread₁, hread₂,
    evaluate_strongPassword hread₁ List.mem_cons_self,
    verdict_depends_on_sets ?_ ⟨.some hbanned, .some hchecker⟩ (by decide)
      (by decide) {} _⟩
  constructor <;> decide

end

end PwFilter
