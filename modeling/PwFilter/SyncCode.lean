import Mathlib.Data.List.TakeDrop
import Mathlib.Tactic

/-!
# Codes with lead and continuation elements

A lead element announces how many continuation elements follow it, and no lead
is a continuation.  The scanner below reads complete sequences, skips one
element where there is none, and gives up when a sequence would run past the
end of the input.  Because leads are recognizable, it finds every place where
a new sequence starts again, unless it gives up before.
-/

namespace SyncCode

variable {α : Type*}

structure Code (α : Type*) where
  announced : α → Option ℕ
  isCont : α → Bool
  lead_not_cont : ∀ a n, announced a = some n → isCont a = false

/-- What the scanner finds: a complete sequence, one element to skip, or a
sequence the input cuts off. -/
inductive Piece (α : Type*) where
  | sequence (lead : α) (tail : List α)
  | stray (a : α)
  | cut (part : List α)

def Piece.elems : Piece α → List α
  | .sequence lead tail => lead :: tail
  | .stray a => [a]
  | .cut part => part

namespace Code

variable (code : Code α)

def first (a : α) (rest : List α) : Piece α :=
  match code.announced a with
  | none => .stray a
  | some n =>
      if rest.length < n then .cut (a :: rest)
      else if (rest.take n).all code.isCont then .sequence a (rest.take n)
      else .stray a

def pieces : List α → List (Piece α)
  | [] => []
  | a :: rest =>
      code.first a rest ::
        pieces (rest.drop ((code.first a rest).elems.length - 1))
termination_by s => s.length
decreasing_by
  rw [List.length_drop, List.length_cons]
  omega

def IsSequence (s : List α) : Prop :=
  ∃ lead tail, s = lead :: tail ∧ code.announced lead = some tail.length ∧
    ∀ b ∈ tail, code.isCont b = true

/-- No lead in `s` announces more than what follows it, with `more` elements
behind `s`. -/
def Covered (s : List α) (more : ℕ) : Prop :=
  ∀ before a after n, s = before ++ a :: after →
    code.announced a = some n → n ≤ after.length + more

variable {code}

/-! ## One step of the scanner -/

@[simp] theorem pieces_nil : code.pieces [] = [] := by
  rw [pieces]

theorem pieces_cons_of_stray
    {a : α} {rest : List α} (hfirst : code.first a rest = .stray a) :
    code.pieces (a :: rest) = .stray a :: code.pieces rest := by
  rw [pieces, hfirst]
  rfl

theorem pieces_cons_of_cut
    {a : α} {rest : List α} {n : ℕ} (ha : code.announced a = some n)
    (hshort : rest.length < n) :
    code.pieces (a :: rest) = [.cut (a :: rest)] := by
  have hfirst : code.first a rest = .cut (a :: rest) := by
    simp only [first, ha, if_pos hshort]
  have hdrop : rest.drop ((Piece.cut (a :: rest)).elems.length - 1) = [] :=
    List.drop_length
  rw [pieces, hfirst, hdrop, pieces_nil]

theorem pieces_sequence
    {lead : α} {tail : List α} (hlead : code.announced lead = some tail.length)
    (hcont : ∀ b ∈ tail, code.isCont b = true) (rest : List α) :
    code.pieces (lead :: (tail ++ rest)) =
      .sequence lead tail :: code.pieces rest := by
  have hroom : ¬ (tail ++ rest).length < tail.length := by
    rw [List.length_append]
    omega
  have hfirst : code.first lead (tail ++ rest) = .sequence lead tail := by
    simp only [first, hlead, if_neg hroom, List.take_left]
    rw [if_pos (List.all_eq_true.mpr hcont)]
  have hdrop : (tail ++ rest).drop
      ((Piece.sequence lead tail).elems.length - 1) = rest := by
    exact List.drop_left
  rw [pieces, hfirst, hdrop]

/-- The three things one step can do. -/
theorem pieces_cons_cases (a : α) (rest : List α) :
    code.pieces (a :: rest) = .stray a :: code.pieces rest ∨
      (∃ tail rest', rest = tail ++ rest' ∧
        code.announced a = some tail.length ∧
        (∀ b ∈ tail, code.isCont b = true) ∧
        code.pieces (a :: rest) = .sequence a tail :: code.pieces rest') ∨
      ∃ n, code.announced a = some n ∧ rest.length < n ∧
        code.pieces (a :: rest) = [.cut (a :: rest)] := by
  cases ha : code.announced a with
  | none =>
      left
      apply pieces_cons_of_stray
      simp only [first, ha]
  | some n =>
      by_cases hshort : rest.length < n
      · exact Or.inr (Or.inr ⟨n, rfl, hshort, pieces_cons_of_cut ha hshort⟩)
      · by_cases hall : (rest.take n).all code.isCont = true
        · have hlength : (rest.take n).length = n := by
            rw [List.length_take]
            omega
          have hcont := List.all_eq_true.mp hall
          have hrest := pieces_sequence (by rw [hlength]; exact ha) hcont
            (rest.drop n)
          rw [List.take_append_drop] at hrest
          exact Or.inr (Or.inl ⟨rest.take n, rest.drop n,
            (List.take_append_drop n rest).symm, by rw [hlength], hcont, hrest⟩)
        · left
          apply pieces_cons_of_stray
          simp only [first, ha, if_neg hshort, if_neg hall]

/-- Induction along the scan. -/
@[elab_as_elim] theorem pieces_induction
    {P : List α → Prop} (s : List α) (nil : P [])
    (stray : ∀ a rest,
      code.pieces (a :: rest) = .stray a :: code.pieces rest →
        P rest → P (a :: rest))
    (sequence : ∀ a tail rest, code.announced a = some tail.length →
      (∀ b ∈ tail, code.isCont b = true) →
        code.pieces (a :: (tail ++ rest)) =
            .sequence a tail :: code.pieces rest →
          P rest → P (a :: (tail ++ rest)))
    (cut : ∀ a rest n, code.announced a = some n → rest.length < n →
      code.pieces (a :: rest) = [.cut (a :: rest)] → P (a :: rest)) : P s := by
  induction hlength : s.length using Nat.strongRecOn generalizing s with
  | ind length ih =>
      cases s with
      | nil => exact nil
      | cons a rest =>
          rw [List.length_cons] at hlength
          rcases code.pieces_cons_cases a rest with hstray |
            ⟨tail, rest', rfl, ha, hcont, hsequence⟩ | ⟨n, ha, hshort, hcut⟩
          · exact stray a rest hstray (ih rest.length (by omega) rest rfl)
          · rw [List.length_append] at hlength
            exact sequence a tail rest' ha hcont hsequence
              (ih rest'.length (by omega) rest' rfl)
          · exact cut a rest n ha hshort hcut

/-! ## Finding the next start -/

/-- A sequence that starts in front of a place where no continuation stands
ends in front of it. -/
theorem split_before_start
    {tail rest x z : List α} (hcont : ∀ b ∈ tail, code.isCont b = true)
    (hz : ∀ a ∈ z.head?, code.isCont a = false)
    (hsplit : x ++ z = tail ++ rest) :
    ∃ x', x = tail ++ x' ∧ rest = x' ++ z := by
  rcases List.append_eq_append_iff.mp hsplit with
    ⟨extra, htail, hzrest⟩ | ⟨x', hx, hrest⟩
  · cases extra with
    | nil => exact ⟨[], by simpa using htail.symm, by simpa using hzrest.symm⟩
    | cons b extra =>
        have hhead : code.isCont b = false := by
          apply hz
          rw [hzrest]
          rfl
        rw [hcont b (by rw [htail]; simp)] at hhead
        cases hhead
  · exact ⟨x', hx, hrest⟩

theorem Covered.of_append
    (front : List α) {back : List α} {more : ℕ}
    (hcov : code.Covered (front ++ back) more) : code.Covered back more := by
  intro before a after n hsplit ha
  apply hcov (front ++ before) a after n _ ha
  rw [hsplit, List.append_assoc]

/-- When nothing in front announces too much, the scanner arrives at every
place where no continuation stands. -/
theorem pieces_append
    {z : List α} (hz : ∀ a ∈ z.head?, code.isCont a = false) (x : List α)
    (hcov : code.Covered x z.length) :
    ∃ front, code.pieces (x ++ z) = front ++ code.pieces z ∧
      front.flatMap Piece.elems = x := by
  induction hlength : x.length using Nat.strongRecOn generalizing x with
  | ind length ih =>
      cases x with
      | nil => exact ⟨[], rfl, rfl⟩
      | cons a x =>
          rw [List.length_cons] at hlength
          rw [List.cons_append]
          rcases code.pieces_cons_cases a (x ++ z) with hstray |
            ⟨tail, rest, hsplit, ha, hcont, hsequence⟩ | ⟨n, ha, hshort, _⟩
          · obtain ⟨front, hfront, hbytes⟩ := ih x.length (by omega) x
              (Covered.of_append [a] hcov) rfl
            refine ⟨.stray a :: front, ?_, ?_⟩
            · rw [hstray, hfront, List.cons_append]
            · rw [List.flatMap_cons, hbytes]
              rfl
          · obtain ⟨x', rfl, rfl⟩ := split_before_start hcont hz hsplit
            rw [List.length_append] at hlength
            obtain ⟨front, hfront, hbytes⟩ := ih x'.length (by omega) x'
              (Covered.of_append (a :: tail) hcov) rfl
            refine ⟨.sequence a tail :: front, ?_, ?_⟩
            · rw [hsequence, hfront, List.cons_append]
            · rw [List.flatMap_cons, hbytes]
              rfl
          · have hle := hcov [] a x n rfl ha
            rw [List.length_append] at hshort
            omega

/-- A lead that announces more than there is makes the scanner give up, there
or earlier. -/
theorem pieces_of_uncovered
    {a : α} {after : List α} {n : ℕ} (ha : code.announced a = some n)
    (hshort : after.length < n) (before : List α) :
    ∃ front part,
      code.pieces (before ++ a :: after) = front ++ [.cut part] := by
  have hstart : ∀ b ∈ (a :: after).head?, code.isCont b = false := by
    intro b hb
    cases hb
    exact code.lead_not_cont a n ha
  induction hlength : before.length using Nat.strongRecOn
    generalizing before with
  | ind length ih =>
      cases before with
      | nil => exact ⟨[], _, pieces_cons_of_cut ha hshort⟩
      | cons b before =>
          rw [List.length_cons] at hlength
          rw [List.cons_append]
          rcases code.pieces_cons_cases b (before ++ a :: after) with hstray |
            ⟨tail, rest, hsplit, _, hcont, hsequence⟩ | ⟨_, _, _, hcut⟩
          · obtain ⟨front, part, hfront⟩ := ih before.length (by omega) before rfl
            exact ⟨.stray b :: front, part, by rw [hstray, hfront]; rfl⟩
          · obtain ⟨before', rfl, rfl⟩ :=
              split_before_start hcont hstart hsplit
            rw [List.length_append] at hlength
            obtain ⟨front, part, hfront⟩ :=
              ih before'.length (by omega) before' rfl
            exact ⟨.sequence b tail :: front, part, by
              rw [hsequence, hfront]; rfl⟩
          · exact ⟨[], _, hcut⟩

/-! ## Where a piece comes from -/

theorem pieces_cons_split (a : α) (rest : List α) :
    ∃ piece rest', code.pieces (a :: rest) = piece :: code.pieces rest' ∧
      a :: rest = piece.elems ++ rest' := by
  rcases code.pieces_cons_cases a rest with hstray |
    ⟨tail, rest', hsplit, _, _, hsequence⟩ | ⟨_, _, _, hcut⟩
  · exact ⟨_, _, hstray, rfl⟩
  · exact ⟨_, _, hsequence, by rw [hsplit]; rfl⟩
  · exact ⟨_, [], by rw [hcut, pieces_nil], by simp [Piece.elems]⟩

/-- What stands behind a piece is what the scanner finds in the rest of the
input. -/
theorem pieces_split
    {s : List α} {front back : List (Piece α)} {piece : Piece α}
    (hpieces : code.pieces s = front ++ piece :: back) :
    ∃ rest, back = code.pieces rest ∧
      s = front.flatMap Piece.elems ++ (piece.elems ++ rest) := by
  induction front generalizing s with
  | nil =>
      cases s with
      | nil =>
          rw [pieces_nil] at hpieces
          cases hpieces
      | cons a s =>
          obtain ⟨p, rest, hstep, hsplit⟩ := code.pieces_cons_split a s
          rw [hstep, List.nil_append, List.cons.injEq] at hpieces
          obtain ⟨rfl, rfl⟩ := hpieces
          exact ⟨rest, rfl, hsplit⟩
  | cons q front ih =>
      cases s with
      | nil =>
          rw [pieces_nil] at hpieces
          cases hpieces
      | cons a s =>
          obtain ⟨p, rest, hstep, hsplit⟩ := code.pieces_cons_split a s
          rw [hstep, List.cons_append, List.cons.injEq] at hpieces
          obtain ⟨rfl, htail⟩ := hpieces
          obtain ⟨rest', hback, hrest⟩ := ih htail
          refine ⟨rest', hback, ?_⟩
          rw [hsplit, hrest, List.flatMap_cons, List.append_assoc]

theorem isSequence_of_mem
    (s : List α) {lead : α} {tail : List α}
    (hmem : .sequence lead tail ∈ code.pieces s) :
    code.IsSequence (lead :: tail) := by
  induction s using code.pieces_induction with
  | nil =>
      rw [pieces_nil] at hmem
      cases hmem
  | stray a rest hpieces ih =>
      rw [hpieces] at hmem
      rcases List.mem_cons.mp hmem with heq | hrest
      · cases heq
      · exact ih hrest
  | sequence a tail' rest ha hcont hpieces ih =>
      rw [hpieces] at hmem
      rcases List.mem_cons.mp hmem with heq | hrest
      · cases heq
        exact ⟨lead, tail, rfl, ha, hcont⟩
      · exact ih hrest
  | cut a rest n _ _ hpieces =>
      rw [hpieces] at hmem
      cases List.mem_singleton.mp hmem

/-- The scanner finds nothing but sequences exactly in concatenations of
sequences. -/
theorem pieces_all_sequences_iff (s : List α) :
    (∀ p ∈ code.pieces s, ∃ lead tail, p = .sequence lead tail) ↔
      ∃ parts : List (List α), s = parts.flatten ∧
        ∀ part ∈ parts, code.IsSequence part := by
  constructor
  · intro hall
    induction s using code.pieces_induction with
    | nil => exact ⟨[], rfl, by simp⟩
    | stray a rest hpieces _ =>
        rw [hpieces] at hall
        obtain ⟨_, _, heq⟩ := hall _ List.mem_cons_self
        cases heq
    | sequence a tail rest ha hcont hpieces ih =>
        rw [hpieces] at hall
        obtain ⟨parts, hparts, hsequences⟩ :=
          ih fun p hp => hall p (List.mem_cons_of_mem _ hp)
        refine ⟨(a :: tail) :: parts, by rw [hparts]; rfl, ?_⟩
        intro part hpart
        rcases List.mem_cons.mp hpart with rfl | hrest
        · exact ⟨a, tail, rfl, ha, hcont⟩
        · exact hsequences part hrest
    | cut a rest n _ _ hpieces =>
        rw [hpieces] at hall
        obtain ⟨_, _, heq⟩ := hall _ List.mem_cons_self
        cases heq
  · intro h
    obtain ⟨parts, rfl, hsequences⟩ := h
    induction parts with
    | nil => simp
    | cons part parts ih =>
        obtain ⟨lead, tail, rfl, hlead, hcont⟩ :=
          hsequences part List.mem_cons_self
        have hrest := ih fun q hq => hsequences q (List.mem_cons_of_mem _ hq)
        rw [List.flatten_cons, List.cons_append, pieces_sequence hlead hcont]
        intro p hp
        rcases List.mem_cons.mp hp with rfl | hmem
        · exact ⟨lead, tail, rfl⟩
        · exact hrest p hmem

end Code

end SyncCode
