import Mathlib.Data.List.Chain
import Mathlib.Tactic

/-!
# Runs of related neighbours

A run detector walks a sequence once and counts how long the current chain of
related neighbours is, starting again at one when two neighbours are not
related.  This file says what such a counter decides: whether some window of
the requested length is a chain.  Nothing here depends on what the elements
are or on which relation is counted.
-/

namespace ConsecutiveRuns

variable {α β : Type*}

/-- Some `n` consecutive elements of `s` are a chain for `R`. -/
def HasRun (R : α → α → Prop) (n : ℕ) (s : List α) : Prop :=
  ∃ w, w <:+: s ∧ w.length = n ∧ w.IsChain R

theorem HasRun.widen
    {R : α → α → Prop} {n : ℕ} {s t : List α}
    (hwindow : s <:+: t) (hrun : HasRun R n s) :
    HasRun R n t := by
  obtain ⟨w, hw, hlength, hchain⟩ := hrun
  exact ⟨w, hw.trans hwindow, hlength, hchain⟩

theorem HasRun.anti
    {R : α → α → Prop} {m n : ℕ} {s : List α}
    (hle : m ≤ n) (hrun : HasRun R n s) :
    HasRun R m s := by
  obtain ⟨w, hw, hlength, hchain⟩ := hrun
  refine ⟨w.take m, ?_, ?_, hchain.take m⟩
  · exact (List.take_prefix m w).isInfix.trans hw
  · rw [List.length_take, hlength]
    omega

theorem HasRun.length_le
    {R : α → α → Prop} {n : ℕ} {s : List α}
    (hrun : HasRun R n s) : n ≤ s.length := by
  obtain ⟨w, hw, hlength, _⟩ := hrun
  rw [← hlength]
  exact hw.length_le

theorem hasRun_reverse
    {R : α → α → Prop} {n : ℕ} {s : List α} :
    HasRun R n s.reverse ↔ HasRun (fun a b => R b a) n s := by
  constructor
  · intro h
    obtain ⟨w, hw, hlength, hchain⟩ := h
    refine ⟨w.reverse, ?_, ?_, List.isChain_reverse.mpr hchain⟩
    · rw [← List.reverse_infix, List.reverse_reverse]
      exact hw
    · rw [List.length_reverse, hlength]
  · intro h
    obtain ⟨w, hw, hlength, hchain⟩ := h
    refine ⟨w.reverse, List.reverse_infix.mpr hw, ?_, ?_⟩
    · rw [List.length_reverse, hlength]
    · exact List.isChain_reverse.mpr hchain

/-- Runs of a relation that looks at elements through `f` only. -/
theorem hasRun_map
    {S : β → β → Prop} (f : α → β) {n : ℕ} {s : List α} :
    HasRun S n (s.map f) ↔ HasRun (fun a b => S (f a) (f b)) n s := by
  constructor
  · intro h
    obtain ⟨w, hw, hlength, hchain⟩ := h
    obtain ⟨v, hv, rfl⟩ := List.infix_map_iff.mp hw
    rw [List.length_map] at hlength
    exact ⟨v, hv, hlength, (List.isChain_map f).mp hchain⟩
  · intro h
    obtain ⟨w, hw, hlength, hchain⟩ := h
    refine ⟨w.map f, hw.map f, ?_, (List.isChain_map f).mpr hchain⟩
    rw [List.length_map, hlength]

theorem hasRun_of_chain_prefix
    {R : α → α → Prop} {n : ℕ} {w rest : List α}
    (hlength : w.length = n) (hchain : w.IsChain R) :
    HasRun R n (w ++ rest) :=
  ⟨w, List.infix_append_left, hlength, hchain⟩

/-- A run cannot cross two unrelated neighbours, and it does not fit before
them when what stands there is shorter than the run. -/
theorem hasRun_append_break
    {R : α → α → Prop} {n : ℕ} {before rest : List α} {a b : α}
    (hshort : before.length + 1 < n) (hbreak : ¬ R a b) :
    HasRun R n (before ++ a :: b :: rest) ↔ HasRun R n (b :: rest) := by
  have hsplit : before ++ a :: b :: rest =
      (before ++ [a]) ++ (b :: rest) := by simp
  constructor
  · rintro ⟨w, hw, hlength, hchain⟩
    rw [hsplit, List.infix_append_iff_ne_nil] at hw
    rcases hw with hleft | hright | ⟨t₁, t₂, ht₁, ht₂, hw, hsuffix, hprefix⟩
    · have hle := hleft.length_le
      simp only [List.length_append, List.length_singleton] at hle
      omega
    · exact ⟨w, hright, hlength, hchain⟩
    · -- a window over the break would relate `a` and `b`
      subst hw
      have hlast : t₁.getLast ht₁ = a := by
        have hlastOf := hsuffix.getLast ht₁
        simpa using hlastOf
      have hhead : t₂.head ht₂ = b := by
        obtain ⟨tail, htail⟩ := hprefix
        cases t₂ with
        | nil => exact absurd rfl ht₂
        | cons c t₂ =>
            simp only [List.cons_append, List.cons.injEq] at htail
            exact htail.1
      have hrel := hchain.rel_getLast_head_of_append ht₁ ht₂
      rw [hlast, hhead] at hrel
      exact absurd hrel hbreak
  · intro hrun
    rw [hsplit]
    exact hrun.widen List.infix_append_right

/-- The counting loop: `a` is the last element seen and `run` the length of
the chain that ends there. -/
def scan (R : α → α → Prop) [DecidableRel R] (n : ℕ) :
    α → ℕ → List α → Bool
  | _, _, [] => false
  | a, run, b :: rest =>
      let run' := if R a b then run + 1 else 1
      decide (n ≤ run') || scan R n b run' rest

/-- The loop finds a run exactly when there is one in what it has counted so
far together with what is left. -/
theorem scan_eq_true_iff
    {R : α → α → Prop} [DecidableRel R] {n : ℕ} (hn : 2 ≤ n)
    (before : List α) {rest : List α} {a : α}
    (hchain : (before ++ [a]).IsChain R) (hshort : before.length + 1 < n) :
    scan R n a (before.length + 1) rest = true ↔
      HasRun R n (before ++ a :: rest) := by
  induction rest generalizing before a with
  | nil =>
      simp only [scan, Bool.false_eq_true, false_iff]
      intro hrun
      have hle := hrun.length_le
      simp only [List.length_append, List.length_singleton] at hle
      omega
  | cons b rest ih =>
      by_cases hrel : R a b
      · have hchain' : ((before ++ [a]) ++ [b]).IsChain R := by
          apply hchain.append (List.isChain_singleton b)
          intro x hx y hy
          have hxa : a = x := by simpa using hx
          have hyb : b = y := by simpa using hy
          rw [← hxa, ← hyb]
          exact hrel
        have hassoc : before ++ a :: b :: rest =
            (before ++ [a]) ++ b :: rest := by simp
        simp only [scan, hrel, if_true, Bool.or_eq_true, decide_eq_true_eq]
        by_cases hfull : n ≤ before.length + 1 + 1
        · have hrun : HasRun R n (((before ++ [a]) ++ [b]) ++ rest) := by
            apply hasRun_of_chain_prefix _ hchain'
            simp only [List.length_append, List.length_singleton]
            omega
          have hrun' : HasRun R n (before ++ a :: b :: rest) := by
            simpa [List.append_assoc] using hrun
          exact ⟨fun _ => hrun', fun _ => Or.inl hfull⟩
        · have hlength : (before ++ [a]).length + 1 < n := by
            simp only [List.length_append, List.length_singleton]
            omega
          have hnext := ih (before ++ [a]) hchain' hlength
          rw [List.length_append, List.length_singleton] at hnext
          rw [hassoc, ← hnext]
          exact ⟨fun h => h.resolve_left hfull, Or.inr⟩
      · have hone : ¬ n ≤ 1 := by omega
        have hnext := ih [] (List.isChain_singleton b) (by simpa using by omega)
        simp only [List.length_nil, Nat.zero_add, List.nil_append] at hnext
        simp only [scan, hrel, if_false, Bool.or_eq_true, decide_eq_true_eq,
          hone, false_or]
        rw [hnext, hasRun_append_break hshort hrel]

theorem scan_start_eq_true_iff
    {R : α → α → Prop} [DecidableRel R] {n : ℕ} (hn : 2 ≤ n)
    (a : α) (rest : List α) :
    scan R n a 1 rest = true ↔ HasRun R n (a :: rest) := by
  have hstart : scan R n a 1 rest = true ↔ HasRun R n ([] ++ a :: rest) :=
    scan_eq_true_iff hn [] (List.isChain_singleton a) (by simpa using by omega)
  simpa using hstart

end ConsecutiveRuns
