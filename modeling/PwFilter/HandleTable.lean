import PwFilter.Allocation
import Mathlib.Data.Finset.Basic

/-!
# Handles of the operating system

Programs that acquire and release handles besides allocating.  The table holds
the handles that are open; releasing one that is not open, or is of another
kind, is recorded as a misuse.  A program that raises keeps what it has
acquired.

Any operation may also meet a structured exception, which comes from the
processor or from a file that cannot be read.  Neither noexcept nor a C++
handler stops it.

`Triple` is about the handles a program owns, with any others as a frame.
`Simulates` compares a program with one that does not mention handles.
-/

namespace HandleTable

open Allocation

/-- Handles are numbered in the order in which they are given out. -/
structure Table (κ : Type) where
  next : ℕ := 0
  live : Finset (κ × ℕ) := ∅
  misused : Bool := false

inductive Ending (α : Type) where
  | done (a : α)
  | raised
  | terminated
  | faulted

def Ending.ofOutcome {α : Type} : Outcome α → Ending α
  | .done a => .done a
  | .raised => .raised
  | .terminated => .terminated

/-- Which allocations fail, and which operations meet a structured exception. -/
structure Schedule where
  fails : ℕ → Bool
  faults : ℕ → Bool := fun _ => false

def Schedule.Calm (s : Schedule) : Prop := ∀ i, s.faults i = false

/-- How many allocations and operations have been made. -/
structure Count where
  allocations : ℕ := 0
  operations : ℕ := 0

/-- The ending, the table after it, and what has been made. -/
def Sys (κ α : Type) : Type :=
  Table κ → Schedule → Count → Ending α × Table κ × Count

variable {κ α β : Type}

namespace Sys

def bind (prog : Sys κ α) (next : α → Sys κ β) : Sys κ β := fun t s c =>
  match prog t s c with
  | (.done a, t', c') => next a t' s c'
  | (.raised, t', c') => (.raised, t', c')
  | (.terminated, t', c') => (.terminated, t', c')
  | (.faulted, t', c') => (.faulted, t', c')

instance : Monad (Sys κ) where
  pure a := fun t _ c => (.done a, t, c)
  bind := bind

/-- An operation that a structured exception may come instead of. -/
def operation (prog : Sys κ α) : Sys κ α := fun t s c =>
  if s.faults c.operations then (.faulted, t, c)
  else prog t s { c with operations := c.operations + 1 }

def lift (prog : Alloc α) : Sys κ α := operation fun t s c =>
  match prog s.fails c.allocations with
  | (outcome, n) => (.ofOutcome outcome, t, { c with allocations := n })

def noexcept (prog : Sys κ α) : Sys κ α := fun t s c =>
  match prog t s c with
  | (.raised, t', c') => (.terminated, t', c')
  | result => result

theorem bind_done
    {prog : Sys κ α} {next : α → Sys κ β} {t t' : Table κ} {s : Schedule}
    {c c' : Count} {b : β} (hrun : (prog >>= next) t s c = (.done b, t', c')) :
    ∃ a t₁ c₁, prog t s c = (.done a, t₁, c₁) ∧
      next a t₁ s c₁ = (.done b, t', c') := by
  change bind prog next t s c = _ at hrun
  unfold bind at hrun
  cases hprog : prog t s c with
  | mk ending rest =>
      obtain ⟨t₁, c₁⟩ := rest
      rw [hprog] at hrun
      cases ending with
      | done a => exact ⟨a, t₁, c₁, rfl, hrun⟩
      | raised => cases hrun
      | terminated => cases hrun
      | faulted => cases hrun

theorem operation_cases
    (prog : Sys κ α) (t : Table κ) (s : Schedule) (c : Count) :
    (s.faults c.operations = true ∧ operation prog t s c = (.faulted, t, c)) ∨
      operation prog t s c =
        prog t s { c with operations := c.operations + 1 } := by
  unfold operation
  split
  · rename_i hfault
    exact .inl ⟨hfault, rfl⟩
  · exact .inr rfl

/-- Reading memory that a file is mapped to. -/
def touch : Sys κ Unit := operation (pure ())

def acquire [DecidableEq κ] (kind : κ) : Sys κ ℕ := operation fun t _ c =>
  (.done t.next,
    { t with next := t.next + 1, live := insert (kind, t.next) t.live }, c)

def release [DecidableEq κ] (kind : κ) (id : ℕ) : Sys κ Unit :=
  operation fun t _ c =>
    (.done (),
      if (kind, id) ∈ t.live then { t with live := t.live.erase (kind, id) }
      else { t with misused := true }, c)

end Sys

/-- A structured exception ended the run, and one was scheduled. -/
def Interrupted (s : Schedule) (ending : Ending α) : Prop :=
  ending = .faulted ∧ ∃ i, s.faults i = true

theorem Interrupted.not_calm
    {s : Schedule} {ending : Ending α} (h : Interrupted s ending) :
    ¬ s.Calm := by
  intro hcalm
  obtain ⟨_, i, hfault⟩ := h
  rw [hcalm i] at hfault
  cases hfault

/-! ## Ownership -/

section

/-- New numbers are larger than every open one, and nothing was misused. -/
structure Table.Sound (t : Table κ) : Prop where
  fresh : ∀ h ∈ t.live, h.2 < t.next
  unused : t.misused = false

/-- Every result of the program is good. -/
def Returns (prog : Sys κ α) (Good : α → Prop) : Prop :=
  ∀ t s c a t' c', prog t s c = (.done a, t', c') → Good a

theorem returns_pure {Good : α → Prop} {a : α} (ha : Good a) :
    Returns (κ := κ) (pure a) Good := by
  intro t s c b t' c' hrun
  cases hrun
  exact ha

theorem Returns.last
    (prog : Sys κ α) {next : α → Sys κ β} {Good : β → Prop}
    (hnext : ∀ a, Returns (next a) Good) : Returns (prog >>= next) Good := by
  intro t s c b t' c' hrun
  obtain ⟨a, t₁, c₁, _, hrest⟩ := Sys.bind_done hrun
  exact hnext a t₁ s c₁ b t' c' hrest

/-- What a program leaves open of its own: what the result says or, without a
result, at most `most` handles. -/
def Leaves (most : ℕ) (post : α → Finset (κ × ℕ)) :
    Ending α → Finset (κ × ℕ) → Prop
  | .done a, left => left = post a
  | _, left => left.card ≤ most

theorem Leaves.mono
    {n most : ℕ} {post : α → Finset (κ × ℕ)} {ending : Ending α}
    {left : Finset (κ × ℕ)} (h : Leaves n post ending left) (hle : n ≤ most) :
    Leaves most post ending left := by
  cases ending with
  | done a => exact h
  | raised => exact Nat.le_trans h hle
  | terminated => exact Nat.le_trans h hle
  | faulted => exact Nat.le_trans h hle

variable [DecidableEq κ]

/-- Started with `owned` open, a run that returns `a` ends with `post a` open,
and any other with at most `most` handles; whatever else is open stays so. -/
def Triple (most : ℕ) (owned : Finset (κ × ℕ)) (prog : Sys κ α)
    (post : α → Finset (κ × ℕ)) : Prop :=
  ∀ t frame, t.Sound → t.live = owned ∪ frame → Disjoint owned frame →
    ∀ s c, ∃ left, Leaves most post (prog t s c).1 left ∧
      (prog t s c).2.1.Sound ∧ (prog t s c).2.1.live = left ∪ frame ∧
      Disjoint left frame

variable {most : ℕ} {owned more : Finset (κ × ℕ)} {prog : Sys κ α}
  {next : α → Sys κ β} {mid : α → Finset (κ × ℕ)}
  {post : α → Finset (κ × ℕ)} {last : β → Finset (κ × ℕ)}

theorem Triple.mono
    {n : ℕ} (hprog : Triple n owned prog post) (hle : n ≤ most) :
    Triple most owned prog post := by
  intro t frame hsound hlive hdisjoint s c
  obtain ⟨left, hleaves, hrest⟩ := hprog t frame hsound hlive hdisjoint s c
  exact ⟨left, hleaves.mono hle, hrest⟩

theorem triple_pure {a : α} (howned : owned = post a) :
    Triple most owned (pure a) post := by
  intro t frame hsound hlive hdisjoint s c
  exact ⟨owned, howned, hsound, hlive, hdisjoint⟩

/-- A structured exception leaves what is owned. -/
theorem Triple.operation
    (hprog : Triple most owned prog post) (hcount : owned.card ≤ most) :
    Triple most owned (Sys.operation prog) post := by
  intro t frame hsound hlive hdisjoint s c
  rcases Sys.operation_cases prog t s c with ⟨_, hrun⟩ | hrun
  · rw [hrun]
    exact ⟨owned, hcount, hsound, hlive, hdisjoint⟩
  · rw [hrun]
    exact hprog t frame hsound hlive hdisjoint s _

theorem triple_touch (hcount : owned.card ≤ most) :
    Triple most owned Sys.touch fun _ => owned := by
  refine Triple.operation ?_ hcount
  exact triple_pure rfl

theorem triple_lift (hcount : owned.card ≤ most) (plain : Alloc α) :
    Triple most owned (Sys.lift plain) fun _ => owned := by
  refine Triple.operation ?_ hcount
  intro t frame hsound hlive hdisjoint s c
  refine ⟨owned, ?_, hsound, hlive, hdisjoint⟩
  dsimp only
  cases (plain s.fails c.allocations).1 with
  | done a => rfl
  | raised => exact hcount
  | terminated => exact hcount

theorem Triple.bind_returns
    {Good : α → Prop} (hprog : Triple most owned prog mid)
    (hgood : Returns prog Good)
    (hnext : ∀ a, Good a → Triple most (mid a) (next a) last) :
    Triple most owned (prog >>= next) last := by
  intro t frame hsound hlive hdisjoint s c
  obtain ⟨left, hleaves, hsound₁, hlive₁, hdisjoint₁⟩ :=
    hprog t frame hsound hlive hdisjoint s c
  change ∃ left, Leaves most last (Sys.bind prog next t s c).1 left ∧
    (Sys.bind prog next t s c).2.1.Sound ∧
    (Sys.bind prog next t s c).2.1.live = left ∪ frame ∧ Disjoint left frame
  unfold Sys.bind
  cases hrun : prog t s c with
  | mk ending rest =>
      obtain ⟨t₁, c₁⟩ := rest
      rw [hrun] at hleaves hsound₁ hlive₁
      cases ending with
      | done a =>
          have hleft : left = mid a := hleaves
          rw [hleft] at hlive₁ hdisjoint₁
          exact hnext a (hgood t s c a t₁ c₁ hrun) t₁ frame hsound₁ hlive₁
            hdisjoint₁ s c₁
      | raised => exact ⟨left, hleaves, hsound₁, hlive₁, hdisjoint₁⟩
      | terminated => exact ⟨left, hleaves, hsound₁, hlive₁, hdisjoint₁⟩
      | faulted => exact ⟨left, hleaves, hsound₁, hlive₁, hdisjoint₁⟩

theorem Triple.bind
    (hprog : Triple most owned prog mid)
    (hnext : ∀ a, Triple most (mid a) (next a) last) :
    Triple most owned (prog >>= next) last := by
  have hany : Returns prog fun _ => True := fun _ _ _ _ _ _ _ => trivial
  exact hprog.bind_returns hany fun a _ => hnext a

/-- The frame rule: a program may be run with more open than it owns. -/
theorem Triple.frame
    {n : ℕ} (hprog : Triple n owned prog post) (hmore : Disjoint owned more)
    (hcount : n + more.card ≤ most) :
    Triple most (owned ∪ more) prog fun a => post a ∪ more := by
  intro t frame hsound hlive hdisjoint s c
  rw [Finset.disjoint_union_left] at hdisjoint
  rw [Finset.union_assoc] at hlive
  obtain ⟨left, hleaves, hsound', hlive', hdisjoint'⟩ :=
    hprog t (more ∪ frame) hsound hlive
      (Finset.disjoint_union_right.mpr ⟨hmore, hdisjoint.1⟩) s c
  rw [Finset.disjoint_union_right] at hdisjoint'
  refine ⟨left ∪ more, ?_, hsound', by rw [hlive', Finset.union_assoc], ?_⟩
  · have hcard := Finset.card_union_le left more
    cases hending : (prog t s c).1 with
    | done a =>
        rw [hending] at hleaves
        have hleft : left = post a := hleaves
        exact congrArg (· ∪ more) hleft
    | raised =>
        rw [hending] at hleaves
        have hleft : left.card ≤ n := hleaves
        exact (show (left ∪ more).card ≤ most by omega)
    | terminated =>
        rw [hending] at hleaves
        have hleft : left.card ≤ n := hleaves
        exact (show (left ∪ more).card ≤ most by omega)
    | faulted =>
        rw [hending] at hleaves
        have hleft : left.card ≤ n := hleaves
        exact (show (left ∪ more).card ≤ most by omega)
  · exact Finset.disjoint_union_left.mpr ⟨hdisjoint'.2, hdisjoint.2⟩

theorem Triple.bind_frame
    {n : ℕ} (hprog : Triple n owned prog mid) (hmore : Disjoint owned more)
    (hcount : n + more.card ≤ most)
    (hnext : ∀ a, Triple most (mid a ∪ more) (next a) last) :
    Triple most (owned ∪ more) (prog >>= next) last :=
  (hprog.frame hmore hcount).bind hnext

theorem triple_acquire (kind : κ) :
    Triple most ∅ (Sys.acquire kind) fun id => {(kind, id)} := by
  refine Triple.operation ?_ (Nat.zero_le most)
  intro t frame hsound hlive _ s c
  rw [Finset.empty_union] at hlive
  refine ⟨{(kind, t.next)}, rfl, ⟨?_, hsound.unused⟩, ?_, ?_⟩
  · intro h hmem
    show h.2 < t.next + 1
    rcases Finset.mem_insert.mp hmem with rfl | hold
    · exact Nat.lt_succ_self _
    · exact Nat.lt_succ_of_lt (hsound.fresh h hold)
  · dsimp only
    rw [hlive]
    rfl
  · rw [Finset.disjoint_singleton_left, ← hlive]
    intro hmem
    exact absurd (hsound.fresh _ hmem) (Nat.lt_irrefl _)

theorem triple_release (hcount : 1 ≤ most) (kind : κ) (id : ℕ) :
    Triple most {(kind, id)} (Sys.release kind id) fun _ => ∅ := by
  refine Triple.operation ?_ (by rwa [Finset.card_singleton])
  intro t frame hsound hlive hdisjoint s c
  have hmem : (kind, id) ∈ t.live := by
    rw [hlive]
    exact Finset.mem_union_left _ (Finset.mem_singleton_self _)
  have hout : (kind, id) ∉ frame := Finset.disjoint_singleton_left.mp hdisjoint
  simp only [if_pos hmem]
  refine ⟨∅, rfl, ⟨?_, hsound.unused⟩, ?_, Finset.disjoint_empty_left _⟩
  · intro h hopen
    exact hsound.fresh h (Finset.mem_of_mem_erase hopen)
  · show t.live.erase (kind, id) = ∅ ∪ frame
    rw [hlive, Finset.empty_union]
    exact Finset.erase_insert hout

theorem Triple.noexcept (hprog : Triple most owned prog post) :
    Triple most owned (Sys.noexcept prog) post := by
  intro t frame hsound hlive hdisjoint s c
  obtain ⟨left, hleaves, hrest⟩ := hprog t frame hsound hlive hdisjoint s c
  refine ⟨left, ?_⟩
  unfold Sys.noexcept
  cases hrun : prog t s c with
  | mk ending rest =>
      rw [hrun] at hleaves hrest
      cases ending with
      | done a => exact ⟨hleaves, hrest⟩
      | raised => exact ⟨hleaves, hrest⟩
      | terminated => exact ⟨hleaves, hrest⟩
      | faulted => exact ⟨hleaves, hrest⟩

end

/-! ## Forgetting the handles -/

inductive Related (rel : α → β → Prop) : Ending α → Outcome β → Prop where
  | done {a : α} {b : β} (h : rel a b) : Related rel (.done a) (.done b)
  | raised : Related rel .raised .raised
  | terminated : Related rel .terminated .terminated

/-- Unless a structured exception comes, both runs end alike, after the same
allocations. -/
def Simulates (rel : α → β → Prop) (prog : Sys κ α) (plain : Alloc β) : Prop :=
  ∀ t s c, Interrupted s (prog t s c).1 ∨
    Related rel (prog t s c).1 (plain s.fails c.allocations).1 ∧
      (prog t s c).2.2.allocations = (plain s.fails c.allocations).2

theorem simulates_pure {rel : α → β → Prop} {a : α} {b : β} (h : rel a b) :
    Simulates (κ := κ) rel (pure a) (pure b) :=
  fun _ _ _ => .inr ⟨.done h, rfl⟩

theorem Simulates.operation
    {rel : α → β → Prop} {prog : Sys κ α} {plain : Alloc β}
    (hprog : Simulates rel prog plain) :
    Simulates rel (Sys.operation prog) plain := by
  intro t s c
  rcases Sys.operation_cases prog t s c with ⟨hfault, hrun⟩ | hrun
  · rw [hrun]
    exact .inl ⟨rfl, _, hfault⟩
  · rw [hrun]
    exact hprog t s _

theorem simulates_lift (prog : Alloc α) :
    Simulates (κ := κ) (· = ·) (Sys.lift prog) prog := by
  refine Simulates.operation ?_
  intro t s c
  refine .inr ⟨?_, rfl⟩
  dsimp only
  cases (prog s.fails c.allocations).1 with
  | done a => exact .done rfl
  | raised => exact .raised
  | terminated => exact .terminated

theorem Simulates.bind
    {γ δ : Type} {rel : α → β → Prop} {rel' : γ → δ → Prop}
    {prog : Sys κ α} {plain : Alloc β} {next : α → Sys κ γ}
    {plainNext : β → Alloc δ} (hprog : Simulates rel prog plain)
    (hnext : ∀ a b, rel a b → Simulates rel' (next a) (plainNext b)) :
    Simulates rel' (prog >>= next) (plain >>= plainNext) := by
  intro t s c
  change Interrupted s (Sys.bind prog next t s c).1 ∨
    Related rel' (Sys.bind prog next t s c).1
        (Alloc.bind plain plainNext s.fails c.allocations).1 ∧
      (Sys.bind prog next t s c).2.2.allocations =
        (Alloc.bind plain plainNext s.fails c.allocations).2
  have hfirst := hprog t s c
  unfold Sys.bind Alloc.bind
  cases h : prog t s c with
  | mk ending rest =>
      obtain ⟨t₁, c₁⟩ := rest
      cases h' : plain s.fails c.allocations with
      | mk outcome n =>
          rw [h, h'] at hfirst
          rcases hfirst with ⟨hending, hfault⟩ | ⟨hending, hcount⟩
          · have hcut : ending = .faulted := hending
            rw [hcut]
            exact .inl ⟨rfl, hfault⟩
          · cases hending with
            | done hrel =>
                obtain rfl : c₁.allocations = n := hcount
                exact hnext _ _ hrel t₁ s c₁
            | raised => exact .inr ⟨.raised, hcount⟩
            | terminated => exact .inr ⟨.terminated, hcount⟩

/-- Unless a structured exception comes, the program returns without an
allocation, and what it returns is good. -/
def Quiet (prog : Sys κ α) (Good : α → Prop) : Prop :=
  ∀ t s c, Interrupted s (prog t s c).1 ∨
    ∃ a t' c', prog t s c = (.done a, t', c') ∧
      c'.allocations = c.allocations ∧ Good a

theorem quiet_pure {Good : α → Prop} {a : α} (ha : Good a) :
    Quiet (κ := κ) (pure a) Good :=
  fun t _ c => .inr ⟨a, t, c, rfl, rfl, ha⟩

theorem Quiet.operation
    {prog : Sys κ α} {Good : α → Prop} (hprog : Quiet prog Good) :
    Quiet (Sys.operation prog) Good := by
  intro t s c
  rcases Sys.operation_cases prog t s c with ⟨hfault, hrun⟩ | hrun
  · rw [hrun]
    exact .inl ⟨rfl, _, hfault⟩
  · rw [hrun]
    exact hprog t s _

theorem quiet_touch : Quiet (κ := κ) Sys.touch fun _ => True :=
  (quiet_pure trivial).operation

theorem quiet_acquire [DecidableEq κ] (kind : κ) :
    Quiet (Sys.acquire kind) fun _ => True :=
  Quiet.operation fun _ _ _ => .inr ⟨_, _, _, rfl, rfl, trivial⟩

theorem quiet_release [DecidableEq κ] (kind : κ) (id : ℕ) :
    Quiet (Sys.release kind id) fun _ => True :=
  Quiet.operation fun _ _ _ => .inr ⟨_, _, _, rfl, rfl, trivial⟩

theorem Quiet.bind
    {prog : Sys κ α} {Good : α → Prop} {next : α → Sys κ β} {Good' : β → Prop}
    (hprog : Quiet prog Good) (hnext : ∀ a, Good a → Quiet (next a) Good') :
    Quiet (prog >>= next) Good' := by
  intro t s c
  change Interrupted s (Sys.bind prog next t s c).1 ∨
    ∃ b t' c', Sys.bind prog next t s c = (.done b, t', c') ∧
      c'.allocations = c.allocations ∧ Good' b
  unfold Sys.bind
  rcases hprog t s c with ⟨hending, hfault⟩ |
    ⟨a, t₁, c₁, hrun, hcount, hgood⟩
  · cases hrun : prog t s c with
    | mk ending rest =>
        rw [hrun] at hending
        have hcut : ending = .faulted := hending
        rw [hcut]
        exact .inl ⟨rfl, hfault⟩
  · rw [hrun]
    dsimp only
    rw [← hcount]
    exact hnext a hgood t₁ s c₁

/-- What only acquires and releases handles is invisible. -/
theorem Simulates.skip
    {γ : Type} {rel : α → β → Prop} {prog : Sys κ γ} {Good : γ → Prop}
    {next : γ → Sys κ α} {plain : Alloc β} (hprog : Quiet prog Good)
    (hnext : ∀ g, Good g → Simulates rel (next g) plain) :
    Simulates rel (prog >>= next) plain := by
  intro t s c
  change Interrupted s (Sys.bind prog next t s c).1 ∨
    Related rel (Sys.bind prog next t s c).1 _ ∧
      (Sys.bind prog next t s c).2.2.allocations = _
  unfold Sys.bind
  rcases hprog t s c with ⟨hending, hfault⟩ |
    ⟨g, t', c', hrun, hcount, hgood⟩
  · cases hrun : prog t s c with
    | mk ending rest =>
        rw [hrun] at hending
        have hcut : ending = .faulted := hending
        rw [hcut]
        exact .inl ⟨rfl, hfault⟩
  · rw [hrun]
    dsimp only
    rw [← hcount]
    exact hnext g hgood t' s c'

theorem Simulates.done
    {rel : α → β → Prop} {prog : Sys κ α} {plain : Alloc β}
    (hprog : Simulates rel prog plain) {t t' : Table κ} {s : Schedule}
    {c c' : Count} {a : α} (hrun : prog t s c = (.done a, t', c')) :
    ∃ b, plain s.fails c.allocations = (.done b, c'.allocations) ∧ rel a b := by
  have hboth := hprog t s c
  cases h : plain s.fails c.allocations with
  | mk outcome n =>
      rw [hrun, h] at hboth
      rcases hboth with ⟨hcut, _⟩ | ⟨hending, hcount⟩
      · cases hcut
      · cases hending with
        | done hrel =>
            exact ⟨_, by rw [show c'.allocations = n from hcount], hrel⟩

theorem Simulates.noexcept
    {rel : α → β → Prop} {prog : Sys κ α} {plain : Alloc β}
    (hprog : Simulates rel prog plain) :
    Simulates rel (Sys.noexcept prog) (Alloc.noexcept plain) := by
  intro t s c
  have hboth := hprog t s c
  unfold Sys.noexcept Alloc.noexcept
  cases h : prog t s c with
  | mk ending rest =>
      cases h' : plain s.fails c.allocations with
      | mk outcome n =>
          rw [h, h'] at hboth
          rcases hboth with ⟨hending, hfault⟩ | ⟨hending, hcount⟩
          · have hcut : ending = .faulted := hending
            rw [hcut]
            exact .inl ⟨rfl, hfault⟩
          · cases hending with
            | done hrel => exact .inr ⟨.done hrel, hcount⟩
            | raised => exact .inr ⟨.terminated, hcount⟩
            | terminated => exact .inr ⟨.terminated, hcount⟩

end HandleTable
