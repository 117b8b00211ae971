import Mathlib.Tactic

/-!
# Programs whose allocations may fail

A program runs against a schedule that says which allocations fail, counted in
the order they are made.  A throwing allocation that fails raises; a nothrow
one gives no object.  An exception that leaves a noexcept function terminates
the process.

The second half is about programs that build one object.  Their plan lists the
allocations they make; a required one that fails makes them give up.
-/

namespace Allocation

inductive Outcome (α : Type) where
  | done (a : α)
  | raised
  | terminated

/-- The schedule, and how many allocations have been made. -/
def Alloc (α : Type) : Type := (ℕ → Bool) → ℕ → Outcome α × ℕ

variable {α β : Type}

namespace Alloc

def bind (prog : Alloc α) (next : α → Alloc β) : Alloc β := fun fails c =>
  match prog fails c with
  | (.done a, c') => next a fails c'
  | (.raised, c') => (.raised, c')
  | (.terminated, c') => (.terminated, c')

instance : Monad Alloc where
  pure a := fun _ c => (.done a, c)
  bind := bind

def allocate : Alloc Unit := fun fails c =>
  (if fails c then .raised else .done (), c + 1)

def newNothrow (a : α) : Alloc (Option α) := fun fails c =>
  (.done (if fails c then none else some a), c + 1)

def noexcept (prog : Alloc α) : Alloc α := fun fails c =>
  match prog fails c with
  | (.raised, c') => (.terminated, c')
  | result => result

def tryCatch (prog handler : Alloc α) : Alloc α := fun fails c =>
  match prog fails c with
  | (.raised, c') => handler fails c'
  | result => result

theorem pure_bind {α β : Type} (a : α) (next : α → Alloc β) :
    (pure a >>= next) = next a := rfl

theorem bind_assoc {α β γ : Type}
    (prog : Alloc α) (next : α → Alloc β) (last : β → Alloc γ) :
    (prog >>= next) >>= last = prog >>= fun a => next a >>= last := by
  funext fails c
  change bind (bind prog next) last fails c =
    bind prog (fun a => bind (next a) last) fails c
  unfold bind
  cases prog fails c with
  | mk outcome c' =>
      cases outcome with
      | done a => rfl
      | raised => rfl
      | terminated => rfl

theorem bind_pure {α : Type} (prog : Alloc α) : (prog >>= pure) = prog := by
  funext fails c
  change bind prog pure fails c = prog fails c
  unfold bind
  cases prog fails c with
  | mk outcome c' =>
      cases outcome with
      | done a => rfl
      | raised => rfl
      | terminated => rfl

theorem bind_of_done
    {prog : Alloc α} {fails : ℕ → Bool} {c c' : ℕ} {a : α}
    (hrun : prog fails c = (.done a, c')) (next : α → Alloc β) :
    (prog >>= next) fails c = next a fails c' := by
  change bind prog next fails c = _
  rw [bind, hrun]

theorem bind_of_raised
    {prog : Alloc α} {fails : ℕ → Bool} {c : ℕ}
    (hrun : (prog fails c).1 = .raised) (next : α → Alloc β) :
    ((prog >>= next) fails c).1 = .raised := by
  change (bind prog next fails c).1 = _
  cases h : prog fails c with
  | mk outcome c' =>
      rw [h] at hrun
      rw [bind, h]
      cases outcome with
      | done a => cases hrun
      | raised => rfl
      | terminated => cases hrun

end Alloc

/-! ## A known number of throwing allocations -/

/-- The program makes `n` throwing allocations and then returns `value`. -/
structure Performs (prog : Alloc α) (n : ℕ) (value : α) : Prop where
  done : ∀ fails c, (∀ i < n, fails (c + i) = false) →
    prog fails c = (.done value, c + n)
  raised : ∀ fails c, (∃ i < n, fails (c + i) = true) →
    (prog fails c).1 = .raised

theorem no_failure
    {fails : ℕ → Bool} {c n : ℕ} (h : ¬ ∃ i < n, fails (c + i) = true) :
    ∀ i < n, fails (c + i) = false := by
  intro i hi
  cases hfails : fails (c + i) with
  | false => rfl
  | true => exact absurd ⟨i, hi, hfails⟩ h

theorem performs_pure (a : α) : Performs (pure a : Alloc α) 0 a where
  done := fun _ _ _ => rfl
  raised := by
    intro fails c hfail
    obtain ⟨i, hi, _⟩ := hfail
    omega

theorem Performs.eq_of_done
    {prog : Alloc α} {n : ℕ} {value a : α} {fails : ℕ → Bool} {c c' : ℕ}
    (hprog : Performs prog n value) (hrun : prog fails c = (.done a, c')) :
    a = value := by
  by_cases hfail : ∃ i < n, fails (c + i) = true
  · have hraised := hprog.raised fails c hfail
    rw [hrun] at hraised
    cases hraised
  · have hdone := hprog.done fails c (no_failure hfail)
    rw [hrun] at hdone
    cases hdone
    rfl

theorem performs_allocate : Performs Alloc.allocate 1 () where
  done := by
    intro fails c hok
    have hzero := hok 0 (by omega)
    rw [Nat.add_zero] at hzero
    rw [Alloc.allocate, hzero]
    rfl
  raised := by
    intro fails c hfail
    obtain ⟨i, hi, hfails⟩ := hfail
    have hzero : c + i = c := by omega
    rw [hzero] at hfails
    rw [Alloc.allocate, hfails]
    rfl

theorem Performs.bind
    {prog : Alloc α} {next : α → Alloc β} {n m : ℕ} {a : α} {b : β}
    (hprog : Performs prog n a) (hnext : Performs (next a) m b) :
    Performs (prog >>= next) (n + m) b where
  done := by
    intro fails c hok
    have hfirst : ∀ i < n, fails (c + i) = false :=
      fun i hi => hok i (by omega)
    have hrest : ∀ i < m, fails (c + n + i) = false := by
      intro i hi
      rw [Nat.add_assoc]
      exact hok (n + i) (by omega)
    rw [Alloc.bind_of_done (hprog.done fails c hfirst),
      hnext.done fails (c + n) hrest, Nat.add_assoc]
  raised := by
    intro fails c hfail
    by_cases hfirst : ∃ i < n, fails (c + i) = true
    · exact Alloc.bind_of_raised (hprog.raised fails c hfirst) next
    · have hok := no_failure hfirst
      obtain ⟨i, hi, hfails⟩ := hfail
      have hge : n ≤ i := by
        by_contra hlt
        exact hfirst ⟨i, by omega, hfails⟩
      rw [Alloc.bind_of_done (hprog.done fails c hok)]
      refine hnext.raised fails (c + n) ⟨i - n, by omega, ?_⟩
      have hindex : c + n + (i - n) = c + i := by omega
      rw [hindex, hfails]

theorem performs_foldlM
    {σ : Type} (step : σ → β → Alloc σ) (cost : β → ℕ) (pureStep : σ → β → σ)
    (hstep : ∀ s b, Performs (step s b) (cost b) (pureStep s b))
    (items : List β) (s : σ) :
    Performs (items.foldlM step s) ((items.map cost).sum)
      (items.foldl pureStep s) := by
  induction items generalizing s with
  | nil => exact performs_pure s
  | cons b items ih =>
      rw [List.foldlM_cons, List.map_cons, List.sum_cons, List.foldl_cons]
      exact (hstep s b).bind (ih (pureStep s b))

/-! ## Plans -/

inductive Site where
  | throwing
  | required
  | optional
  deriving DecidableEq

/-- From allocation `c` on, some throwing allocation of the plan fails while
no required one before it does. -/
def Raises (fails : ℕ → Bool) : List Site → ℕ → Prop
  | [], _ => False
  | .throwing :: rest, c => fails c = true ∨ Raises fails rest (c + 1)
  | .required :: rest, c => fails c = false ∧ Raises fails rest (c + 1)
  | .optional :: rest, c => Raises fails rest (c + 1)

theorem raises_iff (fails : ℕ → Bool) (plan : List Site) (c : ℕ) :
    Raises fails plan c ↔
      ∃ i, plan[i]? = some .throwing ∧ fails (c + i) = true ∧
        ∀ j < i, plan[j]? = some .required → fails (c + j) = false := by
  induction plan generalizing c with
  | nil => simp [Raises]
  | cons site rest ih =>
      have hshift : (∃ i, rest[i]? = some .throwing ∧
            fails (c + 1 + i) = true ∧
            ∀ j < i, rest[j]? = some .required → fails (c + 1 + j) = false) ↔
          ∃ i, (site :: rest)[i + 1]? = some .throwing ∧
            fails (c + (i + 1)) = true ∧
            ∀ j < i, (site :: rest)[j + 1]? = some .required →
              fails (c + (j + 1)) = false := by
        simp only [List.getElem?_cons_succ, Nat.add_assoc, Nat.add_comm 1]
      have htail : (∃ i, (site :: rest)[i]? = some .throwing ∧
            fails (c + i) = true ∧ ∀ j < i,
              (site :: rest)[j]? = some .required → fails (c + j) = false) ↔
          (site = .throwing ∧ fails c = true) ∨
            (site = .required → fails c = false) ∧
              Raises fails rest (c + 1) := by
        rw [ih, hshift]
        constructor
        · intro h
          obtain ⟨i, hsite, hfails, hbefore⟩ := h
          cases i with
          | zero =>
              rw [List.getElem?_cons_zero, Option.some.injEq] at hsite
              exact Or.inl ⟨hsite, hfails⟩
          | succ i =>
              refine Or.inr ⟨?_, i, hsite, hfails, ?_⟩
              · intro hreq
                exact hbefore 0 (by omega) (by rw [hreq]; rfl)
              · intro j hj
                exact hbefore (j + 1) (by omega)
        · intro h
          rcases h with ⟨hsite, hfails⟩ | ⟨hhead, i, hsite, hfails, hbefore⟩
          · refine ⟨0, by rw [hsite]; rfl, hfails, ?_⟩
            intro j hj
            omega
          · refine ⟨i + 1, hsite, hfails, ?_⟩
            intro j hj
            cases j with
            | zero =>
                intro hreq
                rw [List.getElem?_cons_zero, Option.some.injEq] at hreq
                exact hhead hreq
            | succ j => exact hbefore j (by omega)
      rw [htail]
      cases site with
      | throwing => simp [Raises]
      | required => simp [Raises]
      | optional => simp [Raises]

theorem raises_throwing_append
    (fails : ℕ → Bool) (n : ℕ) (plan : List Site) (c : ℕ) :
    Raises fails (List.replicate n .throwing ++ plan) c ↔
      (∃ i < n, fails (c + i) = true) ∨ Raises fails plan (c + n) := by
  induction n generalizing c with
  | zero => simp
  | succ n ih =>
      have hcount : c + 1 + n = c + (n + 1) := by omega
      rw [List.replicate_succ, List.cons_append, Raises, ih, hcount,
        ← or_assoc]
      refine or_congr_left ?_
      constructor
      · intro h
        rcases h with hzero | ⟨i, hi, hfails⟩
        · exact ⟨0, by omega, hzero⟩
        · refine ⟨i + 1, by omega, ?_⟩
          rw [← hfails]
          congr 1
          omega
      · intro h
        obtain ⟨i, hi, hfails⟩ := h
        cases i with
        | zero => exact Or.inl hfails
        | succ i =>
            refine Or.inr ⟨i, by omega, ?_⟩
            rw [← hfails]
            congr 1
            omega

/-- The program raises exactly when its plan does, and otherwise gives nothing
or a good object; it gives one when no allocation fails. -/
structure Builds (prog : Alloc (Option α)) (plan : List Site)
    (Good : α → Prop) : Prop where
  raised : ∀ fails c, Raises fails plan c → (prog fails c).1 = .raised
  returns : ∀ fails c, ¬ Raises fails plan c →
    ∃ object c', prog fails c = (.done object, c') ∧ ∀ a ∈ object, Good a
  succeeds : ∀ fails c, (∀ i, fails i = false) →
    ∃ a c', prog fails c = (.done (some a), c')

variable {Good : α → Prop}

theorem builds_pure {a : α} (ha : Good a) :
    Builds (pure (some a) : Alloc (Option α)) [] Good where
  raised := fun _ _ h => h.elim
  returns := by
    intro fails c _
    refine ⟨some a, c, rfl, ?_⟩
    intro b hb
    rw [Option.mem_some_iff] at hb
    rw [← hb]
    exact ha
  succeeds := fun _ c _ => ⟨a, c, rfl⟩

theorem Builds.throwing
    {prog : Alloc β} {next : β → Alloc (Option α)} {n : ℕ} {b : β}
    {plan : List Site} (hprog : Performs prog n b)
    (hnext : Builds (next b) plan Good) :
    Builds (prog >>= next) (List.replicate n .throwing ++ plan) Good where
  raised := by
    intro fails c hraises
    rw [raises_throwing_append] at hraises
    by_cases hfirst : ∃ i < n, fails (c + i) = true
    · exact Alloc.bind_of_raised (hprog.raised fails c hfirst) next
    · have hok := no_failure hfirst
      rw [Alloc.bind_of_done (hprog.done fails c hok)]
      exact hnext.raised fails (c + n) (hraises.resolve_left hfirst)
  returns := by
    intro fails c hraises
    rw [raises_throwing_append, not_or] at hraises
    obtain ⟨hfirst, hrest⟩ := hraises
    have hok := no_failure hfirst
    rw [Alloc.bind_of_done (hprog.done fails c hok)]
    exact hnext.returns fails (c + n) hrest
  succeeds := by
    intro fails c hok
    rw [Alloc.bind_of_done (hprog.done fails c fun i _ => hok (c + i))]
    exact hnext.succeeds fails (c + n) hok

theorem Builds.required
    {next : Option β → Alloc (Option α)} {b : β} {plan : List Site}
    (hnone : next none = pure none) (hnext : Builds (next (some b)) plan Good) :
    Builds (Alloc.newNothrow b >>= next) (.required :: plan) Good where
  raised := by
    intro fails c hraises
    obtain ⟨hok, hrest⟩ := hraises
    have hrun : Alloc.newNothrow b fails c = (.done (some b), c + 1) := by
      rw [Alloc.newNothrow, hok]
      rfl
    rw [Alloc.bind_of_done hrun]
    exact hnext.raised fails (c + 1) hrest
  returns := by
    intro fails c hraises
    cases hfails : fails c with
    | false =>
        have hrun : Alloc.newNothrow b fails c = (.done (some b), c + 1) := by
          rw [Alloc.newNothrow, hfails]
          rfl
        rw [Alloc.bind_of_done hrun]
        exact hnext.returns fails (c + 1) fun h => hraises ⟨hfails, h⟩
    | true =>
        have hrun : Alloc.newNothrow b fails c = (.done none, c + 1) := by
          rw [Alloc.newNothrow, hfails]
          rfl
        rw [Alloc.bind_of_done hrun, hnone]
        exact ⟨none, c + 1, rfl, by simp⟩
  succeeds := by
    intro fails c hok
    have hrun : Alloc.newNothrow b fails c = (.done (some b), c + 1) := by
      rw [Alloc.newNothrow, hok c]
      rfl
    rw [Alloc.bind_of_done hrun]
    exact hnext.succeeds fails (c + 1) hok

theorem Builds.optional
    {next : Option β → Alloc (Option α)} {b : β} {plan : List Site}
    (hnext : ∀ object, Builds (next object) plan Good) :
    Builds (Alloc.newNothrow b >>= next) (.optional :: plan) Good where
  raised := by
    intro fails c hraises
    have hrun : Alloc.newNothrow b fails c =
        (.done (if fails c then none else some b), c + 1) := rfl
    rw [Alloc.bind_of_done hrun]
    exact (hnext _).raised fails (c + 1) hraises
  returns := by
    intro fails c hraises
    have hrun : Alloc.newNothrow b fails c =
        (.done (if fails c then none else some b), c + 1) := rfl
    rw [Alloc.bind_of_done hrun]
    exact (hnext _).returns fails (c + 1) hraises
  succeeds := by
    intro fails c hok
    have hrun : Alloc.newNothrow b fails c =
        (.done (if fails c then none else some b), c + 1) := rfl
    rw [Alloc.bind_of_done hrun]
    exact (hnext _).succeeds fails (c + 1) hok

/-- The program goes on with the object or with nothing. -/
theorem Builds.optional_cases
    {next : Option β → Alloc (Option α)} {b : β} {plan : List Site}
    (hnone : Builds (next none) plan Good)
    (hsome : Builds (next (some b)) plan Good) :
    Builds (Alloc.newNothrow b >>= next) (.optional :: plan) Good := by
  have hrun : ∀ fails c, Alloc.newNothrow b fails c =
      (.done (if fails c then none else some b), c + 1) := fun _ _ => rfl
  have hnext : ∀ failed : Bool,
      Builds (next (if failed then none else some b)) plan Good := by
    intro failed
    cases failed with
    | true => exact hnone
    | false => exact hsome
  refine ⟨?_, ?_, ?_⟩
  · intro fails c hraises
    rw [Alloc.bind_of_done (hrun fails c)]
    exact (hnext (fails c)).raised fails (c + 1) hraises
  · intro fails c hraises
    rw [Alloc.bind_of_done (hrun fails c)]
    exact (hnext (fails c)).returns fails (c + 1) hraises
  · intro fails c hok
    rw [Alloc.bind_of_done (hrun fails c)]
    exact (hnext (fails c)).succeeds fails (c + 1) hok

end Allocation
