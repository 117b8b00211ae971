import PwFilter.DeclarativePolicy

/-!
# Exactness of the run detectors

The sequence detector and the keyboard detector find a window exactly when
there is one.  A window read backwards is a window again, with the two
directions exchanged, so neither detector depends on the direction in which a
password is typed.
-/

namespace PwFilter

open ConsecutiveRuns

/-! ## Sequences -/

theorem hasRun_steps_iff (n : ℕ) (s : List UInt16) :
    (HasRun StepUp n s ∨ HasRun StepDown n s) ↔
      ∃ window, window <:+: s ∧ window.length = n ∧
        (window.IsChain StepUp ∨ window.IsChain StepDown) := by
  constructor
  · intro h
    rcases h with ⟨w, hw, hlength, hchain⟩ | ⟨w, hw, hlength, hchain⟩
    · exact ⟨w, hw, hlength, Or.inl hchain⟩
    · exact ⟨w, hw, hlength, Or.inr hchain⟩
  · intro h
    obtain ⟨w, hw, hlength, hup | hdown⟩ := h
    · exact Or.inl ⟨w, hw, hlength, hup⟩
    · exact Or.inr ⟨w, hw, hlength, hdown⟩

theorem hasSequentialRun_reverse (s : List UInt16) (minRun : ℕ) :
    hasSequentialRun s.reverse minRun = hasSequentialRun s minRun := by
  have hup : HasRun StepUp minRun s.reverse ↔ HasRun StepDown minRun s :=
    hasRun_reverse
  have hdown : HasRun StepDown minRun s.reverse ↔ HasRun StepUp minRun s :=
    hasRun_reverse
  rw [Bool.eq_iff_iff, hasSequentialRun_iff, hasSequentialRun_iff, hup, hdown,
    or_comm]

/-- The detector finds a sequence exactly when some `minRun` neighbours all
step up by one, or all step down by one. -/
theorem hasSequentialRun_exact (s : List UInt16) (minRun : ℕ) :
    (2 ≤ minRun →
      (hasSequentialRun s minRun = true ↔
        ∃ window, window <:+: s ∧ window.length = minRun ∧
          (window.IsChain StepUp ∨ window.IsChain StepDown))) ∧
      (minRun < 2 → hasSequentialRun s minRun = false) ∧
      hasSequentialRun s.reverse minRun = hasSequentialRun s minRun := by
  refine ⟨?_, ?_, hasSequentialRun_reverse s minRun⟩
  · intro hmin
    rw [hasSequentialRun_iff, hasRun_steps_iff]
    exact and_iff_right hmin
  · intro hmin
    unfold hasSequentialRun
    rw [if_pos (Or.inl hmin)]

/-- Two sequences may share the character at which they turn. -/
example : hasSequentialRun (asciiUnits ['a', 'c', 'b', 'c', 'd', 'c', 'b']) 3 =
    true := by
  decide

/-! ## Keyboard walks -/

/-- `KeyStep` of the positions of two keys. -/
def PosStep (p q : Option (ℕ × ℕ)) : Prop :=
  ∃ row col col', p = some (row, col) ∧ q = some (row, col') ∧
    (col' = col + 1 ∨ col = col' + 1)

theorem hasRun_keyStep_iff_positions (n : ℕ) (s : List UInt16) :
    HasRun KeyStep n s ↔ HasRun PosStep n (s.map keyboardPos) :=
  (hasRun_map (S := PosStep) keyboardPos).symm

theorem map_keyboardPos_eq (s : List UInt16) :
    s.map keyboardPos =
      (lowered s).map fun lc => findRow lc keyboardRows 0 := by
  rw [lowered, List.map_map]
  apply List.map_congr_left
  intro c _
  rw [keyboardPos, toLowerAscii_eq]
  rfl

theorem keyStep_symm (a b : UInt16) : KeyStep a b ↔ KeyStep b a := by
  have hflip : ∀ a b, KeyStep a b → KeyStep b a := by
    intro a b h
    obtain ⟨row, col, col', ha, hb, hnext⟩ := h
    exact ⟨row, col', col, hb, ha, hnext.symm⟩
  exact ⟨hflip a b, hflip b a⟩

theorem hasKeyboardWalk_reverse (s : List UInt16) (minRun : ℕ) :
    hasKeyboardWalk s.reverse minRun = hasKeyboardWalk s minRun := by
  have hflip : (fun a b => KeyStep b a) = KeyStep := by
    funext a b
    exact propext (keyStep_symm b a)
  rw [Bool.eq_iff_iff, hasKeyboardWalk_iff, hasKeyboardWalk_iff, hasRun_reverse,
    hflip]

/-- The detector sees keys only, and a key is the same in either case. -/
theorem hasKeyboardWalk_lowered
    {s t : List UInt16} (hst : lowered s = lowered t) (minRun : ℕ) :
    hasKeyboardWalk s minRun = hasKeyboardWalk t minRun := by
  have hsame : s.map keyboardPos = t.map keyboardPos := by
    rw [map_keyboardPos_eq, map_keyboardPos_eq, hst]
  rw [Bool.eq_iff_iff, hasKeyboardWalk_iff, hasKeyboardWalk_iff,
    hasRun_keyStep_iff_positions, hasRun_keyStep_iff_positions, hsame]

/-- The detector finds a walk exactly when some `minRun` neighbours are on one
row, each next to the one before, whatever their case and direction. -/
theorem hasKeyboardWalk_exact (s : List UInt16) (minRun : ℕ) :
    (2 ≤ minRun →
      (hasKeyboardWalk s minRun = true ↔
        ∃ window, window <:+: s ∧ window.length = minRun ∧
          IsKeyboardWalk window)) ∧
      (minRun < 2 → hasKeyboardWalk s minRun = false) ∧
      hasKeyboardWalk s.reverse minRun = hasKeyboardWalk s minRun ∧
      ∀ t, lowered t = lowered s →
        hasKeyboardWalk t minRun = hasKeyboardWalk s minRun := by
  refine ⟨?_, ?_, hasKeyboardWalk_reverse s minRun, ?_⟩
  · intro hmin
    rw [hasKeyboardWalk_iff, hasRun_keyStep_iff hmin]
    exact and_iff_right hmin
  · intro hmin
    unfold hasKeyboardWalk
    rw [if_pos (Or.inl hmin)]
  · intro t ht
    exact hasKeyboardWalk_lowered ht minRun

end PwFilter
