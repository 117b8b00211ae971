import Mathlib.Data.List.TakeDrop
import Mathlib.Tactic

/-!
# Folding over whole blocks

A block function is applied to one block of `n` elements after the other; what
does not fill a block is left over.  Feeding a sequence in pieces gives the
same state as feeding it at once, when each piece is put after what the pieces
before it left over.
-/

namespace BlockFold

variable {σ α : Type*} (n : ℕ) (process : σ → List α → σ)

/-- Process whole blocks from the front; also returns what is left over. -/
def absorb (state : σ) (data : List α) : σ × List α :=
  if 0 < n ∧ n ≤ data.length then
    absorb (process state (data.take n)) (data.drop n)
  else (state, data)
termination_by data.length
decreasing_by
  rw [List.length_drop]
  omega

theorem absorb_of_lt
    {data : List α} (state : σ) (hshort : data.length < n) :
    absorb n process state data = (state, data) := by
  rw [absorb, if_neg (by omega)]

theorem absorb_of_le
    {data : List α} (state : σ) (hn : 0 < n) (hlong : n ≤ data.length) :
    absorb n process state data =
      absorb n process (process state (data.take n)) (data.drop n) := by
  rw [absorb, if_pos ⟨hn, hlong⟩]

theorem absorb_block
    {block : List α} (state : σ) (rest : List α) (hn : 0 < n)
    (hblock : block.length = n) :
    absorb n process state (block ++ rest) =
      absorb n process (process state block) rest := by
  have hlong : n ≤ (block ++ rest).length := by
    rw [List.length_append]
    omega
  rw [absorb_of_le n process state hn hlong, ← hblock, List.take_left,
    List.drop_left]

theorem absorb_rest_length
    (hn : 0 < n) (state : σ) (data : List α) :
    (absorb n process state data).2.length = data.length % n := by
  induction hlength : data.length using Nat.strongRecOn
    generalizing state data with
  | ind length ih =>
      by_cases hshort : data.length < n
      · rw [absorb_of_lt n process state hshort, Nat.mod_eq_of_lt (by omega)]
        exact hlength
      · have hdrop : (data.drop n).length = length - n := by
          rw [List.length_drop, hlength]
        rw [absorb_of_le n process state hn (by omega),
          ih (length - n) (by omega) _ _ hdrop]
        exact (Nat.mod_eq_sub_mod (by omega)).symm

theorem absorb_append
    (hn : 0 < n) (state : σ) (front back : List α) :
    absorb n process state (front ++ back) =
      absorb n process (absorb n process state front).1
        ((absorb n process state front).2 ++ back) := by
  induction hlength : front.length using Nat.strongRecOn
    generalizing state front with
  | ind length ih =>
      by_cases hshort : front.length < n
      · rw [absorb_of_lt n process state hshort]
      · have hblock : (front.take n).length = n := by
          rw [List.length_take]
          omega
        have hdrop : (front.drop n).length = length - n := by
          rw [List.length_drop, hlength]
        have hsplit : front ++ back =
            front.take n ++ (front.drop n ++ back) := by
          rw [← List.append_assoc, List.take_append_drop]
        have hfront := absorb_of_le n process state hn
          (Nat.le_of_not_lt hshort)
        rw [hsplit, absorb_block n process state _ hn hblock, hfront,
          ih (length - n) (by omega) _ _ hdrop]

end BlockFold
