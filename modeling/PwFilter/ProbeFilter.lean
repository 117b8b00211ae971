import Mathlib.Data.Set.Lattice
import Mathlib.Tactic

/-!
# Filters that mark probe positions

An item is inserted by marking its probe positions and is reported when all of
them are marked.  Nothing here depends on how positions are computed or
stored.
-/

namespace ProbeFilter

variable {δ ι : Type*}

def marked (probes : δ → Set ι) (inserted : Set δ) : Set ι :=
  {j | ∃ d ∈ inserted, j ∈ probes d}

theorem mem_marked_cons (probes : δ → Set ι) (d : δ) (ds : List δ) (j : ι) :
    j ∈ marked probes {e | e ∈ d :: ds} ↔
      j ∈ probes d ∨ j ∈ marked probes {e | e ∈ ds} := by
  constructor
  · intro h
    obtain ⟨e, he, hj⟩ := h
    rcases List.mem_cons.mp he with rfl | hmem
    · exact Or.inl hj
    · exact Or.inr ⟨e, hmem, hj⟩
  · intro h
    rcases h with hj | ⟨e, he, hj⟩
    · exact ⟨d, List.mem_cons_self, hj⟩
    · exact ⟨e, List.mem_cons_of_mem d he, hj⟩

theorem marked_union (probes : δ → Set ι) (inserted more : Set δ) :
    marked probes (inserted ∪ more) =
      marked probes inserted ∪ marked probes more := by
  ext j
  constructor
  · intro h
    obtain ⟨d, hd, hj⟩ := h
    rcases hd with hold | hnew
    · exact Or.inl ⟨d, hold, hj⟩
    · exact Or.inr ⟨d, hnew, hj⟩
  · intro h
    rcases h with ⟨d, hd, hj⟩ | ⟨d, hd, hj⟩
    · exact ⟨d, Or.inl hd, hj⟩
    · exact ⟨d, Or.inr hd, hj⟩

def Reports (probes : δ → Set ι) (inserted : Set δ) (q : δ) : Prop :=
  probes q ⊆ marked probes inserted

theorem reports_of_mem
    (probes : δ → Set ι) {inserted : Set δ} {q : δ} (hq : q ∈ inserted) :
    Reports probes inserted q :=
  fun _ hj => ⟨q, hq, hj⟩

theorem Reports.mono
    {probes : δ → Set ι} {fewer more : Set δ} {q : δ}
    (hsub : fewer ⊆ more) (hq : Reports probes fewer q) :
    Reports probes more q := by
  intro j hj
  obtain ⟨d, hd, hmark⟩ := hq hj
  exact ⟨d, hsub hd, hmark⟩

end ProbeFilter
