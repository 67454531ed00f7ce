import JamSAT.UnitLogic
import Mathlib.Data.Finset.Card

/-!
# Search for a model

The literals that a search has made true can be extended to a model, or they cannot.
Unit propagation does not change this, a conflict decides it, and a branching splits it.
-/

namespace UnitLogic

variable {L : Type*} [InvolutiveNeg L] {Φ : Set (Finset L)} {A B : Set L} {l : L}

def Extendable (Φ : Set (Finset L)) (A : Set L) : Prop := ∃ σ : Valuation L, σ.Models Φ ∧ ∀ a ∈ A, σ.holds a

theorem extendable_empty : Extendable Φ ∅ ↔ ¬ Unsat Φ := by
  constructor
  · rintro ⟨σ, hσ, -⟩ hu
    exact hu σ hσ
  · intro hn
    by_contra he
    exact hn fun σ hσ => he ⟨σ, hσ, fun _ ha => ha.elim⟩

theorem Extendable.derives (h : Extendable Φ A) (hd : ∀ b ∈ B, Derives Φ A b) : Extendable Φ B := by
  obtain ⟨σ, hσ, hA⟩ := h
  exact ⟨σ, hσ, fun b hb => (hd b hb).holds hσ hA⟩

theorem extendable_propagate (hs : A ⊆ B) (hd : ∀ b ∈ B, Derives Φ A b) : Extendable Φ A ↔ Extendable Φ B :=
  ⟨fun h => h.derives hd, fun h => h.derives fun _ ha => .given (hs ha)⟩

theorem Conflict.not_extendable (h : Conflict Φ A) : ¬ Extendable Φ A := by
  rintro ⟨σ, hσ, hA⟩
  exact h.absurd hσ hA

/-- Without unit clauses, there is nothing to propagate. -/
theorem not_conflict_of_card [Inhabited L] (h : ∀ C ∈ Φ, 2 ≤ C.card) : ¬ Conflict Φ ∅ := by
  have hclosed : PropagationClosed Φ ∅ := by
    refine ⟨fun C hC l hl => ?_, fun _ hl => hl.elim⟩
    obtain ⟨x, hx, hne⟩ := Finset.exists_mem_ne (h C hC) l
    exact (hl x hx hne).elim
  exact hclosed.not_conflict (Set.empty_subset ∅)

theorem extendable_branch (l : L) : Extendable Φ A ↔ Extendable Φ (insert l A) ∨ Extendable Φ (insert (-l) A) := by
  constructor
  · rintro ⟨σ, hσ, hA⟩
    by_cases hl : σ.holds l
    · exact .inl ⟨σ, hσ, Set.forall_mem_insert.mpr ⟨hl, hA⟩⟩
    · exact .inr ⟨σ, hσ, Set.forall_mem_insert.mpr ⟨(σ.holds_neg l).mpr hl, hA⟩⟩
  · rintro (⟨σ, hσ, hA⟩ | ⟨σ, hσ, hA⟩)
    · exact ⟨σ, hσ, (Set.forall_mem_insert.mp hA).2⟩
    · exact ⟨σ, hσ, (Set.forall_mem_insert.mp hA).2⟩

end UnitLogic
