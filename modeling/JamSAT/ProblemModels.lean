import JamSAT.CNFProblem
import JamSAT.SolverData

/-!
# Models of listed clauses

What generators of problems add to a problem, as a condition on valuations.
-/

namespace JamSAT

open UnitLogic

variable {σ : Valuation CNFLit} {clauses clauses' : List CNFClause}

def AllHold (σ : Valuation CNFLit) (clauses : List CNFClause) : Prop := ∀ clause ∈ clauses, ∃ l ∈ clause, σ.holds l

theorem models_addedSets : σ.Models (addedSets clauses) ↔ AllHold σ clauses := by
  constructor
  · intro h clause hclause
    obtain ⟨l, hl, hσ⟩ := h _ ⟨clause, hclause, rfl⟩
    exact ⟨l, List.mem_toFinset.mp hl, hσ⟩
  · intro h C hC
    obtain ⟨clause, hclause, rfl⟩ := hC
    obtain ⟨l, hl, hσ⟩ := h clause hclause
    exact ⟨l, List.mem_toFinset.mpr hl, hσ⟩

@[simp] theorem allHold_nil : AllHold σ [] := List.forall_mem_nil _

@[simp] theorem allHold_cons {clause : CNFClause} :
    AllHold σ (clause :: clauses) ↔ (∃ l ∈ clause, σ.holds l) ∧ AllHold σ clauses := List.forall_mem_cons

theorem allHold_append : AllHold σ (clauses ++ clauses') ↔ AllHold σ clauses ∧ AllHold σ clauses' :=
  List.forall_mem_append

theorem allHold_map {α : Type} {f : α → CNFClause} {xs : List α} :
    AllHold σ (xs.map f) ↔ ∀ x ∈ xs, ∃ l ∈ f x, σ.holds l := List.forall_mem_map

theorem allHold_unit {l : CNFLit} : AllHold σ [[l]] ↔ σ.holds l := by simp

end JamSAT
