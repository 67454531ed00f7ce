import JamSAT.FailedAssumptions
import JamSAT.ProblemDelivery

/-!
# Literals as numbers

The interface and the problem files count variables from 1 and write a negative
literal as a negative number. The meaning of such clauses, and that it is kept by
the conversion to the solver's literals.
-/

namespace JamSAT

namespace Ipasir

open UnitLogic

def IsLit (lit : Int) : Prop := lit ≠ 0 ∧ lit.natAbs ≤ CNFVar.undefinedVariable

instance (lit : Int) : Decidable (IsLit lit) := inferInstanceAs (Decidable (_ ∧ _))

def ofInt (lit : Int) : CNFLit := ⟨lit.natAbs - 1, if 0 < lit then .positive else .negative⟩

def Holds (σ : Nat → Bool) (lit : Int) : Prop := σ lit.natAbs = decide (0 < lit)

instance (σ : Nat → Bool) (lit : Int) : Decidable (Holds σ lit) := inferInstanceAs (Decidable (_ = _))

theorem holds_neg_iff {σ : Nat → Bool} {lit : Int} (h : lit ≠ 0) : Holds σ (-lit) ↔ ¬ Holds σ lit := by
  have hsign : decide (0 < -lit) = !decide (0 < lit) := by
    by_cases hl : 0 < lit
    · rw [decide_eq_true hl, decide_eq_false (by omega)]
      rfl
    · rw [decide_eq_false hl, decide_eq_true (by omega)]
      rfl
  unfold Holds
  rw [Int.natAbs_neg, hsign]
  cases σ lit.natAbs <;> cases decide (0 < lit) <;> decide

def Models (σ : Nat → Bool) (clauses : List (List Int)) : Prop := ∀ clause ∈ clauses, ∃ lit ∈ clause, Holds σ lit

variable {lit lit' : Int} {σ : Nat → Bool} {clauses : List (List Int)} {assumptions : List Int}

/-! ## The conversion -/

theorem IsLit.neg (h : IsLit lit) : IsLit (-lit) := ⟨Int.neg_ne_zero.mpr h.1, (Int.natAbs_neg lit).trans_le h.2⟩

theorem IsLit.var_lt (h : IsLit lit) : (ofInt lit).var < CNFVar.undefinedVariable := by
  obtain ⟨hne, hle⟩ := h
  have hpos := Int.natAbs_pos.mpr hne
  show lit.natAbs - 1 < _
  omega

theorem ipasirLitToCNFLit_of_isLit (h : IsLit lit) : ipasirLitToCNFLit lit = some (ofInt lit) := by
  have hund : CNFVar.undefinedVariable = 1073741823 := rfl
  have hsize : uint32Size = 4294967296 := rfl
  have hmax : TextStream.intMax = 2147483647 := rfl
  have hvar : lit.natAbs - 1 < CNFVar.undefinedVariable := h.var_lt
  have hmin : lit ≠ -(TextStream.intMax + 1 : Nat) := by
    have := h.2
    omega
  unfold ipasirLitToCNFLit abs
  rw [if_neg hmin]
  apply packLit_eq (Nat.ne_of_lt hvar)
  have : (if 0 < lit then CNFSign.positive else CNFSign.negative).rawValue ≤ 1 := by
    split <;> decide
  omega

theorem ofInt_neg (h : lit ≠ 0) : ofInt (-lit) = -ofInt lit := by
  show CNFLit.mk ((-lit).natAbs - 1) _ = CNFLit.mk (lit.natAbs - 1) (if 0 < lit then _ else _ : CNFSign).invert
  rw [Int.natAbs_neg]
  congr 1
  by_cases hpos : 0 < lit
  · rw [if_pos hpos, if_neg (by omega)]
    rfl
  · rw [if_neg hpos, if_pos (by omega)]
    rfl

theorem ofInt_inj (h : lit ≠ 0) (h' : lit' ≠ 0) : ofInt lit = ofInt lit' ↔ lit = lit' := by
  constructor
  · intro he
    obtain ⟨hv, hs⟩ := CNFLit.mk.inj he
    have hpos : 0 < lit ↔ 0 < lit' := by
      split at hs <;> split at hs
      · exact iff_of_true ‹_› ‹_›
      · cases hs
      · cases hs
      · exact iff_of_false ‹_› ‹_›
    omega
  · rintro rfl
    rfl

theorem mem_map_ofInt {lits : List Int} (h : lit ≠ 0) (hl : ∀ x ∈ lits, x ≠ 0) :
    ofInt lit ∈ lits.map ofInt ↔ lit ∈ lits := by
  constructor
  · intro hm
    obtain ⟨x, hx, he⟩ := List.mem_map.mp hm
    rwa [← (ofInt_inj (hl x hx) h).mp he]
  · exact fun hm => List.mem_map_of_mem hm

/-! ## The meaning -/

def valuation (σ : Nat → Bool) : Valuation CNFLit :=
  valuationOfSigns fun v => if σ (v + 1) then .positive else .negative

theorem holds_valuation (h : lit ≠ 0) : (valuation σ).holds (ofInt lit) ↔ Holds σ lit := by
  have hpos := Int.natAbs_pos.mpr h
  show (if 0 < lit then CNFSign.positive else CNFSign.negative) =
    (if σ (lit.natAbs - 1 + 1) then CNFSign.positive else CNFSign.negative) ↔ σ lit.natAbs = decide (0 < lit)
  rw [Nat.sub_add_cancel hpos]
  by_cases hl : 0 < lit <;> cases σ lit.natAbs <;> simp [hl]

open Classical in
noncomputable def ofValuation (τ : Valuation CNFLit) : Nat → Bool := fun n => decide (τ.holds ⟨n - 1, .positive⟩)

theorem holds_ofValuation (τ : Valuation CNFLit) (lit : Int) : Holds (ofValuation τ) lit ↔ τ.holds (ofInt lit) := by
  unfold Holds ofValuation ofInt
  by_cases hl : 0 < lit
  · simp [hl]
  · have hneg : (⟨lit.natAbs - 1, .negative⟩ : CNFLit) = -⟨lit.natAbs - 1, .positive⟩ := rfl
    simp [hl, hneg, τ.holds_neg]

theorem models_addedSets {τ : Valuation CNFLit} : τ.Models (addedSets (clauses.map (List.map ofInt))) ↔
    ∀ clause ∈ clauses, ∃ lit ∈ clause, τ.holds (ofInt lit) := by
  constructor
  · intro h clause hc
    obtain ⟨l, hl, hτ⟩ := h (clause.map ofInt).toFinset ⟨_, List.mem_map_of_mem hc, rfl⟩
    obtain ⟨lit, hlit, rfl⟩ := List.mem_map.mp (List.mem_toFinset.mp hl)
    exact ⟨lit, hlit, hτ⟩
  · rintro h _ ⟨_, hmem, rfl⟩
    obtain ⟨clause, hc, rfl⟩ := List.mem_map.mp hmem
    obtain ⟨lit, hlit, hτ⟩ := h clause hc
    exact ⟨ofInt lit, List.mem_toFinset.mpr (List.mem_map_of_mem hlit), hτ⟩

/-- The conversion keeps satisfiability under assumptions. -/
theorem unsat_iff (hc : ∀ clause ∈ clauses, ∀ lit ∈ clause, lit ≠ 0) (ha : ∀ lit ∈ assumptions, lit ≠ 0) :
    Unsat (addedSets (clauses.map (List.map ofInt)) ∪ units {l | l ∈ assumptions.map ofInt}) ↔
      ∀ σ, Models σ clauses → ∃ lit ∈ assumptions, ¬ Holds σ lit := by
  constructor
  · intro h σ hσ
    by_contra hn
    push Not at hn
    refine h (valuation σ) (models_union.mpr ⟨models_addedSets.mpr ?_, models_units.mpr ?_⟩)
    · intro clause hclause
      obtain ⟨lit, hlit, hh⟩ := hσ clause hclause
      exact ⟨lit, hlit, (holds_valuation (hc clause hclause lit hlit)).mpr hh⟩
    · intro l hl
      obtain ⟨lit, hlit, rfl⟩ := List.mem_map.mp hl
      exact (holds_valuation (ha lit hlit)).mpr (hn lit hlit)
  · intro h τ hτ
    obtain ⟨hΦ, hunits⟩ := models_union.mp hτ
    obtain ⟨lit, hlit, hn⟩ := h (ofValuation τ) fun clause hclause => by
      obtain ⟨lit, hlit, hh⟩ := models_addedSets.mp hΦ clause hclause
      exact ⟨lit, hlit, (holds_ofValuation τ lit).mpr hh⟩
    exact hn ((holds_ofValuation τ lit).mpr (models_units.mp hunits _ (List.mem_map_of_mem hlit)))

end Ipasir

end JamSAT
