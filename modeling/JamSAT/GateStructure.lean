import JamSAT.CNFProblemSound
import JamSAT.FailedAssumptions
import JamSAT.ProblemModels
import Mathlib.Algebra.Group.Nat.Defs

/-!
# Gates as clauses

The integration tests build problems from gates. A valuation satisfies the clauses of a gate
if the output has the value of the gate; that of `insertXOR` is 1 if exactly one input is.
-/

namespace JamSAT

open UnitLogic

def insertAND (inputs : List CNFLit) (output : CNFLit) (target : CNFProblem) : CNFProblem :=
  inputs.foldl (fun target inputLit => target.addClause [inputLit, -output])
    (target.addClause (inputs.map (fun inputLit => -inputLit) ++ [output]))

def insertOR (inputs : List CNFLit) (output : CNFLit) (target : CNFProblem) : CNFProblem :=
  inputs.foldl (fun target inputLit => target.addClause [-inputLit, output])
    (target.addClause (inputs ++ [-output]))

/-- The clause about the inputs that are the bits of `i`. -/
def xorClause (inputs : List CNFLit) (output : CNFLit) (i : Nat) : CNFClause :=
  inputs.mapIdx (fun j inputLit => if i.testBit j then -inputLit else inputLit) ++
    [if i ≠ 0 ∧ i &&& (i - 1) = 0 then output else -output]

def insertXOR (inputs : List CNFLit) (output : CNFLit) (target : CNFProblem) : Option CNFProblem :=
  -- the number of the clauses is shifted as an `int`
  if inputs.length < 31 then
    some ((List.range (2 ^ inputs.length)).foldl
      (fun target i => target.addClause (xorClause inputs output i)) target)
  else none

variable {σ : Valuation CNFLit} {inputs : List CNFLit} {output : CNFLit} {target : CNFProblem}

theorem foldl_addClause_clauses {α : Type} (f : α → CNFClause) (xs : List α) (target : CNFProblem) :
    (xs.foldl (fun target x => target.addClause (f x)) target).clauses = target.clauses ++ xs.map f := by
  rw [← List.foldl_map, CNFProblem.foldl_addClause]

/-! ## And, or -/

theorem insertAND_sound : AllHold σ (insertAND inputs output target).clauses ↔
    AllHold σ target.clauses ∧ (σ.holds output ↔ ∀ l ∈ inputs, σ.holds l) := by
  have hfwd : (∃ l ∈ inputs.map (fun inputLit => -inputLit) ++ [output], σ.holds l) ↔
      ((∀ l ∈ inputs, σ.holds l) → σ.holds output) := by
    constructor
    · intro h hall
      obtain ⟨l, hl, hσ⟩ := h
      cases List.mem_append.mp hl with
      | inl hl =>
        obtain ⟨x, hx, rfl⟩ := List.mem_map.mp hl
        exact absurd (hall x hx) ((σ.holds_neg x).mp hσ)
      | inr hl => exact List.mem_singleton.mp hl ▸ hσ
    · intro h
      by_cases hall : ∀ l ∈ inputs, σ.holds l
      · exact ⟨output, List.mem_append_right _ (List.mem_singleton_self _), h hall⟩
      · simp only [not_forall] at hall
        obtain ⟨x, hx, hn⟩ := hall
        exact ⟨-x, List.mem_append_left _ (List.mem_map_of_mem hx), (σ.holds_neg x).mpr hn⟩
  have hbwd : (∀ x ∈ inputs, ∃ l ∈ [x, -output], σ.holds l) ↔ (σ.holds output → ∀ l ∈ inputs, σ.holds l) := by
    simp only [List.exists_mem_cons_iff, List.not_mem_nil, false_and, exists_false, or_false, σ.holds_neg]
    constructor
    · exact fun h ho l hl => (h l hl).resolve_right (not_not.mpr ho)
    · exact fun h x hx => or_not_of_imp fun ho => h ho x hx
  unfold insertAND
  rw [foldl_addClause_clauses, CNFProblem.addClause, allHold_append, allHold_append, allHold_map, hbwd,
    allHold_cons, hfwd]
  constructor
  · intro h
    obtain ⟨⟨htarget, hfwd, -⟩, hbwd⟩ := h
    exact ⟨htarget, hbwd, hfwd⟩
  · intro h
    obtain ⟨htarget, hbwd, hfwd⟩ := h
    exact ⟨⟨htarget, hfwd, allHold_nil⟩, hbwd⟩

theorem insertOR_eq : insertOR inputs output target =
    insertAND (inputs.map fun inputLit => -inputLit) (-output) target := by
  unfold insertOR insertAND
  simp [List.foldl_map]

theorem insertOR_sound : AllHold σ (insertOR inputs output target).clauses ↔
    AllHold σ target.clauses ∧ (σ.holds output ↔ ∃ l ∈ inputs, σ.holds l) := by
  rw [insertOR_eq, insertAND_sound, List.forall_mem_map, σ.holds_neg]
  simp only [σ.holds_neg]
  rw [← not_iff_not (a := σ.holds output)]
  simp

/-! ## Exactly one -/

/-- A power of two has one bit. -/
theorem isPowerOfTwo_ofBits {n : Nat} (f : Fin n → Bool) :
    (Nat.ofBits f).isPowerOfTwo ↔ ∃! j, f j = true := by
  have hbit : ∀ j : Fin n, (Nat.ofBits f).testBit j = f j := fun j => Nat.testBit_ofBits_lt f j j.isLt
  constructor
  · intro h
    obtain ⟨k, hk⟩ := h
    have hlt : k < n := (Nat.pow_lt_pow_iff_right Nat.one_lt_two).mp (hk ▸ Nat.ofBits_lt_two_pow f)
    refine ⟨⟨k, hlt⟩, ?_, fun j (hj : f j = true) => ?_⟩
    · dsimp only
      rw [← hbit, hk, Nat.testBit_two_pow_self]
    · rw [← hbit, hk, Nat.testBit_two_pow] at hj
      exact Fin.ext (of_decide_eq_true hj).symm
  · intro h
    obtain ⟨k, hk, hunique⟩ := h
    refine ⟨k, Nat.eq_of_testBit_eq fun j => ?_⟩
    rw [Nat.testBit_two_pow]
    by_cases hj : j < n
    · rw [Nat.testBit_ofBits_lt f j hj, Bool.eq_iff_iff, decide_eq_true_iff]
      constructor
      · exact fun h => (congrArg Fin.val (hunique ⟨j, hj⟩ h)).symm
      · intro h
        obtain rfl := h
        exact hk
    · rw [Nat.testBit_ofBits_ge f j (Nat.le_of_not_lt hj), eq_comm, decide_eq_false_iff_not]
      exact fun h => hj (h ▸ k.isLt)

open Classical in
noncomputable def inputBits (σ : Valuation CNFLit) (inputs : List CNFLit) : Nat :=
  Nat.ofBits fun j : Fin inputs.length => decide (σ.holds (inputs.get j))

open Classical in
theorem testBit_inputBits {j : Nat} (hj : j < inputs.length) :
    (inputBits σ inputs).testBit j = true ↔ σ.holds (inputs.get ⟨j, hj⟩) := by
  unfold inputBits
  rw [Nat.testBit_ofBits_lt _ j hj, decide_eq_true_iff]

theorem isPowerOfTwo_inputBits :
    (inputBits σ inputs).isPowerOfTwo ↔ ∃! j : Fin inputs.length, σ.holds (inputs.get j) := by
  unfold inputBits
  rw [isPowerOfTwo_ofBits]
  simp only [decide_eq_true_iff]

/-- Of the clauses, only one leaves the output a choice. -/
theorem xorClause_holds {i : Nat} (hi : i < 2 ^ inputs.length) :
    (∃ l ∈ xorClause inputs output i, σ.holds l) ↔
      (i = inputBits σ inputs → (σ.holds output ↔ i.isPowerOfTwo)) := by
  have hinputs : (∃ l ∈ inputs.mapIdx fun j inputLit => if i.testBit j then -inputLit else inputLit, σ.holds l) ↔
      i ≠ inputBits σ inputs := by
    constructor
    · intro h he
      obtain ⟨l, hl, hσ⟩ := h
      obtain ⟨j, hj, rfl⟩ := List.mem_mapIdx.mp hl
      by_cases hj' : σ.holds (inputs.get ⟨j, hj⟩)
      · rw [if_pos (he ▸ (testBit_inputBits hj).mpr hj'), σ.holds_neg] at hσ
        exact hσ hj'
      · rw [if_neg (he ▸ mt (testBit_inputBits hj).mp hj')] at hσ
        exact hj' hσ
    · intro hne
      by_contra hnone
      refine hne (Nat.eq_of_testBit_eq fun j => ?_)
      by_cases hj : j < inputs.length
      · have hfalse : ¬ σ.holds (if i.testBit j then -inputs.get ⟨j, hj⟩ else inputs.get ⟨j, hj⟩) :=
          fun hσ => hnone ⟨_, List.mem_mapIdx.mpr ⟨j, hj, rfl⟩, hσ⟩
        rw [Bool.eq_iff_iff, testBit_inputBits hj]
        cases hbit : i.testBit j with
        | true =>
          rw [hbit, if_pos rfl, σ.holds_neg, not_not] at hfalse
          exact iff_of_true rfl hfalse
        | false =>
          rw [hbit, if_neg Bool.false_ne_true] at hfalse
          exact iff_of_false Bool.false_ne_true hfalse
      · have hle := Nat.le_of_not_lt hj
        rw [Nat.testBit_lt_two_pow (hi.trans_le (Nat.pow_le_pow_right Nat.two_pos hle)), inputBits,
          Nat.testBit_ofBits_ge _ _ hle]
  have houtput : σ.holds (if i ≠ 0 ∧ i &&& (i - 1) = 0 then output else -output) ↔
      (σ.holds output ↔ i.isPowerOfTwo) := by
    rw [← Nat.ne_zero_and_sub_one_eq_zero_iff_isPowerOfTwo]
    by_cases h : i ≠ 0 ∧ i &&& (i - 1) = 0
    · rw [if_pos h]
      exact (iff_true_right h).symm
    · rw [if_neg h, σ.holds_neg]
      exact (iff_false_right h).symm
  unfold xorClause
  simp only [List.mem_append, or_and_right, exists_or, hinputs, List.mem_singleton, exists_eq_left, houtput]
  exact imp_iff_not_or.symm

/-- The clauses say that the output is 1 if exactly one input is. -/
theorem insertXOR_sound (hlength : inputs.length < 31) : ∃ r, insertXOR inputs output target = some r ∧
    ∀ σ : Valuation CNFLit, AllHold σ r.clauses ↔
      AllHold σ target.clauses ∧ (σ.holds output ↔ ∃! j : Fin inputs.length, σ.holds (inputs.get j)) := by
  refine ⟨_, if_pos hlength, fun σ => ?_⟩
  rw [foldl_addClause_clauses, allHold_append, allHold_map, ← isPowerOfTwo_inputBits]
  refine and_congr_right fun _ => ⟨fun h => ?_, fun h i hi => ?_⟩
  · have hlt : inputBits σ inputs < 2 ^ inputs.length := Nat.ofBits_lt_two_pow _
    exact (xorClause_holds hlt).mp (h _ (List.mem_range.mpr hlt)) rfl
  · exact (xorClause_holds (List.mem_range.mp hi)).mpr fun he => he ▸ h

def threeInputs : List CNFLit := [⟨0, .positive⟩, ⟨1, .positive⟩, ⟨2, .positive⟩]

/-- Unlike a parity, the output is 0 for three inputs that are 1. -/
theorem insertXOR_three : ∃ r, insertXOR threeInputs ⟨3, .positive⟩ .new = some r ∧
    ∃ σ : Valuation CNFLit, AllHold σ r.clauses ∧ (∀ l ∈ threeInputs, σ.holds l) ∧ ¬σ.holds ⟨3, .positive⟩ := by
  have hlength : threeInputs.length < 31 := by decide
  obtain ⟨r, hr, hiff⟩ := @insertXOR_sound threeInputs ⟨3, .positive⟩ .new hlength
  obtain ⟨σ, hσ⟩ : ∃ σ : Valuation CNFLit, σ = valuationOfSigns fun v => if v = 3 then .negative else .positive :=
    ⟨_, rfl⟩
  have hthree : ¬σ.holds ⟨3, .positive⟩ := by
    rw [hσ]
    exact CNFSign.noConfusion
  have htwo : ¬∃! j : Fin threeInputs.length, σ.holds (threeInputs.get j) := by
    intro h
    obtain ⟨j, -, hunique⟩ := h
    rw [hσ] at hunique
    have hfirst := hunique ⟨0, by decide⟩ rfl
    have hsecond := hunique ⟨1, by decide⟩ rfl
    exact absurd (hfirst.trans hsecond.symm) (by decide)
  refine ⟨r, hr, σ, (hiff σ).mpr ⟨allHold_nil, iff_of_false hthree htwo⟩, ?_, hthree⟩
  rw [hσ]
  unfold threeInputs
  exact List.forall_mem_cons.mpr ⟨rfl, List.forall_mem_cons.mpr ⟨rfl, List.forall_mem_singleton.mpr rfl⟩⟩

end JamSAT
