import JamSAT.CNFProblemSound
import JamSAT.FailedAssumptions
import JamSAT.FallibleState
import JamSAT.ModelCheck
import JamSAT.ProblemModels
import JamSAT.Rule110

/-!
# What the encoding of Rule 110 says

The models of the encoding are the runs of the automaton from a state that fits the
source to one that fits the target.
-/

namespace JamSAT

open UnitLogic FallibleState

/-! ## The automaton -/

namespace Rule110

def rule : Bool → Bool → Bool → Bool
  | true, true, true => false
  | true, true, false => true
  | true, false, true => true
  | true, false, false => false
  | false, true, true => true
  | false, true, false => true
  | false, false, true => true
  | false, false, false => false

def successor (width : Nat) (cells : Nat → Bool) (i : Nat) : Bool :=
  rule (decide (0 < i) && cells (i - 1)) (cells i) (decide (i + 1 < width) && cells (i + 1))

def Matches (spec : List Char) (cells : Nat → Bool) : Prop :=
  ∀ i cell, spec[i]? = some cell → cell ≠ 'x' → cells i = decide (cell = '1')

variable {width : Nat} {spec : List Char} {cells cells' : Nat → Bool}

theorem successor_congr (h : ∀ i < width, cells i = cells' i) {i : Nat} (hi : i < width) :
    successor width cells i = successor width cells' i := by
  unfold successor
  rw [h i hi, h (i - 1) (by omega)]
  by_cases hr : i + 1 < width
  · rw [h (i + 1) hr]
  · rw [decide_eq_false hr, Bool.false_and, Bool.false_and]

theorem Matches.congr (h : Matches spec cells) (he : ∀ i < spec.length, cells i = cells' i) :
    Matches spec cells' := by
  intro i cell hi hx
  obtain ⟨hlt, -⟩ := List.getElem?_eq_some_iff.mp hi
  exact (he i hlt).symm.trans (h i cell hi hx)

theorem matches_iff : Matches spec cells ↔
    ∀ i : Fin spec.length, spec.get i ≠ 'x' → cells i = decide (spec.get i = '1') := by
  constructor
  · exact fun h i hx => h i _ (List.getElem?_eq_getElem i.isLt) hx
  · intro h i cell hi hx
    obtain ⟨hlt, rfl⟩ := List.getElem?_eq_some_iff.mp hi
    exact h ⟨i, hlt⟩ hx

instance : Decidable (Matches spec cells) := decidable_of_iff _ matches_iff.symm

/-- States that follow each other up to the last one. -/
theorem eq_iterate {states : Nat → Nat → Bool} {last : Nat} (h₀ : ∀ i < width, states 0 i = cells i)
    (h : ∀ k < last, ∀ i < width, states (k + 1) i = successor width (states k) i) :
    ∀ k ≤ last, ∀ i < width, states k i = (successor width)^[k] cells i := by
  intro k
  induction k with
  | zero => exact fun _ => h₀
  | succ k ih =>
    intro hk i hi
    rw [h k hk i hi, Function.iterate_succ_apply']
    exact successor_congr (ih (Nat.le_of_succ_le hk)) hi

end Rule110

/-! ## The clauses of a cell -/

namespace Rule110PredecessorStateProblem

open Rule110

section

variable {σ : Valuation CNFLit}

variable {left mid right futureMid : CNFLit} {l m r f : Bool}

theorem allHold_nonBorder (hl : σ.holds left ↔ l = false) (hm : σ.holds mid ↔ m = false)
    (hr : σ.holds right ↔ r = false) (hf : σ.holds futureMid ↔ f = true) :
    AllHold σ (nonBorderConstraints left mid right futureMid) ↔ f = rule l m r := by
  cases l <;> cases m <;> cases r <;> cases f <;> simp [nonBorderConstraints, rule, σ.holds_neg, hl, hm, hr, hf]

theorem allHold_leftBorder (hm : σ.holds mid ↔ m = false) (hr : σ.holds right ↔ r = false)
    (hf : σ.holds futureMid ↔ f = true) :
    AllHold σ (leftBorderConstraints mid right futureMid) ↔ f = rule false m r := by
  cases m <;> cases r <;> cases f <;> simp [leftBorderConstraints, rule, σ.holds_neg, hm, hr, hf]

theorem allHold_rightBorder (hl : σ.holds left ↔ l = false) (hm : σ.holds mid ↔ m = false)
    (hf : σ.holds futureMid ↔ f = true) :
    AllHold σ (rightBorderConstraints left mid futureMid) ↔ f = rule l m false := by
  cases l <;> cases m <;> cases f <;> simp [rightBorderConstraints, rule, σ.holds_neg, hl, hm, hf]

end

/-! ## The value of a cell -/

section

variable {σ : Valuation CNFLit} {width step i : Nat}

open Classical in
noncomputable def valueAt (σ : Valuation CNFLit) (width step i : Nat) : Bool :=
  decide (σ.holds ⟨step * width + i, .positive⟩)

open Classical in
theorem holds_positive : σ.holds ⟨step * width + i, .positive⟩ ↔ valueAt σ width step i = true :=
  decide_eq_true_iff.symm

theorem holds_negative : σ.holds ⟨step * width + i, .negative⟩ ↔ valueAt σ width step i = false := by
  rw [← Bool.not_eq_true, ← holds_positive]
  exact σ.holds_neg ⟨step * width + i, .positive⟩

theorem holds_signOf {cell : Char} :
    σ.holds ⟨step * width + i, signOf cell⟩ ↔ valueAt σ width step i = decide (cell = '1') := by
  unfold signOf
  by_cases h : cell = '1'
  · rw [if_pos h, decide_eq_true h]
    exact holds_positive
  · rw [if_neg h, decide_eq_false h]
    exact holds_negative

theorem allHold_signOf {cell : Char} (hx : cell ≠ 'x') :
    AllHold σ [[⟨step * width + i, signOf cell⟩]] ↔
      ∀ c, some cell = some c → c ≠ 'x' → valueAt σ width step i = decide (c = '1') := by
  rw [allHold_unit, holds_signOf]
  constructor
  · intro h c he _
    exact Option.some.inj he ▸ h
  · exact fun h => h cell rfl hx

end

/-! ## What a cell is constrained to -/

/-- The texts are as long as the automaton is wide, and the variables are regular. The only cell of
an automaton would be asked for its right neighbour. -/
structure Encodable (p : Rule110PredecessorStateProblem) : Prop where
  source : p.m_sourceStateSpec.length = p.m_automatonWidth
  target : p.m_targetStateSpec.length = p.m_automatonWidth
  two_le : 2 ≤ p.m_automatonWidth
  small : (p.m_numberOfIntermediateSteps + 2) * p.m_automatonWidth ≤ CNFVar.undefinedVariable

variable {p : Rule110PredecessorStateProblem} {step cellIndex : Nat}

theorem Encodable.lt_uint32Size (hp : Encodable p) : p.m_numberOfIntermediateSteps + 2 < uint32Size := by
  have hle := Nat.le_mul_of_pos_right (p.m_numberOfIntermediateSteps + 2) (Nat.zero_lt_of_lt hp.two_le)
  have hlt : CNFVar.undefinedVariable < uint32Size := by decide
  exact (hle.trans hp.small).trans_lt hlt

theorem Encodable.numberOfStates_eq (hp : Encodable p) :
    p.numberOfStates = p.m_numberOfIntermediateSteps + 2 := Nat.mod_eq_of_lt hp.lt_uint32Size

theorem Encodable.cellLit_eq (hp : Encodable p) (hc : cellIndex < p.m_automatonWidth)
    (hs : step < p.m_numberOfIntermediateSteps + 2) (sign : CNFSign) :
    p.cellLit step cellIndex sign = some ⟨step * p.m_automatonWidth + cellIndex, sign⟩ := by
  have hlt : step * p.m_automatonWidth + cellIndex < CNFVar.undefinedVariable :=
    calc step * p.m_automatonWidth + cellIndex
      _ < step * p.m_automatonWidth + p.m_automatonWidth := Nat.add_lt_add_left hc _
      _ = (step + 1) * p.m_automatonWidth := (Nat.succ_mul _ _).symm
      _ ≤ (p.m_numberOfIntermediateSteps + 2) * p.m_automatonWidth := Nat.mul_le_mul_right _ hs
      _ ≤ CNFVar.undefinedVariable := hp.small
  have hsize : CNFVar.undefinedVariable < uint32Size := by decide
  unfold cellLit getCellVariable
  rw [if_pos ⟨hc, hp.numberOfStates_eq ▸ hs⟩, Option.bind_some, Nat.mod_eq_of_lt (hlt.trans hsize),
    if_neg hlt.ne]

def Consistent (p : Rule110PredecessorStateProblem) (σ : Valuation CNFLit) (step cellIndex : Nat) : Prop :=
  (step = 0 → ∀ cell, p.m_sourceStateSpec[cellIndex]? = some cell → cell ≠ 'x' →
    valueAt σ p.m_automatonWidth step cellIndex = decide (cell = '1')) ∧
  (step = p.m_numberOfIntermediateSteps + 1 → ∀ cell, p.m_targetStateSpec[cellIndex]? = some cell → cell ≠ 'x' →
    valueAt σ p.m_automatonWidth step cellIndex = decide (cell = '1')) ∧
  (step ≠ 0 → valueAt σ p.m_automatonWidth step cellIndex =
    successor p.m_automatonWidth (valueAt σ p.m_automatonWidth (step - 1)) cellIndex)

def openInput (p : Rule110PredecessorStateProblem) (step cellIndex : Nat) : List CNFLit :=
  if step = 0 ∧ p.m_sourceStateSpec[cellIndex]? = some 'x' then [⟨cellIndex, .positive⟩] else []

theorem Encodable.transition_spec (hp : Encodable p) (hc : cellIndex < p.m_automatonWidth)
    (hs : step + 1 < p.m_numberOfIntermediateSteps + 2) :
    ∃ clauses, p.transitionConstraints (step + 1) cellIndex = some clauses ∧ ∀ σ, AllHold σ clauses ↔
      valueAt σ p.m_automatonWidth (step + 1) cellIndex =
        successor p.m_automatonWidth (valueAt σ p.m_automatonWidth step) cellIndex := by
  have hlast := Nat.lt_of_succ_lt hs
  have hwidth := hp.two_le
  have hmid := hp.cellLit_eq hc hlast .negative
  have hfuture := hp.cellLit_eq hc hs .positive
  unfold transitionConstraints successor
  rw [Nat.add_sub_cancel, hmid, hfuture]
  dsimp only [Option.bind_eq_bind, Option.bind_some]
  by_cases hinner : 0 < cellIndex ∧ cellIndex < p.m_automatonWidth - 1
  · have hleft : cellIndex - 1 < p.m_automatonWidth := by omega
    have hright : cellIndex + 1 < p.m_automatonWidth := by omega
    rw [if_pos hinner, hp.cellLit_eq hleft hlast, hp.cellLit_eq hright hlast, decide_eq_true hinner.1,
      decide_eq_true hright]
    refine ⟨_, rfl, fun σ => ?_⟩
    rw [Bool.true_and, Bool.true_and]
    exact allHold_nonBorder holds_negative holds_negative holds_negative holds_positive
  · rw [if_neg hinner]
    by_cases hzero : cellIndex = 0
    · have hright : cellIndex + 1 < p.m_automatonWidth := by omega
      rw [if_pos hzero, hp.cellLit_eq hright hlast, decide_eq_false (by omega), decide_eq_true hright]
      refine ⟨_, rfl, fun σ => ?_⟩
      rw [Bool.false_and, Bool.true_and]
      exact allHold_leftBorder holds_negative holds_negative holds_positive
    · have hleft : cellIndex - 1 < p.m_automatonWidth := by omega
      rw [if_neg hzero, hp.cellLit_eq hleft hlast, decide_eq_true (by omega), decide_eq_false (by omega)]
      refine ⟨_, rfl, fun σ => ?_⟩
      rw [Bool.false_and, Bool.true_and]
      exact allHold_rightBorder holds_negative holds_negative holds_positive

theorem Encodable.target_spec (hp : Encodable p) (hc : cellIndex < p.m_automatonWidth)
    (hs : step < p.m_numberOfIntermediateSteps + 2) :
    ∃ clauses, p.targetConstraints step cellIndex = some clauses ∧ ∀ σ, AllHold σ clauses ↔
      (step = p.m_numberOfIntermediateSteps + 1 → ∀ cell, p.m_targetStateSpec[cellIndex]? = some cell →
        cell ≠ 'x' → valueAt σ p.m_automatonWidth step cellIndex = decide (cell = '1')) := by
  have hmod : (p.m_numberOfIntermediateSteps + 1) % uint32Size = p.m_numberOfIntermediateSteps + 1 :=
    Nat.mod_eq_of_lt (Nat.lt_of_succ_lt hp.lt_uint32Size)
  unfold targetConstraints
  rw [hmod]
  by_cases hlast : step = p.m_numberOfIntermediateSteps + 1
  · obtain ⟨cell, hcell⟩ : ∃ cell, p.m_targetStateSpec[cellIndex]? = some cell :=
      ⟨_, List.getElem?_eq_getElem (hp.target ▸ hc)⟩
    rw [if_pos hlast, hcell]
    dsimp only [Option.bind_eq_bind, Option.bind_some]
    rw [hp.cellLit_eq hc hs]
    by_cases hx : cell = 'x'
    · refine ⟨[], if_pos hx, fun σ => iff_of_true allHold_nil fun _ c he hn => ?_⟩
      exact absurd (Option.some.inj he ▸ hx) hn
    · exact ⟨_, if_neg hx, fun σ => (allHold_signOf hx).trans ⟨fun h _ => h, fun h => h hlast⟩⟩
  · rw [if_neg hlast]
    exact ⟨[], rfl, fun σ => iff_of_true allHold_nil fun h => absurd h hlast⟩

theorem Encodable.createConstraints_spec (hp : Encodable p) (hc : cellIndex < p.m_automatonWidth)
    (hs : step < p.m_numberOfIntermediateSteps + 2) (freeInputs : List CNFLit) :
    ∃ clauses, p.createConstraints step cellIndex freeInputs =
        some (clauses, freeInputs ++ p.openInput step cellIndex) ∧
      ∀ σ, AllHold σ clauses ↔ p.Consistent σ step cellIndex := by
  unfold createConstraints Consistent
  rw [if_pos ⟨hc, hp.numberOfStates_eq ▸ hs⟩]
  cases step with
  | zero =>
    obtain ⟨cell, hcell⟩ : ∃ cell, p.m_sourceStateSpec[cellIndex]? = some cell :=
      ⟨_, List.getElem?_eq_getElem (hp.source ▸ hc)⟩
    unfold openInput
    rw [if_pos rfl, hcell]
    dsimp only [Option.bind_eq_bind, Option.bind_some]
    rw [hp.cellLit_eq hc hs]
    dsimp only [Option.bind_some]
    by_cases hx : cell = 'x'
    · rw [if_pos hx, if_pos ⟨rfl, congrArg some hx⟩]
      refine ⟨[], ?_, fun σ => iff_of_true allHold_nil ⟨?_, ?_, ?_⟩⟩
      · rw [hx, Nat.zero_mul, Nat.zero_add]
        rfl
      · exact fun _ c he hn => absurd (Option.some.inj he ▸ hx) hn
      · exact fun h => absurd h (Nat.succ_ne_zero _).symm
      · exact fun h => absurd rfl h
    · rw [if_neg hx, if_neg fun h => hx (Option.some.inj h.2), List.append_nil]
      refine ⟨_, rfl, fun σ => (allHold_signOf hx).trans ⟨fun h => ⟨?_, ?_, ?_⟩, fun h => h.1 rfl⟩⟩
      · exact fun _ => h
      · exact fun h => absurd h (Nat.succ_ne_zero _).symm
      · exact fun h => absurd rfl h
  | succ step =>
    obtain ⟨target, htarget, hiff⟩ := hp.target_spec hc hs
    obtain ⟨transition, htransition, hiff'⟩ := hp.transition_spec hc hs
    have hne := Nat.succ_ne_zero step
    unfold openInput
    rw [if_neg hne, htarget, htransition, if_neg fun h => hne h.1, List.append_nil]
    refine ⟨_, rfl, fun σ => allHold_append.trans ?_⟩
    rw [hiff, hiff', Nat.add_sub_cancel]
    constructor
    · intro h
      obtain ⟨h, h'⟩ := h
      exact ⟨fun he => absurd he hne, h, fun _ => h'⟩
    · intro h
      obtain ⟨-, h, h'⟩ := h
      exact ⟨h, h' hne⟩

/-! ## The loops -/

structure Encodes (p : Rule110PredecessorStateProblem) (done : List (Nat × Nat)) (r : Rule110Encoding) : Prop where
  models : ∀ σ, AllHold σ r.cnfProblem.clauses ↔ ∀ x ∈ done, p.Consistent σ x.1 x.2
  freeInputs : r.freeInputs = done.flatMap fun x => p.openInput x.1 x.2

variable {done : List (Nat × Nat)} {r : Rule110Encoding}

theorem Encodable.encodeCell_spec (hp : Encodable p) (hs : step < p.m_numberOfIntermediateSteps + 2)
    (hc : cellIndex < p.m_automatonWidth) (h : Encodes p done r) :
    ∃ r', p.encodeCell step r cellIndex = some r' ∧ Encodes p (done ++ [(step, cellIndex)]) r' := by
  obtain ⟨clauses, hcreate, hiff⟩ := hp.createConstraints_spec hc hs r.freeInputs
  refine ⟨⟨clauses.foldl CNFProblem.addClause r.cnfProblem, r.freeInputs ++ p.openInput step cellIndex⟩, ?_,
    fun σ => ?_, ?_⟩
  · unfold encodeCell
    rw [hcreate]
    rfl
  · rw [CNFProblem.foldl_addClause]
    dsimp only
    rw [allHold_append, h.models, hiff, List.forall_mem_append, List.forall_mem_singleton]
  · rw [List.flatMap_append, List.flatMap_singleton, ← h.freeInputs]

theorem Encodable.encodeStep_spec (hp : Encodable p) (hs : step < p.m_numberOfIntermediateSteps + 2)
    (h : Encodes p done r) : ∃ r', p.encodeStep r step = some r' ∧
      Encodes p (done ++ (List.range p.m_automatonWidth).map (Prod.mk step)) r' := by
  unfold encodeStep
  rw [hp.target]
  have hstart : Encodes p (done ++ [].map (Prod.mk step)) r := (List.append_nil done).symm ▸ h
  refine exists_foldlM (I := fun cells r => Encodes p (done ++ cells.map (Prod.mk step)) r)
    (fun cells cellIndex r hmem h => ?_) hstart
  obtain ⟨r', he, h'⟩ := hp.encodeCell_spec hs (List.mem_range.mp hmem) h
  rw [List.append_assoc] at h'
  exact ⟨r', he, by rwa [List.map_append]⟩

def cellsOf (p : Rule110PredecessorStateProblem) : List (Nat × Nat) :=
  (List.range (p.m_numberOfIntermediateSteps + 2)).flatMap fun step =>
    (List.range p.m_automatonWidth).map (Prod.mk step)

theorem Encodable.getCNFEncoding_spec (hp : Encodable p) :
    ∃ r, p.getCNFEncoding = some r ∧ Encodes p p.cellsOf r := by
  unfold getCNFEncoding
  rw [hp.numberOfStates_eq]
  have hstart : Encodes p ([].flatMap fun step => (List.range p.m_automatonWidth).map (Prod.mk step)) ⟨.new, []⟩ :=
    ⟨fun σ => iff_of_true allHold_nil (List.forall_mem_nil _), rfl⟩
  refine exists_foldlM (I := fun steps r => Encodes p
    (steps.flatMap fun step => (List.range p.m_automatonWidth).map (Prod.mk step)) r)
    (fun steps step r hmem h => ?_) hstart
  obtain ⟨r', he, h'⟩ := hp.encodeStep_spec (List.mem_range.mp hmem) h
  exact ⟨r', he, by rwa [List.flatMap_append, List.flatMap_singleton]⟩

theorem mem_cellsOf {x : Nat × Nat} :
    x ∈ p.cellsOf ↔ x.1 < p.m_numberOfIntermediateSteps + 2 ∧ x.2 < p.m_automatonWidth := by
  obtain ⟨step, cellIndex⟩ := x
  simp [cellsOf]

/-! ## The inputs that are left open -/

def openCells (sourceStateSpec : List Char) : List CNFLit :=
  ((List.range sourceStateSpec.length).filter fun i => sourceStateSpec[i]? = some 'x').map fun i => ⟨i, .positive⟩

theorem flatMap_openInput (p : Rule110PredecessorStateProblem) (cells : List Nat) :
    cells.flatMap (p.openInput 0) =
      (cells.filter fun i => p.m_sourceStateSpec[i]? = some 'x').map fun i => ⟨i, .positive⟩ := by
  induction cells with
  | nil => rfl
  | cons i cells ih =>
    rw [List.flatMap_cons, ih, List.filter_cons]
    unfold openInput
    by_cases hx : p.m_sourceStateSpec[i]? = some 'x'
    · rw [if_pos ⟨rfl, hx⟩, if_pos (decide_eq_true hx)]
      rfl
    · rw [if_neg fun h => hx h.2, if_neg (mt of_decide_eq_true hx)]
      rfl

theorem Encodable.freeInputs_eq (hp : Encodable p) (h : Encodes p p.cellsOf r) :
    r.freeInputs = openCells p.m_sourceStateSpec := by
  have hlater : ((List.range (p.m_numberOfIntermediateSteps + 1)).map Nat.succ).flatMap (fun step =>
      ((List.range p.m_automatonWidth).map (Prod.mk step)).flatMap fun x => p.openInput x.1 x.2) = [] := by
    refine List.flatMap_eq_nil_iff.mpr fun step hstep => List.flatMap_eq_nil_iff.mpr fun x hx => ?_
    obtain ⟨k, -, rfl⟩ := List.mem_map.mp hstep
    obtain ⟨i, -, rfl⟩ := List.mem_map.mp hx
    exact if_neg fun h => Nat.succ_ne_zero k h.1
  rw [h.freeInputs, cellsOf, List.flatMap_assoc, List.range_succ_eq_map, List.flatMap_cons, hlater, List.append_nil,
    List.flatMap_map, openCells, hp.source]
  exact flatMap_openInput p _

/-! ## The models -/

def ofStates (width : Nat) (states : Nat → Nat → Bool) : Valuation CNFLit :=
  valuationOfSigns fun v => if states (v / width) (v % width) then .positive else .negative

theorem valueAt_ofStates {width i : Nat} {states : Nat → Nat → Bool} (hi : i < width) :
    valueAt (ofStates width states) width step i = states step i := by
  have hdiv : (step * width + i) / width = step := by
    rw [Nat.mul_comm, Nat.mul_add_div (Nat.zero_lt_of_lt hi), Nat.div_eq_of_lt hi, Nat.add_zero]
  have hmod : (step * width + i) % width = i := by
    rw [Nat.mul_comm, Nat.mul_add_mod, Nat.mod_eq_of_lt hi]
  have hsign : (ofStates width states).holds ⟨step * width + i, .positive⟩ ↔
      CNFSign.positive = if states ((step * width + i) / width) ((step * width + i) % width) then .positive
        else .negative := Iff.rfl
  rw [Bool.eq_iff_iff, ← holds_positive, hsign, hdiv, hmod]
  cases states step i <;> decide

theorem Encodable.models_iff (hp : Encodable p) (h : Encodes p p.cellsOf r) (cells : Nat → Bool) :
    (∃ σ : Valuation CNFLit, σ.Models (addedSets r.cnfProblem.clauses) ∧
      ∀ i < p.m_automatonWidth, σ.holds ⟨i, .positive⟩ ↔ cells i = true) ↔
    Matches p.m_sourceStateSpec cells ∧ Matches p.m_targetStateSpec
      ((successor p.m_automatonWidth)^[p.m_numberOfIntermediateSteps + 1] cells) := by
  constructor
  · intro hσ
    obtain ⟨σ, hmodels, hcells⟩ := hσ
    have hconsistent := (h.models σ).mp (models_addedSets.mp hmodels)
    have hall : ∀ step < p.m_numberOfIntermediateSteps + 2, ∀ i < p.m_automatonWidth, p.Consistent σ step i :=
      fun step hs i hi => hconsistent (step, i) (mem_cellsOf.mpr ⟨hs, hi⟩)
    have hfirst : ∀ i < p.m_automatonWidth, valueAt σ p.m_automatonWidth 0 i = cells i := by
      intro i hi
      rw [Bool.eq_iff_iff, ← hcells i hi, ← holds_positive, Nat.zero_mul, Nat.zero_add]
    have hrun := eq_iterate hfirst fun k hk i hi => (hall (k + 1) (Nat.succ_lt_succ hk) i hi).2.2 k.succ_ne_zero
    have hsource : Matches p.m_sourceStateSpec (valueAt σ p.m_automatonWidth 0) := fun i cell hget hx =>
      (hall 0 (Nat.succ_pos _) i (hp.source ▸ (List.getElem?_eq_some_iff.mp hget).1)).1 rfl cell hget hx
    have htarget : Matches p.m_targetStateSpec
        (valueAt σ p.m_automatonWidth (p.m_numberOfIntermediateSteps + 1)) := fun i cell hget hx =>
      (hall _ (Nat.lt_succ_self _) i (hp.target ▸ (List.getElem?_eq_some_iff.mp hget).1)).2.1 rfl cell hget hx
    exact ⟨hsource.congr (hp.source.symm ▸ hfirst), htarget.congr (hp.target.symm ▸ hrun _ le_rfl)⟩
  · intro hreaches
    obtain ⟨hsource, htarget⟩ := hreaches
    obtain ⟨states, hstates⟩ : ∃ states, states = fun k => (successor p.m_automatonWidth)^[k] cells := ⟨_, rfl⟩
    have hvalue : ∀ step, ∀ i < p.m_automatonWidth, states step i =
        valueAt (ofStates p.m_automatonWidth states) p.m_automatonWidth step i :=
      fun step i hi => (valueAt_ofStates hi).symm
    refine ⟨ofStates p.m_automatonWidth states, models_addedSets.mpr ((h.models _).mpr fun x hx => ?_),
      fun i hi => ?_⟩
    · obtain ⟨hs, hi⟩ := mem_cellsOf.mp hx
      refine ⟨fun hzero cell hget hopen => ?_, fun hlast cell hget hopen => ?_, fun hne => ?_⟩
      · rw [← hvalue _ _ hi, hzero, hstates]
        exact hsource _ cell hget hopen
      · rw [← hvalue _ _ hi, hlast, hstates]
        exact htarget _ cell hget hopen
      · obtain ⟨k, hk⟩ := Nat.exists_eq_succ_of_ne_zero hne
        rw [hk, Nat.succ_sub_one, ← hvalue _ _ hi, ← successor_congr (hvalue k) hi, hstates]
        exact congrFun (Function.iterate_succ_apply' _ k cells) _
    · have hzero : states 0 i = cells i := by
        rw [hstates]
        rfl
      rw [← hzero, hvalue 0 i hi, ← holds_positive, Nat.zero_mul, Nat.zero_add]

/-- The encoding exists, its models are the runs from a state that fits the source to one that fits the
target, and `freeInputs` are the open cells in their order. -/
theorem getCNFEncoding_sound {sourceStateSpec targetStateSpec : List Char} {numberOfIntermediateSteps : Nat}
    (hlength : targetStateSpec.length = sourceStateSpec.length) (hwidth : 2 ≤ sourceStateSpec.length)
    (hsmall : (numberOfIntermediateSteps + 2) * sourceStateSpec.length ≤ CNFVar.undefinedVariable) :
    ∃ p r, new sourceStateSpec targetStateSpec numberOfIntermediateSteps = some p ∧ p.getCNFEncoding = some r ∧
      r.freeInputs = openCells sourceStateSpec ∧
      ∀ cells : Nat → Bool,
        (∃ σ : Valuation CNFLit, σ.Models (addedSets r.cnfProblem.clauses) ∧
          ∀ i < sourceStateSpec.length, σ.holds ⟨i, .positive⟩ ↔ cells i = true) ↔
        Matches sourceStateSpec cells ∧ Matches targetStateSpec
          ((successor sourceStateSpec.length)^[numberOfIntermediateSteps + 1] cells) := by
  have hlt : targetStateSpec.length < uint32Size := by
    have hle := Nat.le_mul_of_pos_left sourceStateSpec.length (Nat.succ_pos (numberOfIntermediateSteps + 1))
    have hundefined : CNFVar.undefinedVariable < uint32Size := by decide
    exact hlength ▸ (hle.trans hsmall).trans_lt hundefined
  obtain ⟨p, hp⟩ : ∃ p, p = Rule110PredecessorStateProblem.mk targetStateSpec sourceStateSpec
    numberOfIntermediateSteps sourceStateSpec.length := ⟨_, rfl⟩
  have hencodable : Encodable p := by
    rw [hp]
    exact ⟨rfl, hlength, hwidth, hsmall⟩
  obtain ⟨r, he, hencodes⟩ := hencodable.getCNFEncoding_spec
  refine ⟨p, r, ?_, he, ?_, fun cells => ?_⟩
  · unfold new
    rw [if_pos ⟨hlt, hlength⟩, hp, hlength]
  · rw [hencodable.freeInputs_eq hencodes, hp]
  · have hmodels := hencodable.models_iff hencodes cells
    rw [hp] at hmodels
    exact hmodels

def pair : Rule110PredecessorStateProblem := ⟨"11".toList, "xx".toList, 0, 2⟩

theorem pair_sound : ∃ r, pair.getCNFEncoding = some r ∧ r.freeInputs = [⟨0, .positive⟩, ⟨1, .positive⟩] ∧
    ∃ σ : Valuation CNFLit, σ.Models (addedSets r.cnfProblem.clauses) := by
  have hlength : "11".toList.length = "xx".toList.length := by decide
  have hwidth : 2 ≤ "xx".toList.length := by decide
  have hsmall : (0 + 2) * "xx".toList.length ≤ CNFVar.undefinedVariable := by decide
  obtain ⟨p, r, hp, hr, hinputs, hmodels⟩ := getCNFEncoding_sound hlength hwidth hsmall
  have hnew : new "xx".toList "11".toList 0 = some pair := by decide
  obtain rfl := Option.some.inj (hnew.symm.trans hp)
  have hreaches : Matches "xx".toList (fun _ => true) ∧ Matches "11".toList ((successor 2)^[1] fun _ => true) := by
    decide
  obtain ⟨σ, hσ, -⟩ := (hmodels _).mpr hreaches
  exact ⟨r, hr, hinputs, σ, hσ⟩

/-! ## Solving the problem -/

def Chosen (assumedFacts : List CNFLit) (cells : Nat → Bool) : Prop :=
  ∀ l ∈ assumedFacts, cells l.var = decide (l.sign = .positive)

theorem holds_iff {σ : Valuation CNFLit} {l : CNFLit} {value : Bool}
    (h : σ.holds ⟨l.var, .positive⟩ ↔ value = true) : σ.holds l ↔ value = decide (l.sign = .positive) := by
  obtain ⟨v, sign⟩ := l
  cases sign with
  | positive => exact h
  | negative =>
    have hneg : σ.holds ⟨v, .negative⟩ ↔ ¬ σ.holds ⟨v, .positive⟩ := σ.holds_neg ⟨v, .positive⟩
    rw [hneg, h, Bool.not_eq_true]
    exact Iff.rfl

/-- What the solver answers about the encoding under assumptions about the first state. -/
theorem solve_reaches {m : Machine} (h : m.Reachable) (hp : Encodable p) (he : p.getCNFEncoding = some r)
    (hadded : m.added = r.cnfProblem.clauses) (hassumed : ∀ l ∈ m.assumedFacts, l.var < p.m_automatonWidth)
    {result : SolvingResult} (hc : m.control = .ready (some result)) :
    (result.isProblemSatisfiable = .TRUE → ∃ cells, Chosen m.assumedFacts cells ∧
      Matches p.m_sourceStateSpec cells ∧ Matches p.m_targetStateSpec
        ((successor p.m_automatonWidth)^[p.m_numberOfIntermediateSteps + 1] cells)) ∧
    (result.isProblemSatisfiable = .FALSE → ¬∃ cells, Chosen m.assumedFacts cells ∧
      Matches p.m_sourceStateSpec cells ∧ Matches p.m_targetStateSpec
        ((successor p.m_automatonWidth)^[p.m_numberOfIntermediateSteps + 1] cells)) := by
  obtain ⟨r', he', hencodes⟩ := hp.getCNFEncoding_spec
  obtain rfl := Option.some.inj (he'.symm.trans he)
  obtain ⟨hsat, hunsat⟩ := (Machine.Inv.of_reachable h).result result hc
  rw [hadded] at hsat hunsat
  refine ⟨fun htrue => ?_, fun hfalse => ?_⟩
  · obtain ⟨model, -, hmodel⟩ := hsat htrue
    obtain ⟨hmodels, hholds⟩ := hmodel _ (model.extended_falsify [])
    have hcells : ∀ i, (model.falsify []).holds ⟨i, .positive⟩ ↔
        valueAt (model.falsify []) p.m_automatonWidth 0 i = true := by
      intro i
      rw [← holds_positive, Nat.zero_mul, Nat.zero_add]
    refine ⟨valueAt (model.falsify []) p.m_automatonWidth 0, fun l hl => ?_, ?_⟩
    · exact (holds_iff (hcells l.var)).mp (hholds l hl)
    · exact (hp.models_iff hencodes _).mp ⟨_, hmodels, fun i _ => hcells i⟩
  · intro hexists
    obtain ⟨cells, hchosen, hreaches⟩ := hexists
    obtain ⟨σ, hmodels, hcells⟩ := (hp.models_iff hencodes cells).mpr hreaches
    refine hunsat hfalse σ (models_union.mpr ⟨hmodels, models_units.mpr fun l hl => ?_⟩)
    exact (holds_iff (hcells l.var (hassumed l hl))).mpr (hchosen l hl)

def pairEncoding : Rule110Encoding := pair.getCNFEncoding.get (by decide +kernel)

def solvingPair : List Event :=
  [.addProblem pairEncoding.cnfProblem.clauses, .solve [⟨0, .positive⟩], .trySimplify, .tryReduceClauseDB [] false,
    .propagateHardFacts, .propagateAssumedFacts, .finish]

def solvedPair : Machine := (Machine.new.run solvingPair).get (by decide +kernel)

theorem solvedPair_reaches : ∃ cells, Chosen [⟨0, .positive⟩] cells ∧ Matches "xx".toList cells ∧
    Matches "11".toList (successor 2 cells) := by
  have hm : solvedPair.Reachable := .run_get (.init rfl) (by decide +kernel) _
  have hp : Encodable pair := ⟨rfl, rfl, by decide, by decide⟩
  obtain ⟨result, hc, htrue⟩ := Control.exists_of_verdict
    (show solvedPair.control.verdict = some .TRUE by decide +kernel)
  have hassumed : solvedPair.assumedFacts = [⟨0, .positive⟩] := by decide +kernel
  have hvars : ∀ l ∈ solvedPair.assumedFacts, l.var < pair.m_automatonWidth := by
    rw [hassumed]
    decide
  have hadded : solvedPair.added = pairEncoding.cnfProblem.clauses := by decide +kernel
  obtain ⟨cells, hchosen, hreaches⟩ :=
    (solve_reaches hm hp (Option.some_get _).symm hadded hvars hc).1 htrue
  exact ⟨cells, hassumed ▸ hchosen, hreaches⟩

end Rule110PredecessorStateProblem

end JamSAT
