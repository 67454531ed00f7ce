import JamSAT.BranchingMachine
import JamSAT.BinaryHeapSound
import JamSAT.SolverRuns
import Mathlib.Algebra.Order.Ring.Unbundled.Rat

/-!
# A branching literal always exists

A variable leaves the heap when it is picked or skipped, and it is then on the trail; it
returns when its level is undone. Variables that are not eligible are facts or assumptions,
which are on the trail during the search.
-/

namespace JamSAT

open BinaryMaxHeap

namespace VSIDSBranchingHeuristic

variable {D : Type} {h h' : VSIDSBranchingHeuristic D} {N : Nat} {S : Set CNFVar}

structure Holds (h : VSIDSBranchingHeuristic D) (N : Nat) (S : Set CNFVar) : Prop where
  indexed : h.m_variableOrder.Indexed S
  heap_length : h.m_variableOrder.m_heap.length = N
  activity : h.m_activity.length = N
  decisions : h.m_decisionVariables.length = N
  bound : N ≤ maxIndex

theorem Holds.setDecisions (hh : h.Holds N S) {d : List Bool} (hd : d.length = N) :
    Holds { h with m_decisionVariables := d } N S :=
  ⟨hh.indexed, hh.heap_length, hh.activity, hd, hh.bound⟩

theorem Holds.lt (hh : h.Holds N S) {v : CNFVar} (hv : v ∈ S) : v < N :=
  (hh.indexed.index_lt hv).trans_eq (hh.indexed.length.trans hh.heap_length)

structure Inserts (h h' : VSIDSBranchingHeuristic D) (N : Nat) (S S' : Set CNFVar) : Prop where
  holds : h'.Holds N S'
  subset : S ⊆ S'
  decisions : h'.m_decisionVariables = h.m_decisionVariables

section
variable [OfScientific D] [LT D] [DecidableLT D]

theorem Holds.reset (hh : h.Holds N S) {v : CNFVar} (hv : v < N) :
    ∃ h' S', h.reset v = some h' ∧ Inserts h h' N S S' ∧ v ∈ S' := by
  have hlt : Index.getIndex v < h.m_variableOrder.m_heap.length := hv.trans_eq hh.heap_length.symm
  have hfit : v ∉ S → h.m_variableOrder.m_size ≤ maxIndex := fun _ =>
    (hh.indexed.size_le.trans_eq hh.heap_length).trans hh.bound
  obtain ⟨order, he, hi, hlen, -⟩ := insert_spec h.lessThan hh.indexed hlt hfit
  refine ⟨{ h with m_variableOrder := order }, Insert.insert v S, ?_, ⟨?_, Set.subset_insert v S, rfl⟩,
    Set.mem_insert v S⟩
  · unfold VSIDSBranchingHeuristic.reset
    rw [he]
    rfl
  · exact ⟨hi, hlen.trans hh.heap_length, hh.activity, hh.decisions, hh.bound⟩

theorem Holds.addVariable (hh : h.Holds N S) {v : CNFVar} (hv : v < N) :
    ∃ h' S', h.addVariable v = some h' ∧ Inserts h h' N S S' ∧ v ∈ S' := by
  have hset : Holds { h with m_activity := h.m_activity.set v 0.0 } N S :=
    ⟨hh.indexed, hh.heap_length, List.length_set.trans hh.activity, hh.decisions, hh.bound⟩
  obtain ⟨h', S', he, hi, hm⟩ := hset.reset hv
  exact ⟨h', S', he, ⟨hi.holds, hi.subset, hi.decisions⟩, hm⟩

omit [OfScientific D] [LT D] [DecidableLT D] in
theorem Holds.foldlM {α : Type} {f : α → CNFVar}
    {step : VSIDSBranchingHeuristic D → α → Option (VSIDSBranchingHeuristic D)}
    (hstep : ∀ {h S x}, Holds h N S → f x < N → ∃ h' S', step h x = some h' ∧ Inserts h h' N S S' ∧ f x ∈ S')
    (xs : List α) : ∀ {h S}, Holds h N S → (∀ x ∈ xs, f x < N) →
    ∃ h' S', xs.foldlM step h = some h' ∧ Inserts h h' N S S' ∧ ∀ x ∈ xs, f x ∈ S' := by
  induction xs with
  | nil => exact fun {h S} hh _ => ⟨h, S, rfl, ⟨hh, subset_rfl, rfl⟩, nofun⟩
  | cons x xs ih =>
    intro h S hh hv
    obtain ⟨hx, hxs⟩ := List.forall_mem_cons.mp hv
    obtain ⟨h₁, S₁, he₁, hi₁, hm₁⟩ := hstep hh hx
    obtain ⟨h₂, S₂, he₂, hi₂, hm₂⟩ := ih hi₁.holds hxs
    refine ⟨h₂, S₂, ?_, ⟨hi₂.holds, hi₁.subset.trans hi₂.subset, hi₂.decisions.trans hi₁.decisions⟩, ?_⟩
    · rw [List.foldlM_cons, he₁]
      exact he₂
    · exact List.forall_mem_cons.mpr ⟨hi₂.subset hm₁, hm₂⟩

theorem new_spec {maxVar : CNFVar} (hb : maxVar + 1 ≤ maxIndex) :
    ∃ h S, new maxVar = some (h : VSIDSBranchingHeuristic D) ∧ h.Holds (maxVar + 1) S ∧
      ∀ v < maxVar + 1, v ∈ S := by
  have hh : Holds (D := D) ⟨List.replicate (maxVar + 1) false, (BinaryMaxHeap.new maxVar).clear,
      List.replicate (maxVar + 1) 0.0, 1.0, 0.8, 0.95, 0⟩ (maxVar + 1) ∅ :=
    ⟨BinaryMaxHeap.new_spec maxVar, List.length_replicate, List.length_replicate, List.length_replicate, hb⟩
  obtain ⟨h, S, he, hi, hm⟩ := Holds.foldlM (f := id) (fun hh hv => hh.reset hv) (List.range (maxVar + 1)) hh
    fun v hv => List.mem_range.mp hv
  refine ⟨h, S, ?_, hi.holds, fun v hv => hm v (List.mem_range.mpr hv)⟩
  unfold new resetAll
  dsimp only
  rw [List.length_replicate]
  exact he

theorem Holds.increaseMaxVarTo (hh : h.Holds N S) {newMaxVar : CNFVar} (hle : N ≤ newMaxVar + 1)
    (hb : newMaxVar + 1 ≤ maxIndex) :
    ∃ h' S', h.increaseMaxVarTo newMaxVar = some h' ∧ h'.Holds (newMaxVar + 1) S' ∧ S ⊆ S' ∧
      ∀ v, N ≤ v → v < newMaxVar + 1 → v ∈ S' := by
  have hlen' : h.m_variableOrder.m_heap.length ≤ Index.getIndex newMaxVar + 1 := hh.heap_length.trans_le hle
  obtain ⟨order, ho, hi, hlen, -⟩ := increaseMaxSizeTo_spec hh.indexed hlen'
  have hgrow : ∀ {α : Type} {xs : List α} {x : α}, xs.length = N →
      (xs ++ List.replicate (newMaxVar + 1 - xs.length) x).length = newMaxVar + 1 := by
    intro α xs x hx
    rw [List.length_append, List.length_replicate, hx]
    exact Nat.add_sub_cancel' hle
  have hh' : Holds { h with
      m_decisionVariables :=
        h.m_decisionVariables ++ List.replicate (newMaxVar + 1 - h.m_decisionVariables.length) false
      m_variableOrder := order
      m_activity := h.m_activity ++ List.replicate (newMaxVar + 1 - h.m_activity.length) 0.0 } (newMaxVar + 1) S :=
    ⟨hi, hlen, hgrow hh.activity, hgrow hh.decisions, hb⟩
  obtain ⟨h', S', he, hins, hm⟩ := Holds.foldlM (f := id) (fun hh hv => hh.addVariable hv)
    (List.range' h.m_activity.length (newMaxVar + 1 - h.m_activity.length)) hh' fun v hv => by
      have := List.mem_range'_1.mp hv
      rw [hh.activity] at this
      exact this.2.trans_eq (Nat.add_sub_cancel' hle)
  refine ⟨h', S', ?_, hins.holds, hins.subset, fun v hv hlt => hm v (List.mem_range'_1.mpr ?_)⟩
  · unfold VSIDSBranchingHeuristic.increaseMaxVarTo
    rw [ho]
    exact he
  · rw [hh.activity]
    exact ⟨hv, hlt.trans_eq (Nat.add_sub_cancel' hle).symm⟩

/-- The variables of the undone levels return. -/
theorem Holds.prepareBacktrack (hh : h.Holds N S) {s : Assignment} (ht : s.TrailInv) (hs : s.size ≤ N)
    (level : Nat) :
    ∃ h' S', h.prepareBacktrack s level = some h' ∧ Inserts h h' N S S' ∧
      ∀ l ∈ s.trail, level ≤ s.getLevel l.var → l.var ∈ S' := by
  have hlevels : ∀ k, k ∈ (List.range' level (s.currentLevel + 1 - level)).reverse ↔
      level ≤ k ∧ k ≤ s.currentLevel := by
    intro k
    rw [List.mem_reverse, List.mem_range'_1]
    omega
  obtain ⟨h', S', he, hi, hm⟩ := Holds.foldlM (f := CNFLit.var) (fun hh hv => hh.reset hv)
    ((List.range' level (s.currentLevel + 1 - level)).reverse.flatMap s.getLevelAssignments) hh fun l hl => by
      obtain ⟨k, hk, hl⟩ := List.mem_flatMap.mp hl
      exact (ht.lt_size l ((ht.mem_getLevelAssignments ((hlevels k).mp hk).2).mp hl).1).trans_le hs
  refine ⟨h', S', he, hi, fun l hl hle => hm l (List.mem_flatMap.mpr ?_)⟩
  have hcur := ht.level_le l hl
  exact ⟨s.getLevel l.var, (hlevels _).mpr ⟨hle, hcur⟩, (ht.mem_getLevelAssignments hcur).mpr ⟨hl, rfl⟩⟩

/-! ## Picking -/

omit [OfScientific D] [LT D] [DecidableLT D] in
theorem picks_iff (h : VSIDSBranchingHeuristic D) (s : Assignment) (v : CNFVar) :
    (!(s.assignments v).isDeterminate && h.isEligibleForDecisions v) = true ↔
      s.assignments v = .INDETERMINATE ∧ h.isEligibleForDecisions v = true := by
  have hdet : (s.assignments v).isDeterminate = false ↔ s.assignments v = .INDETERMINATE := by
    rw [← Bool.not_eq_true, TBool.isDeterminate_iff, not_not]
  rw [Bool.and_eq_true, Bool.not_eq_true', hdet]

/-- The picked variable is one that the test has accepted; what has been skipped failed it. -/
theorem pickLoop_spec {s : Assignment} {v : CNFVar} (hv : s.assignments v = .INDETERMINATE) :
    ∀ {steps : Nat} {h : VSIDSBranchingHeuristic D} {S : Set CNFVar}, h.Holds N S →
    h.m_variableOrder.m_size < steps → v ∈ S → h.isEligibleForDecisions v = true →
    ∃ l h' S', pickLoop s steps h = some (l, h') ∧ h'.Holds N S' ∧ h'.m_decisionVariables = h.m_decisionVariables ∧
      l.var ∈ S ∧ s.assignments l.var = .INDETERMINATE ∧ h.isEligibleForDecisions l.var = true ∧
      ∀ w ∈ S, w ∈ S' ∨ w = l.var ∨ s.assignments w ≠ .INDETERMINATE ∨ h.isEligibleForDecisions w = false := by
  intro steps
  induction steps with
  | zero => exact fun _ hlt => absurd hlt (Nat.not_lt_zero _)
  | succ steps ih =>
    intro h S hh hlt hvS hve
    have hpos : 0 < h.m_variableOrder.m_size := by
      obtain ⟨i, hi⟩ := hh.indexed.contained hvS
      exact Nat.zero_lt_of_lt (lt_of_elementAt hi)
    obtain ⟨order, x, he, hx, hi, hlen, hsize, -⟩ := removeMax_spec h.lessThan hh.indexed hpos
    have hh' : Holds { h with m_variableOrder := order } N (S \ {x}) :=
      ⟨hi, hlen.trans hh.heap_length, hh.activity, hh.decisions, hh.bound⟩
    have hne : h.m_variableOrder.empty = false := decide_eq_false hpos.ne'
    unfold pickLoop
    rw [hne, he]
    dsimp only [Option.bind_eq_bind, Option.bind_some]
    by_cases hp : s.assignments x = .INDETERMINATE ∧ h.isEligibleForDecisions x = true
    · have hcond := (picks_iff { h with m_variableOrder := order } s x).mpr hp
      rw [hcond]
      refine ⟨_, _, _, rfl, hh', rfl, hx, hp.1, hp.2, fun w hw => ?_⟩
      by_cases hwx : w = x
      · exact .inr (.inl hwx)
      · exact .inl ⟨hw, hwx⟩
    · have hcond := Bool.eq_false_of_not_eq_true
        (mt (picks_iff { h with m_variableOrder := order } s x).mp hp)
      have hvx : v ≠ x := fun he => hp (he ▸ ⟨hv, hve⟩)
      obtain ⟨l, h', S', hrun, hl, hd, hlS, hls, hle, hrest⟩ :=
        ih hh' (Nat.lt_of_lt_of_le hsize (Nat.lt_succ_iff.mp hlt)) ⟨hvS, hvx⟩ hve
      rw [hcond]
      refine ⟨l, h', S', hrun, hl, hd, hlS.1, hls, hle, fun w hw => ?_⟩
      by_cases hwx : w = x
      · subst hwx
        by_cases hws : s.assignments w = .INDETERMINATE
        · exact .inr (.inr (.inr (Bool.eq_false_of_not_eq_true fun he => hp ⟨hws, he⟩)))
        · exact .inr (.inr (.inl hws))
      · exact hrest w ⟨hw, hwx⟩

theorem Holds.pickBranchLiteral (hh : h.Holds N S) {s : Assignment} {v : CNFVar} (hvS : v ∈ S)
    (hv : s.assignments v = .INDETERMINATE) (hve : h.isEligibleForDecisions v = true) :
    ∃ l h' S', h.pickBranchLiteral s = some (l, h') ∧ h'.Holds N S' ∧
      h'.m_decisionVariables = h.m_decisionVariables ∧ l.var ∈ S ∧ s.assignments l.var = .INDETERMINATE ∧
      h.isEligibleForDecisions l.var = true ∧
      ∀ w ∈ S, w ∈ S' ∨ w = l.var ∨ s.assignments w ≠ .INDETERMINATE ∨ h.isEligibleForDecisions w = false :=
  pickLoop_spec hv hh (Nat.lt_succ_self _) hvS hve

end

/-! ## Conflicts -/

section
variable [OfScientific D] [LT D] [DecidableLT D] [Add D] [Mul D] [Div D] [Min D] [LE D] [DecidableLE D]

omit [LT D] [DecidableLT D] [Div D] [Min D] in
theorem Holds.bump (hh : h.Holds N S) (v : CNFVar) :
    (h.bump v).Holds N S ∧ (h.bump v).m_decisionVariables = h.m_decisionVariables := by
  unfold VSIDSBranchingHeuristic.bump scaleDownActivities
  dsimp only
  split
  · refine ⟨⟨hh.indexed, hh.heap_length, ?_, hh.decisions, hh.bound⟩, rfl⟩
    rw [List.length_map, List.length_set]
    exact hh.activity
  · exact ⟨⟨hh.indexed, hh.heap_length, List.length_set.trans hh.activity, hh.decisions, hh.bound⟩, rfl⟩

omit [Div D] [Min D] in
theorem Holds.seenInConflict (hh : h.Holds N S) (vars : List CNFVar) :
    ∃ h', vars.foldlM VSIDSBranchingHeuristic.seenInConflict h = some h' ∧ h'.Holds N S ∧
      h'.m_decisionVariables = h.m_decisionVariables := by
  induction vars generalizing h with
  | nil => exact ⟨h, rfl, hh, rfl⟩
  | cons v vars ih =>
    obtain ⟨hb, hd⟩ := hh.bump v
    have hone : ∃ h₁, h.seenInConflict v = some h₁ ∧ h₁.Holds N S ∧
        h₁.m_decisionVariables = h.m_decisionVariables := by
      unfold VSIDSBranchingHeuristic.seenInConflict
      dsimp only
      split
      · rename_i hc
        obtain ⟨order, he, hk, -⟩ := increasingUpdate_spec (h.bump v).lessThan hb.indexed
          (hb.indexed.contains_iff.mp hc)
        rw [he]
        exact ⟨_, rfl, ⟨hk.indexed, hk.length.trans hb.heap_length, hb.activity, hb.decisions, hb.bound⟩, hd⟩
      · exact ⟨_, rfl, hb, hd⟩
    obtain ⟨h₁, he₁, hh₁, hd₁⟩ := hone
    obtain ⟨h₂, he₂, hh₂, hd₂⟩ := ih hh₁
    refine ⟨h₂, ?_, hh₂, hd₂.trans hd₁⟩
    rw [List.foldlM_cons, he₁]
    exact he₂

omit [LT D] [DecidableLT D] [Mul D] [Div D] [LE D] [DecidableLE D] in
theorem Holds.beginHandlingConflict (hh : h.Holds N S) : h.beginHandlingConflict.Holds N S ∧
    h.beginHandlingConflict.m_decisionVariables = h.m_decisionVariables := by
  unfold VSIDSBranchingHeuristic.beginHandlingConflict
  split
  · exact ⟨⟨hh.indexed, hh.heap_length, hh.activity, hh.decisions, hh.bound⟩, rfl⟩
  · exact ⟨⟨hh.indexed, hh.heap_length, hh.activity, hh.decisions, hh.bound⟩, rfl⟩

end

/-! ## Eligibility -/

def Eligible (h : VSIDSBranchingHeuristic D) (N : Nat) (lits : List CNFLit) : Prop :=
  ∀ v < N, h.isEligibleForDecisions v = false → ∃ l ∈ lits, l.var = v

theorem Eligible.congr {lits lits' : List CNFLit} (he : h.Eligible N lits)
    (hd : h'.m_decisionVariables = h.m_decisionVariables) (hs : lits ⊆ lits') : h'.Eligible N lits' := by
  intro v hv hf
  unfold isEligibleForDecisions at hf
  rw [hd] at hf
  obtain ⟨l, hl, hlv⟩ := he v hv hf
  exact ⟨l, hs hl, hlv⟩

theorem isEligible_set {v w : CNFVar} {b : Bool} (hv : v < h.m_decisionVariables.length) :
    (h.setEligibleForDecisions v b).isEligibleForDecisions w = if w = v then b else h.isEligibleForDecisions w := by
  unfold setEligibleForDecisions isEligibleForDecisions
  dsimp only
  rw [List.getD_eq_getElem?_getD, List.getD_eq_getElem?_getD, List.getElem?_set]
  by_cases hw : w = v
  · rw [if_pos hw.symm, if_pos hv, if_pos hw]
    rfl
  · rw [if_neg (Ne.symm hw), if_neg hw]

theorem Holds.setEligible (hh : h.Holds N S) (v : CNFVar) (b : Bool) : (h.setEligibleForDecisions v b).Holds N S :=
  hh.setDecisions (List.length_set.trans hh.decisions)

theorem Holds.foldl_setEligible {α : Type} (f : α → CNFVar) (b : Bool) (xs : List α) :
    ∀ {h : VSIDSBranchingHeuristic D}, h.Holds N S → (∀ x ∈ xs, f x < N) →
    (xs.foldl (fun h x => h.setEligibleForDecisions (f x) b) h).Holds N S ∧
      ∀ w, (xs.foldl (fun h x => h.setEligibleForDecisions (f x) b) h).isEligibleForDecisions w =
        if w ∈ xs.map f then b else h.isEligibleForDecisions w := by
  induction xs with
  | nil => exact fun hh _ => ⟨hh, fun w => rfl⟩
  | cons x xs ih =>
    intro h hh hv
    obtain ⟨hx, hxs⟩ := List.forall_mem_cons.mp hv
    obtain ⟨hh', he⟩ := ih (hh.setEligible (f x) b) hxs
    refine ⟨hh', fun w => ?_⟩
    rw [List.foldl_cons, he w, isEligible_set (hx.trans_eq hh.decisions.symm), List.map_cons]
    by_cases hw : w ∈ xs.map f
    · rw [if_pos hw, if_pos (List.mem_cons_of_mem _ hw)]
    · rw [if_neg hw]
      refine if_congr ?_ rfl rfl
      rw [List.mem_cons]
      exact (or_iff_left hw).symm

theorem Holds.initialized {maxVar : CNFVar} (hh : h.Holds (maxVar + 1) S) {assumedFacts : List CNFLit}
    (hv : ∀ l ∈ assumedFacts, l.var ≤ maxVar) :
    (h.initializeBranchingHeuristic maxVar assumedFacts).Holds (maxVar + 1) S ∧
      (h.initializeBranchingHeuristic maxVar assumedFacts).Eligible (maxVar + 1) assumedFacts := by
  obtain ⟨hh₁, he₁⟩ := Holds.foldl_setEligible id true (List.range (maxVar + 1)) hh fun v hv => List.mem_range.mp hv
  obtain ⟨hh₂, he₂⟩ := Holds.foldl_setEligible CNFLit.var false assumedFacts hh₁ fun l hl =>
    Nat.lt_succ_of_le (hv l hl)
  refine ⟨hh₂, fun v hlt hf => ?_⟩
  have := he₂ v
  unfold initializeBranchingHeuristic at hf
  by_cases hm : v ∈ assumedFacts.map CNFLit.var
  · exact List.mem_map.mp hm
  · rw [if_neg hm, he₁ v, if_pos (by rw [List.map_id]; exact List.mem_range.mpr hlt)] at this
    exact absurd (this.symm.trans hf) Bool.noConfusion

theorem Holds.propagateFacts {lits : List CNFLit} (facts : List CNFLit) : ∀ (s : Assignment)
    {h : VSIDSBranchingHeuristic D}, h.Holds N S → h.Eligible N lits → facts ⊆ lits → (∀ l ∈ facts, l.var < N) →
    (propagateFacts facts s h).Holds N S ∧ (propagateFacts facts s h).Eligible N lits := by
  induction facts with
  | nil => exact fun s h hh he _ _ => ⟨hh, he⟩
  | cons fact facts ih =>
    intro s h hh he hs hv
    obtain ⟨hf, hs⟩ := List.cons_subset.mp hs
    obtain ⟨hvf, hv⟩ := List.forall_mem_cons.mp hv
    unfold VSIDSBranchingHeuristic.propagateFacts
    split
    · exact ih s hh he hs hv
    · exact ⟨hh, he⟩
    · split
      · exact ⟨hh, he⟩
      · refine ih _ (hh.setEligible _ _) (fun v hvN hve => ?_) hs hv
        rw [isEligible_set (hvf.trans_eq hh.decisions.symm)] at hve
        by_cases hvx : v = fact.var
        · exact ⟨fact, hf, hvx.symm⟩
        · rw [if_neg hvx] at hve
          exact he v hvN hve

/-! ## The heuristic beside the trail -/

def Fits (h : VSIDSBranchingHeuristic D) (N : Nat) (trail : List CNFLit) : Prop :=
  ∃ S, h.Holds N S ∧ ∀ v < N, v ∈ S ∨ ∃ l ∈ trail, l.var = v

theorem Fits.mono {trail trail' : List CNFLit} (hf : h.Fits N trail) (hs : trail ⊆ trail') : h.Fits N trail' := by
  obtain ⟨S, hh, hc⟩ := hf
  refine ⟨S, hh, fun v hv => (hc v hv).imp_right fun hl => ?_⟩
  obtain ⟨l, hl, hlv⟩ := hl
  exact ⟨l, hs hl, hlv⟩

section
variable [OfScientific D] [LT D] [DecidableLT D]

theorem Fits.prepareBacktrack {s : Assignment} (hf : h.Fits N s.trail) (ht : s.TrailInv) (hs : s.size ≤ N)
    (level : Nat) :
    ∃ h', h.prepareBacktrack s level = some h' ∧ h'.m_decisionVariables = h.m_decisionVariables ∧
      h'.Fits N (s.trail.filter fun l => s.getLevel l.var < level) := by
  obtain ⟨S, hh, hc⟩ := hf
  obtain ⟨h', S', he, hi, hm⟩ := hh.prepareBacktrack ht hs level
  refine ⟨h', he, hi.decisions, S', hi.holds, fun v hv => ?_⟩
  cases hc v hv with
  | inl hv => exact .inl (hi.subset hv)
  | inr hl =>
    obtain ⟨l, hl, rfl⟩ := hl
    by_cases hle : level ≤ s.getLevel l.var
    · exact .inl (hm l hl hle)
    · exact .inr ⟨l, List.mem_filter.mpr ⟨hl, decide_eq_true (Nat.lt_of_not_le hle)⟩, rfl⟩

theorem Fits.backtrackAll {s : Assignment} (hf : h.Fits N s.trail) (ht : s.TrailInv) (hs : s.size ≤ N) :
    ∃ h', h.prepareBacktrack s 0 = some h' ∧ h'.m_decisionVariables = h.m_decisionVariables ∧ h'.Fits N [] := by
  obtain ⟨h', he, hd, hf'⟩ := hf.prepareBacktrack ht hs 0
  exact ⟨h', he, hd, hf'.mono fun l hl => absurd (of_decide_eq_true (List.mem_filter.mp hl).2) (Nat.not_lt_zero _)⟩

theorem Fits.backtrackToLevel {s : Assignment} (hf : h.Fits N s.trail) (ht : s.TrailInv) (hs : s.size ≤ N) {k : Nat}
    (hk : k < s.currentLevel) :
    ∃ h', h.prepareBacktrack s (k + 1) = some h' ∧ h'.m_decisionVariables = h.m_decisionVariables ∧
      h'.Fits N (s.undoToLevel k).trail := by
  obtain ⟨h', he, hd, hf'⟩ := hf.prepareBacktrack ht hs (k + 1)
  refine ⟨h', he, hd, hf'.mono fun l hl => ?_⟩
  obtain ⟨hl, hlt⟩ := List.mem_filter.mp hl
  rw [Assignment.undoToLevel_trail]
  exact (ht.mem_take_limit hk).mpr ⟨hl, of_decide_eq_true hlt⟩

end

end VSIDSBranchingHeuristic

namespace Machine

open CDCLSatSolver

theorem At.bounds {A : List CNFLit} {s : CDCLSatSolver} {c : Control} (h : At A s c) :
    s.assignment.TrailInv ∧ s.assignment.size ≤ s.maxVar + 1 := by
  cases h with
  | ready r h =>
    obtain ⟨R, K, Z, dead, hi, -⟩ := h.idle
    exact ⟨hi.trail, h.size_le⟩
  | restarting _ h _ => exact ⟨h.idle.trail, h.size_eq.le⟩
  | simplified _ h => exact ⟨h.idle.trail, h.size_eq.le⟩
  | reduced _ h => exact ⟨h.idle.trail, h.size_eq.le⟩
  | assuming _ h hs _ => exact ⟨hs.trailInv, h.size_eq.le⟩
  | deciding _ h hs => exact ⟨hs.trailInv, h.size_eq.le⟩
  | decided _ h hs => exact ⟨hs.core.trail, h.size_eq.le⟩
  | conflict _ h hc _ => exact ⟨hc.core.trail, h.size_eq.le⟩

theorem deciding_of_step {m m' : Machine} {l : CNFLit} (hs : m.step (.decide l) = some m') :
    m.control = .deciding ∧ m.solver.assignment.isComplete = false := by
  cases transition_of_step hs with
  | decide hc hl he => exact ⟨hc, hl.1⟩
  | decideConflict hc hl he => exact ⟨hc, hl.1⟩

end Machine

namespace BranchingMachine

open CDCLSatSolver VSIDSBranchingHeuristic

variable {D : Type} {m m' : Machine} {s : CDCLSatSolver} {h h' : VSIDSBranchingHeuristic D}

structure Tracks (m : Machine) (h : VSIDSBranchingHeuristic D) : Prop where
  fits : ∃ N ≤ m.solver.maxVar + 1, h.Fits N m.solver.assignment.trail
  solving : (∀ r, m.control ≠ .ready r) → h.Fits (m.solver.maxVar + 1) m.solver.assignment.trail ∧
    h.Eligible (m.solver.maxVar + 1) (m.solver.facts ++ m.assumedFacts)

theorem Tracks.of_ready {r : Option SolvingResult} (hc : m.control = .ready r) {N : Nat}
    (hN : N ≤ m.solver.maxVar + 1) (hf : h.Fits N m.solver.assignment.trail) : Tracks m h :=
  ⟨⟨N, hN, hf⟩, fun hs => absurd hc (hs r)⟩

theorem Tracks.of_solving (hf : h.Fits (m.solver.maxVar + 1) m.solver.assignment.trail)
    (he : h.Eligible (m.solver.maxVar + 1) (m.solver.facts ++ m.assumedFacts)) : Tracks m h :=
  ⟨⟨_, Nat.le_refl _, hf⟩, fun _ => ⟨hf, he⟩⟩

section
variable [OfScientific D] [LT D] [DecidableLT D]

theorem Tracks.conclude (hf : h.Fits (s.maxVar + 1) s.assignment.trail) (ht : s.assignment.TrailInv)
    (hs : s.assignment.size ≤ s.maxVar + 1) (result : TBool) (failedAssumptions : List CNFLit) :
    ∃ h', h.prepareBacktrack s.assignment 0 = some h' ∧ Tracks (m.conclude s result failedAssumptions) h' := by
  obtain ⟨h', he, -, hf'⟩ := hf.backtrackAll ht hs
  refine ⟨h', he, .of_ready rfl (N := s.maxVar + 1) ?_ (hf'.mono (List.nil_subset _))⟩
  show s.maxVar + 1 ≤ (if result = .FALSE then s.finalizeProofOnUnsat else s).maxVar + 1
  split
  · rw [finalizeProofOnUnsat_maxVar]
  · exact Nat.le_refl _

end

section
variable (hinv : m.Inv) (ht : Tracks m h)
include hinv ht

theorem Tracks.idle {r : Option SolvingResult} (hc : m.control = .ready r) :
    ∃ N ≤ m.solver.maxVar + 1, h.Fits N [] := by
  obtain ⟨-, hat, -⟩ := hinv
  rw [hc] at hat
  cases hat with
  | ready r hd =>
    obtain ⟨R, K, Z, dead, hi, -⟩ := hd.idle
    have hf := ht.fits
    rw [hi.nil] at hf
    exact hf

theorem Tracks.addClause {clause : List CNFLit} (hs : m.step (.addClause clause) = some m') : Tracks m' h := by
  cases Machine.transition_of_step hs with
  | addClause hc =>
    obtain ⟨N, hN, hf⟩ := ht.idle hinv hc
    exact .of_ready rfl (hN.trans (Nat.succ_le_succ (le_addClause _ _))) (hf.mono (List.nil_subset _))

theorem Tracks.addProblem {clauses : List (List CNFLit)} (hs : m.step (.addProblem clauses) = some m') :
    Tracks m' h := by
  cases Machine.transition_of_step hs with
  | addProblem hc =>
    obtain ⟨N, hN, hf⟩ := ht.idle hinv hc
    exact .of_ready rfl (hN.trans (Nat.succ_le_succ (le_addProblem _ _))) (hf.mono (List.nil_subset _))

theorem Tracks.setDRATCertificate (hs : m.step .setDRATCertificate = some m') : Tracks m' h := by
  cases Machine.transition_of_step hs with
  | setDRATCertificate hc =>
    obtain ⟨N, hN, hf⟩ := ht.idle hinv hc
    exact .of_ready rfl hN (hf.mono (List.nil_subset _))

theorem Tracks.tryReduceClauseDB {sorted : List ClauseRef} {lowLBD : Bool}
    (hs : m.step (.tryReduceClauseDB sorted lowLBD) = some m') : Tracks m' h := by
  obtain ⟨hdata, hat, -⟩ := hinv
  cases Machine.transition_of_step hs with
  | reduce hc hp =>
    obtain ⟨hf, hel⟩ := ht.solving (hc ▸ fun r => Control.noConfusion)
    rw [hc] at hat
    cases hat with
    | simplified hr hres =>
      have hmax := (SameProblem.tryReduceClauseDB m.solver sorted lowLBD).maxVar
      rw [hres.idle.nil, ← hmax] at hf
      rw [← hmax] at hel
      refine .of_solving (hf.mono (List.nil_subset _)) (hel.congr rfl ?_)
      show _ ⊆ (m.solver.tryReduceClauseDB sorted lowLBD).facts ++ m.assumedFacts
      rw [tryReduceClauseDB_facts]
      exact List.Subset.refl _

end

section
variable [OfScientific D] [LT D] [DecidableLT D] [Add D] [Mul D] [Div D] [Min D] [LE D] [DecidableLE D]
  (hinv : m.Inv) (ht : Tracks m h)
include hinv ht

theorem Tracks.solve {A : List CNFLit} (hreg : (Event.solve A).Regular) (hs : m.step (.solve A) = some m') :
    ∃ h', h.step m (.solve A) = some h' ∧ Tracks m' h' := by
  have hdata := hinv.data
  unfold VSIDSBranchingHeuristic.step
  dsimp only
  cases Machine.transition_of_step hs with
  | solveDetected hc hd =>
    obtain ⟨N, hN, S, hh, hcover⟩ := ht.idle hinv hc
    rw [if_pos hd]
    refine ⟨h, rfl, .of_ready rfl (N := N) (hN.trans_eq ?_) ⟨S, hh, fun v hv => (hcover v hv).imp_right nofun⟩⟩
    rw [finalizeProofOnUnsat_maxVar]
  | solve hc hd =>
    obtain ⟨N, hN, S, hh, hcover⟩ := ht.idle hinv hc
    rw [if_neg (Bool.eq_false_iff.mp hd)]
    have hreg' := (hdata.prepareSolve hreg).regular
    obtain ⟨-, -, hvars⟩ := Restarted.prepareSolve hdata (s := m.solver) (by
      obtain ⟨-, hat, -⟩ := hinv
      rw [hc] at hat
      cases hat with
      | ready r hd => exact hd) hreg
    have hle : N ≤ (m.solver.prepareSolve A).maxVar + 1 := hN.trans (Nat.succ_le_succ (le_raiseMaxVar m.solver A))
    obtain ⟨h₁, S₁, he₁, hh₁, hsub, hnew⟩ := hh.increaseMaxVarTo hle
      (Nat.succ_le_of_lt (hreg'.trans_le (by decide)))
    obtain ⟨hh₂, hel⟩ := hh₁.initialized hvars
    refine ⟨h₁.initializeBranchingHeuristic
      (m.solver.prepareSolve A).maxVar A, by rw [he₁]; rfl, .of_solving ?_ ?_⟩
    · refine ⟨S₁, hh₂, fun v hv => .inl ?_⟩
      by_cases hvN : v < N
      · exact hsub ((hcover v hvN).resolve_right nofun)
      · exact hnew v (Nat.le_of_not_lt hvN) hv
    · exact hel.congr rfl (List.subset_append_right _ _)

theorem Tracks.stop (hs : m.step .stop = some m') : ∃ h', h.step m .stop = some h' ∧ Tracks m' h' := by
  have hb := hinv.control.bounds
  cases Machine.transition_of_step hs with
  | stop hc =>
    obtain ⟨hf, -⟩ := ht.solving (hc ▸ fun r => Control.noConfusion)
    exact Tracks.conclude hf hb.1 hb.2 _ _

theorem Tracks.finish (hs : m.step .finish = some m') : ∃ h', h.step m .finish = some h' ∧ Tracks m' h' := by
  have hb := hinv.control.bounds
  cases Machine.transition_of_step hs with
  | finish hc hcomplete =>
    obtain ⟨hf, -⟩ := ht.solving (hc ▸ fun r => Control.noConfusion)
    exact Tracks.conclude hf hb.1 hb.2 _ _

theorem Tracks.trySimplify (hs : m.step .trySimplify = some m') :
    ∃ h', h.step m .trySimplify = some h' ∧ Tracks m' h' := by
  obtain ⟨hdata, hat, -⟩ := hinv
  have hsame := (SameProblem.trySimplify m.solver).maxVar
  unfold VSIDSBranchingHeuristic.step
  cases Machine.transition_of_step hs with
  | simplifyRefuted hc he =>
    obtain ⟨hf, -⟩ := ht.solving (hc ▸ fun r => Control.noConfusion)
    rw [hc] at hat
    cases hat with
    | restarting hr hres hclean =>
      obtain ⟨-, hunsat, -⟩ := hres.trySimplify hdata
      rw [he] at hunsat hsame ⊢
      rw [hres.idle.nil, ← hsame] at hf
      obtain ⟨-, hdet⟩ := hunsat rfl
      obtain ⟨R, K, Z, dead, hi, -⟩ := hdet.idle
      exact Tracks.conclude (hf.mono (List.nil_subset _)) hi.trail hdet.size_le _ _
  | simplify hc he =>
    obtain ⟨hf, hel⟩ := ht.solving (hc ▸ fun r => Control.noConfusion)
    rw [hc] at hat
    cases hat with
    | restarting hr hres hclean =>
      have hfacts := hres.trySimplify_facts hdata
      rw [he] at hfacts hsame ⊢
      rw [hres.idle.nil, ← hsame] at hf
      rw [← hsame] at hel
      refine ⟨h, rfl, .of_solving (hf.mono (List.nil_subset _)) (hel.congr rfl ?_)⟩
      exact List.append_subset.mpr ⟨List.subset_append_of_subset_left _ hfacts, List.subset_append_right _ _⟩

theorem Tracks.propagateHardFacts (hs : m.step .propagateHardFacts = some m') :
    ∃ h', h.step m .propagateHardFacts = some h' ∧ Tracks m' h' := by
  obtain ⟨hdata, hat, -⟩ := hinv
  have hsame := (SameProblem.propagateHardFacts m.solver).maxVar
  -- the assignment is empty, and the calls in the loop mark facts only
  have key : m.control = .reduced →
      (propagateFacts m.solver.facts m.solver.assignment h).Fits (m.solver.maxVar + 1) [] ∧
      (propagateFacts m.solver.facts m.solver.assignment h).Eligible (m.solver.maxVar + 1)
        (m.solver.facts ++ m.assumedFacts) := by
    intro hc
    obtain ⟨⟨S, hh, hcover⟩, hel⟩ := ht.solving (hc ▸ fun r => Control.noConfusion)
    obtain ⟨hh', hel'⟩ := hh.propagateFacts m.solver.facts m.solver.assignment hel (List.subset_append_left _ _)
      fun l hl => Nat.lt_succ_of_le (hdata.fact_vars l hl)
    rw [hc] at hat
    cases hat with
    | reduced hr hres =>
      rw [hres.idle.nil] at hcover
      exact ⟨⟨S, hh', hcover⟩, hel'⟩
  unfold VSIDSBranchingHeuristic.step
  dsimp only
  cases Machine.transition_of_step hs with
  | factsRefuted hc he =>
    obtain ⟨hf, -⟩ := key hc
    rw [hc] at hat
    cases hat with
    | reduced hr hres =>
      obtain ⟨htrail, hsize, -⟩ := hres.facts_propagateHardFacts hdata
      rw [← hsame] at hf hsize
      rw [he] at hf htrail hsize ⊢
      exact Tracks.conclude (hf.mono (List.nil_subset _)) htrail hsize.le _ _
  | facts hc he =>
    obtain ⟨hf, hel⟩ := key hc
    rw [hc] at hat
    cases hat with
    | reduced hr hres =>
      obtain ⟨-, -, hfacts⟩ := hres.facts_propagateHardFacts hdata
      rw [← hsame] at hf hel
      rw [he] at hf hel hfacts ⊢
      refine ⟨_, rfl, .of_solving (hf.mono (List.nil_subset _)) (hel.congr rfl ?_)⟩
      exact List.append_subset.mpr ⟨List.subset_append_of_subset_left _ hfacts, List.subset_append_right _ _⟩

theorem Tracks.propagateAssumedFacts (hs : m.step .propagateAssumedFacts = some m') :
    ∃ h', h.step m .propagateAssumedFacts = some h' ∧ Tracks m' h' := by
  obtain ⟨hdata, hat, -⟩ := hinv
  unfold VSIDSBranchingHeuristic.step CDCLSatSolver.propagateAssumedFacts
  dsimp only
  cases Machine.transition_of_step hs with
  | @assumptionsRefuted s fact failed hc he ha =>
    obtain ⟨⟨S, hh, hcover⟩, hel⟩ := ht.solving (hc ▸ fun r => Control.noConfusion)
    rw [hc] at hat
    cases hat with
    | assuming hr hsearch hsteady h₁ =>
      obtain ⟨hh', -⟩ := hh.propagateFacts m.assumedFacts m.solver.assignment hel (List.subset_append_right _ _)
        fun l hl => Nat.lt_succ_of_le (hr.vars l hl)
      obtain ⟨⟨hstop, hg, -⟩, hsim, -⟩ := hsearch.propagated hdata hsteady h₁ hr.vars he
      have hf' : Fits (propagateFacts m.assumedFacts m.solver.assignment h) (m.solver.maxVar + 1)
        m.solver.assignment.trail := ⟨S, hh', hcover⟩
      have hsize : s.assignment.size = m.solver.maxVar + 1 := hg.grows.size.trans hsearch.size_eq
      rw [← hsim.maxVar] at hf' hsize
      rw [he]
      dsimp only
      rw [ha]
      exact Tracks.conclude (hf'.mono hg.grows.trail.subset) hstop.core.trail hsize.le _ _
  | @assumptions s hc he =>
    obtain ⟨⟨S, hh, hcover⟩, hel⟩ := ht.solving (hc ▸ fun r => Control.noConfusion)
    rw [hc] at hat
    cases hat with
    | assuming hr hsearch hsteady h₁ =>
      obtain ⟨hh', hel'⟩ := hh.propagateFacts m.assumedFacts m.solver.assignment hel (List.subset_append_right _ _)
        fun l hl => Nat.lt_succ_of_le (hr.vars l hl)
      obtain ⟨⟨-, hg, -⟩, hsim, -⟩ := hsearch.propagated hdata hsteady h₁ hr.vars he
      have hf' : Fits (propagateFacts m.assumedFacts m.solver.assignment h) (m.solver.maxVar + 1)
        m.solver.assignment.trail := ⟨S, hh', hcover⟩
      rw [← hsim.maxVar] at hf' hel'
      rw [← hsim.facts] at hel'
      rw [he]
      exact ⟨_, rfl, .of_solving (hf'.mono hg.grows.trail.subset) hel'⟩

theorem Tracks.continue {shouldRestart stopRequested : Bool}
    (hs : m.step (.continue shouldRestart stopRequested) = some m') :
    ∃ h', h.step m (.continue shouldRestart stopRequested) = some h' ∧ Tracks m' h' := by
  have hb := hinv.control.bounds
  unfold VSIDSBranchingHeuristic.step
  dsimp only
  cases Machine.transition_of_step hs with
  | restart hc =>
    obtain ⟨hf, hel⟩ := ht.solving (hc ▸ fun r => Control.noConfusion)
    obtain ⟨h', he, hd, hf'⟩ := hf.backtrackAll hb.1 hb.2
    rw [Bool.true_or, if_pos rfl]
    exact ⟨h', he, .of_solving (hf'.mono (List.nil_subset _)) (hel.congr hd (List.Subset.refl _))⟩
  | stopped hc hn =>
    obtain ⟨hf, -⟩ := ht.solving (hc ▸ fun r => Control.noConfusion)
    rw [if_pos (by simp [hn])]
    exact Tracks.conclude hf hb.1 hb.2 _ _
  | «continue» hc hn =>
    obtain ⟨hf, hel⟩ := ht.solving (hc ▸ fun r => Control.noConfusion)
    rw [if_neg (by simpa using hn)]
    exact ⟨h, rfl, .of_solving hf hel⟩

omit hinv ht

/-- The literals that are on the trail when the loop of `resolveDecision` goes on or restarts. -/
def keptTrail : ResolveResult × CDCLSatSolver → List CNFLit
  | (.restart, _) => []
  | (_, t) => t.assignment.trail

omit [Add D] [Mul D] [Div D] [Min D] [LE D] [DecidableLE D] in
theorem Fits.afterLemma {N : Nat} {e : ResolveResult × CDCLSatSolver} (hf : h.Fits N e.2.assignment.trail)
    (ht : e.2.assignment.TrailInv) (hs : e.2.assignment.size ≤ N) :
    ∃ h', (match e with
        | (.restart, u) => h.prepareBacktrack u.assignment 0
        | _ => some h) = some h' ∧
      h'.m_decisionVariables = h.m_decisionVariables ∧ h'.Fits N (keptTrail e) := by
  obtain ⟨r, u⟩ := e
  cases r with
  | restart => exact hf.backtrackAll ht hs
  | «continue» => exact ⟨h, rfl, rfl, hf⟩
  | conflict c => exact ⟨h, rfl, rfl, hf⟩

theorem Fits.resolveConflict {Φ : Set (Finset CNFLit)} {K Z : Set ClauseRef} {dead : Set CNFLit} {A : List CNFLit}
    {c : ClauseRef} (hassumed : Assumed K dead A s) (hdata : Data Φ s)
    (hclash : Assignment.Clash s.clauses K Z dead c s.assignment)
    (h₂ : 2 ≤ s.assignment.currentLevel) (hf : h.Fits (s.maxVar + 1) s.assignment.trail) (lowLBD : Bool) :
    ∃ h' e, h.resolveConflict s lowLBD c = some h' ∧ s.resolveConflict lowLBD c = some e ∧
      h'.m_decisionVariables = h.m_decisionVariables ∧ h'.Fits (s.maxVar + 1) (keptTrail e) ∧
      e.2.maxVar = s.maxVar ∧ s.facts ⊆ e.2.facts := by
  have hsize : s.assignment.size ≤ s.maxVar + 1 := hassumed.size_eq.le
  obtain ⟨S, hh, hcover⟩ := hf
  obtain ⟨hh₁, hd₁⟩ := hh.beginHandlingConflict
  obtain ⟨h₂', he₂, hh₂, hd₂⟩ :=
    hh₁.seenInConflict (FirstUIPLearning.seenVariables s.assignment.provider (s.mem c).lits)
  have hf₂ : h₂'.endHandlingConflict.Fits (s.maxVar + 1) s.assignment.trail :=
    ⟨S, ⟨hh₂.indexed, hh₂.heap_length, hh₂.activity, hh₂.decisions, hh₂.bound⟩, hcover⟩
  have hdec : h₂'.endHandlingConflict.m_decisionVariables = h.m_decisionVariables := hd₂.trans hd₁
  obtain ⟨lits, k, hl, hres⟩ := hassumed.toSearching.deriveLemma hdata hclash h₂ lowLBD
  unfold VSIDSBranchingHeuristic.resolveConflict CDCLSatSolver.resolveConflict
  cases hres with
  | inl hres =>
    obtain ⟨l, -, -, he⟩ := hres
    obtain ⟨h', he', hd', hf'⟩ := hf₂.backtrackAll hclash.core.trail hsize
    refine ⟨h', s.registerConflict.learn (.fact l), ?_, by rw [he]; rfl, hd'.trans hdec, hf', rfl,
      List.subset_append_left _ _⟩
    rw [he]
    dsimp only [Option.bind_eq_bind, Option.bind_some]
    rw [he₂]
    exact he'
  | inr hres =>
    obtain ⟨hlen, he⟩ := hres
    obtain ⟨r, hr⟩ : ∃ r, r = s.resumed lits k := ⟨_, rfl⟩
    have hsame := Assignment.sameTrail_writeClause s.assignment s.nextClause (.ofLits lits)
    have hra : r.assignment = (s.assignment.writeClause s.nextClause (lemmaClause lits)).undoToLevel k :=
      hr ▸ resumed_assignment s lits k
    -- the levels above that of the lemma are undone
    have hft : h₂'.endHandlingConflict.Fits (s.maxVar + 1) (s.addLemma lits).assignment.trail := by
      rw [addLemma_assignment, hsame.trail]
      exact hf₂
    obtain ⟨h', he', hd', hf'⟩ := hft.backtrackToLevel (k := k)
      (by rw [addLemma_assignment]; exact hsame.trailInv hclash.core.trail)
      (by rw [addLemma_assignment]; exact hsize)
      (by rw [addLemma_assignment]; exact hl.lt)
    have htrail : ((s.addLemma lits).assignment.undoToLevel k).trail = r.assignment.trail := by
      rw [addLemma_assignment, hra, Assignment.undoToLevel_trail, Assignment.undoToLevel_trail]
      rfl
    rw [htrail] at hf'
    obtain ⟨u, hu⟩ : ∃ u, u = r.registerLemma s.nextClause := ⟨_, rfl⟩
    have hend : u.2.assignment.TrailInv ∧ r.assignment.Grows u.2.assignment :=
      hu ▸ grows_registerLemma_resumed hdata hclash hl hlen hr
    have hur : u.2.maxVar = r.maxVar ∧ u.2.facts = r.facts := by
      subst hu
      exact ⟨rfl, rfl⟩
    have hrsize : r.assignment.size = s.assignment.size := by
      rw [hra, Assignment.undoToLevel_size]
      rfl
    have hfu : h'.Fits (s.maxVar + 1) (CDCLSatSolver.afterLemma k u).2.assignment.trail := by
      rw [afterLemma_snd]
      exact hf'.mono hend.2.trail.subset
    obtain ⟨h'', he'', hd'', hf''⟩ := Fits.afterLemma hfu
      (by rw [afterLemma_snd]; exact hend.1)
      (by rw [afterLemma_snd]; exact (hend.2.size.trans hrsize).trans_le hsize)
    have hlearn :
        (s.addLemma lits).registerConflict.learn (.clause s.nextClause k) = CDCLSatSolver.afterLemma k u := by
      rw [hu, hr]
      rfl
    refine ⟨h'', CDCLSatSolver.afterLemma k u, ?_, ?_, hd''.trans (hd'.trans hdec), hf'', ?_, ?_⟩
    · rw [he]
      dsimp only [Option.bind_eq_bind, Option.bind_some]
      rw [he₂]
      dsimp only [Option.bind_some]
      rw [he', hlearn]
      exact he''
    · rw [he]
      exact congrArg some hlearn
    · rw [afterLemma_snd, hur.1, hr, resumed_maxVar]
    · rw [afterLemma_snd, hur.2, hr, resumed_facts]
      exact List.Subset.refl _

include hinv ht

theorem Tracks.resolved {lowLBD : Bool} {c : ClauseRef} (hc : m.control = .conflict c)
    {e : ResolveResult × CDCLSatSolver} (he : m.solver.resolveConflict lowLBD c = some e) :
    ∃ h', h.step m (.resolve lowLBD) = some h' ∧ h'.Fits (e.2.maxVar + 1) (keptTrail e) ∧
      h'.Eligible (e.2.maxVar + 1) (e.2.facts ++ m.assumedFacts) := by
  obtain ⟨hdata, hat, -⟩ := hinv
  obtain ⟨hf, hel⟩ := ht.solving (hc ▸ fun r => Control.noConfusion)
  have hstep : h.step m (.resolve lowLBD) = h.resolveConflict m.solver lowLBD c := by
    simp only [VSIDSBranchingHeuristic.step, hc]
  rw [hc] at hat
  cases hat with
  | conflict hr hassumed hclash h₂ =>
    obtain ⟨h', e', hres, he', hd, hf', hmax, hfacts⟩ := Fits.resolveConflict hassumed hdata hclash h₂ hf lowLBD
    obtain rfl := Option.some.inj (he.symm.trans he')
    rw [← hmax] at hf'
    refine ⟨h', hstep.trans hres, hf', ?_⟩
    rw [hmax]
    refine hel.congr hd (List.append_subset.mpr ⟨?_, List.subset_append_right _ _⟩)
    exact List.subset_append_of_subset_left _ hfacts

theorem Tracks.resolve {lowLBD : Bool} (hs : m.step (.resolve lowLBD) = some m') :
    ∃ h', h.step m (.resolve lowLBD) = some h' ∧ Tracks m' h' := by
  cases Machine.transition_of_step hs with
  | resolve hc he =>
    obtain ⟨h', hstep, hf', hel'⟩ := ht.resolved hinv hc he
    exact ⟨h', hstep, .of_solving hf' hel'⟩
  | resolveRestart hc he =>
    obtain ⟨h', hstep, hf', hel'⟩ := ht.resolved hinv hc he
    exact ⟨h', hstep, .of_solving (hf'.mono (List.nil_subset _)) hel'⟩
  | resolveConflict hc he =>
    obtain ⟨h', hstep, hf', hel'⟩ := ht.resolved hinv hc he
    exact ⟨h', hstep, .of_solving hf' hel'⟩

omit [Add D] [Mul D] [Div D] [Min D] [LE D] [DecidableLE D] in
/-- A branching literal exists, and its variable stays tracked when it is appended. -/
theorem Tracks.pick (hc : m.control = .deciding) (hi : m.solver.assignment.isComplete = false) :
    ∃ l h', h.pickBranchLiteral m.solver.newLevel.assignment = some (l, h') ∧
      m.solver.assignment.getAssignment l = .INDETERMINATE ∧ l.var ≤ m.solver.maxVar ∧
      ∀ m', m.step (.decide l) = some m' → Tracks m' h' := by
  obtain ⟨⟨S, hh, hcover⟩, hel⟩ := ht.solving (by rw [hc]; exact fun r => Control.noConfusion)
  obtain ⟨hdata, hat, -⟩ := hinv
  rw [hc] at hat
  cases hat with
  | deciding hr hassumed hsteady =>
    have htrail := hsteady.trailInv
    have hindet : ∀ l ∈ m.solver.assignment.trail, m.solver.assignment.assignments l.var ≠ .INDETERMINATE := by
      intro l hl hv
      exact (htrail.indet_iff.mp (Assignment.getAssignment_eq_indet.mpr hv)).1 hl
    have hassigned : ∀ v < m.solver.maxVar + 1, h.isEligibleForDecisions v = false →
        ∃ l ∈ m.solver.assignment.trail, l.var = v := by
      intro v hv hne
      obtain ⟨l, hl, hlv⟩ := hel v hv hne
      cases List.mem_append.mp hl with
      | inl hl => exact ⟨l, (hassumed.rooted.facts_mem l hl).1, hlv⟩
      | inr hl => exact ⟨l, (hassumed.held l hl).1, hlv⟩
    obtain ⟨v, hv, hvs⟩ := htrail.exists_unassigned hi
    rw [hassumed.size_eq] at hv
    have hvS : v ∈ S := (hcover v hv).resolve_right fun ⟨l, hl, hlv⟩ => hindet l hl (hlv ▸ hvs)
    have hve : h.isEligibleForDecisions v = true := by
      refine Bool.eq_true_of_not_eq_false fun hne => ?_
      obtain ⟨l, hl, hlv⟩ := hassigned v hv hne
      exact hindet l hl (hlv ▸ hvs)
    obtain ⟨l, h', S', hp, hh', hd, hlS, hls, -, hrest⟩ :=
      hh.pickBranchLiteral (s := m.solver.newLevel.assignment) hvS hvs hve
    have hlmax : l.var < m.solver.maxVar + 1 := hh.lt hlS
    refine ⟨l, h', hp, Assignment.getAssignment_eq_indet.mpr hls, Nat.lt_succ_iff.mp hlmax, fun m' hs => ?_⟩
    obtain ⟨-, ha⟩ := appended_newLevel hsteady hassumed.size_eq (Assignment.getAssignment_eq_indet.mpr hls)
      (Nat.lt_succ_iff.mp hlmax)
    have hold : ∀ x ∈ m.solver.assignment.trail ++ [l], x ∈ (m.solver.newLevel.append l).2.assignment.trail :=
      fun x hx => ha.next.subset hx
    have happend : ∀ c : Control, Tracks { m with solver := (m.solver.newLevel.append l).2, control := c } h' := by
      intro c
      refine .of_solving ⟨S', hh', fun w hw => ?_⟩ (hel.congr hd (List.Subset.refl _))
      by_cases hwt : ∃ x ∈ m.solver.assignment.trail, x.var = w
      · obtain ⟨x, hx, hxw⟩ := hwt
        exact .inr ⟨x, hold x (List.mem_append_left _ hx), hxw⟩
      · cases hrest w ((hcover w hw).resolve_right hwt) with
        | inl hw => exact .inl hw
        | inr hw =>
          cases hw with
          | inl hw => exact .inr ⟨l, hold l (List.mem_append_right _ (List.mem_singleton_self l)), hw.symm⟩
          | inr hw =>
            refine absurd ?_ hwt
            cases hw with
            | inl hws => exact htrail.exists_mem hws
            | inr hwe => exact hassigned w hw hwe
    cases Machine.transition_of_step hs with
    | decide _ _ he =>
      rw [he] at happend
      exact happend _
    | decideConflict _ _ he =>
      rw [he] at happend
      exact happend _

/-- The heuristic follows each step of the solver that is not a decision. -/
theorem Tracks.follow {e : Event} (hreg : e.Regular) (hd : ∀ l, e ≠ .decide l) (hs : m.step e = some m') :
    ∃ h', h.step m e = some h' ∧ Tracks m' h' := by
  cases e with
  | addClause clause => exact ⟨h, rfl, ht.addClause hinv hs⟩
  | addProblem clauses => exact ⟨h, rfl, ht.addProblem hinv hs⟩
  | setDRATCertificate => exact ⟨h, rfl, ht.setDRATCertificate hinv hs⟩
  | solve assumedFacts => exact ht.solve hinv hreg hs
  | stop => exact ht.stop hinv hs
  | trySimplify => exact ht.trySimplify hinv hs
  | tryReduceClauseDB sorted lowLBD => exact ⟨h, rfl, ht.tryReduceClauseDB hinv hs⟩
  | propagateHardFacts => exact ht.propagateHardFacts hinv hs
  | propagateAssumedFacts => exact ht.propagateAssumedFacts hinv hs
  | decide l => exact absurd rfl (hd l)
  | resolve lowLBD => exact ht.resolve hinv hs
  | «continue» shouldRestart stopRequested => exact ht.continue hinv hs
  | finish => exact ht.finish hinv hs

theorem Tracks.decide {l : CNFLit} (hs : m.step (.decide l) = some m') (hh : h.step m (.decide l) = some h') :
    Tracks m' h' := by
  have hcond := Machine.deciding_of_step hs
  obtain ⟨l', h'', hp, -, -, hnext⟩ := ht.pick hinv hcond.1 hcond.2
  unfold VSIDSBranchingHeuristic.step at hh
  dsimp only at hh
  rw [hp] at hh
  dsimp only [Option.bind_eq_bind, Option.bind_some] at hh
  split at hh
  · rename_i hl
    cases hh
    exact hnext m' (hl ▸ hs)
  · cases hh

theorem Tracks.step {e : Event} (hreg : e.Regular) (hs : m.step e = some m') (hh : h.step m e = some h') :
    Tracks m' h' := by
  by_cases hd : ∃ l, e = .decide l
  · obtain ⟨l, rfl⟩ := hd
    exact ht.decide hinv hs hh
  · obtain ⟨h'', he, ht'⟩ := ht.follow hinv hreg (not_exists.mp hd) hs
    obtain rfl := Option.some.inj (he.symm.trans hh)
    exact ht'

end

section
variable [OfScientific D] [LT D] [DecidableLT D] [Add D] [Mul D] [Div D] [Min D] [LE D] [DecidableLE D]
  {b b' : BranchingMachine D}

structure Inv (b : BranchingMachine D) : Prop where
  machine : b.machine.Inv
  tracks : Tracks b.machine b.m_branchingHeuristic

omit [Add D] [Mul D] [Div D] [Min D] [LE D] [DecidableLE D] in
theorem Inv.new {h : VSIDSBranchingHeuristic D} (hh : VSIDSBranchingHeuristic.new 0 = some h) : Inv ⟨.new, h⟩ := by
  have hle : 0 + 1 ≤ BinaryMaxHeap.maxIndex := by decide
  obtain ⟨h', S, he, hholds, hall⟩ := new_spec (D := D) hle
  obtain rfl := Option.some.inj (he.symm.trans hh)
  exact ⟨Machine.Inv.new, .of_ready rfl (Nat.le_refl 1) ⟨S, hholds, fun v hv => .inl (hall v hv)⟩⟩

theorem step_eq_some {e : Event} (h : b.step e = some b') : b.machine.step e = some b'.machine ∧
    b.m_branchingHeuristic.step b.machine e = some b'.m_branchingHeuristic := by
  unfold BranchingMachine.step at h
  obtain ⟨h', he, h⟩ := Option.bind_eq_some_iff.mp h
  obtain ⟨m', hm, h⟩ := Option.bind_eq_some_iff.mp h
  cases h
  exact ⟨hm, he⟩

theorem Inv.of_reachable (h : b.Reachable) : b.Inv := by
  apply h.invariant
  · rintro ⟨m, h⟩ ⟨rfl, hh⟩
    exact .new hh
  · intro b b' hi hs
    obtain ⟨e, hreg, hs⟩ := hs
    obtain ⟨hm, hh⟩ := step_eq_some hs
    exact ⟨hi.machine.step hreg hm, hi.tracks.step hi.machine hreg hm hh⟩

/-- The heuristic stops no step of the solver but the decisions that it does not take. -/
theorem step_of_machine (h : b.Reachable) {e : Event} (hreg : e.Regular) (hd : ∀ l, e ≠ .decide l) {m : Machine}
    (hs : b.machine.step e = some m) : ∃ b', b.step e = some b' ∧ b'.machine = m := by
  obtain ⟨hinv, ht⟩ := Inv.of_reachable h
  obtain ⟨h', he, -⟩ := ht.follow hinv hreg hd hs
  refine ⟨⟨m, h'⟩, ?_, rfl⟩
  unfold BranchingMachine.step
  rw [he, hs]
  rfl

theorem pickBranchLiteral_unassigned (h : b.Reachable) (hc : b.machine.control = .deciding)
    (hi : b.machine.solver.assignment.isComplete = false) :
    ∃ decision h', b.m_branchingHeuristic.pickBranchLiteral b.machine.solver.newLevel.assignment =
      some (decision, h') ∧
      decision ≠ CNFLit.undefinedLiteral ∧ decision.var ≤ b.machine.solver.maxVar ∧
      b.machine.solver.newLevel.assignment.getAssignment decision = .INDETERMINATE ∧
      ∃ b', b.step (.decide decision) = some b' := by
  obtain ⟨hinv, ht⟩ := Inv.of_reachable h
  obtain ⟨l, h', hp, hl, hv, -⟩ := ht.pick hinv hc hi
  refine ⟨l, h', hp, fun hu => ?_, hv, hl, ?_⟩
  · subst hu
    exact absurd hinv.data.regular (Nat.not_lt_of_le hv)
  · have hh : b.m_branchingHeuristic.step b.machine (.decide l) = some h' := by
      unfold VSIDSBranchingHeuristic.step
      dsimp only
      rw [hp]
      exact if_pos rfl
    unfold BranchingMachine.step Machine.step
    rw [hh, hc]
    dsimp only [Option.bind_eq_bind, Option.bind_some]
    rw [if_pos ⟨hi, hl, hv⟩]
    generalize b.machine.solver.newLevel.append l = e
    obtain ⟨_ | c, t⟩ := e
    · exact ⟨_, rfl⟩
    · exact ⟨_, rfl⟩

end

def firstDecision : Option (BranchingMachine Rat) :=
  (VSIDSBranchingHeuristic.new 0).bind fun h => (Machine.firstConflict.take 7).foldlM step ⟨.new, h⟩

theorem firstDecision_reachable {b : BranchingMachine Rat} (h : firstDecision = some b) : b.Reachable := by
  unfold firstDecision at h
  generalize hn : VSIDSBranchingHeuristic.new (D := Rat) 0 = e at h
  obtain ⟨h₀, rfl, hr⟩ := Option.bind_eq_some_iff.mp h
  have hreg : ∀ e ∈ Machine.firstConflict.take 7, e.Regular := by decide
  exact Runs.Reachable.foldlM (.init ⟨rfl, hn⟩) (fun e he _ _ hs => ⟨e, hreg e he, hs⟩) hr

theorem firstDecision_unassigned : ∃ b decision h', firstDecision = some b ∧
    b.m_branchingHeuristic.pickBranchLiteral b.machine.solver.newLevel.assignment = some (decision, h') ∧
      decision ≠ CNFLit.undefinedLiteral ∧ decision.var ≤ b.machine.solver.maxVar ∧
      b.machine.solver.newLevel.assignment.getAssignment decision = .INDETERMINATE ∧
      ∃ b', b.step (.decide decision) = some b' := by
  have hnext : (firstDecision.bind fun b => b.machine.step (.decide ⟨0, .negative⟩)).isSome = true := by
    decide +kernel
  obtain ⟨m, hm⟩ := Option.isSome_iff_exists.mp hnext
  obtain ⟨b, hb, hs⟩ := Option.bind_eq_some_iff.mp hm
  obtain ⟨hc, hi⟩ := Machine.deciding_of_step hs
  obtain ⟨decision, h', hp⟩ := pickBranchLiteral_unassigned (firstDecision_reachable hb) hc hi
  exact ⟨b, decision, h', hb, hp⟩

end BranchingMachine

end JamSAT
