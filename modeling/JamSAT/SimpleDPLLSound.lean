import JamSAT.CNFProblemSound
import JamSAT.Extendable
import JamSAT.FailedAssumptions
import JamSAT.SimpleDPLL

/-!
# The DPLL solver decides satisfiability

A branch leaves the trail as it has found it, and it answers whether the literals of
the trail and its own can be extended to a model of the clauses.
-/

namespace JamSAT

open UnitLogic Assignment

namespace Assignment

variable {Φ : Set (Finset CNFLit)} {R K Z : Set ClauseRef} {dead : Set CNFLit} {s t u : Assignment} {l : CNFLit}

structure Restored (s t : Assignment) : Prop where
  grows : Grows s t
  trail_eq : t.trail = s.trail

theorem Restored.trans (h : Restored s t) (h' : Restored t u) : Restored s u :=
  ⟨h.grows.trans h'.grows, h'.trail_eq.trans h.trail_eq⟩

/-- Going back to the level that `s` is on. -/
theorem Grows.restored (h : Grows s.newLevel t) (hs : s.TrailInv) :
    Restored s (t.undoToLevel s.currentLevel) := by
  have hlength := hs.limits_length
  have hlimits : t.levelLimits = s.levelLimits ++ [s.trail.length] := h.levelLimits
  have hlimit : t.levelLimit (s.currentLevel + 1) = s.trail.length := by
    rw [levelLimit, hlimits, ← hlength, List.getD_eq_getElem?_getD, List.getElem?_concat_length]
    rfl
  have htrail : (t.undoToLevel s.currentLevel).trail = s.trail := by
    rw [undoToLevel_trail, hlimit]
    exact (List.prefix_iff_eq_take.mp h.trail).symm
  refine ⟨⟨?_, ?_, rfl, htrail ▸ List.prefix_refl _, fun l hl => ?_, fun c => ?_, fun c => ?_, fun c => ?_, fun c => ?_⟩,
    htrail⟩
  · exact (undoToLevel_size _ _).trans h.size
  · rw [undoToLevel_levelLimits, hlimits, ← hlength, List.take_left']
    rfl
  · rw [undoToLevel_reasonsAndALs]
    exact h.kept l hl
  · rw [undoToLevel_mem]
    exact h.lits c
  · rw [undoToLevel_mem]
    exact h.redundant c
  · rw [undoToLevel_mem]
    exact h.scheduledForDeletion c
  · rw [undoToLevel_mem]
    exact h.modified c

theorem TrailInv.indet_congr (hs : s.TrailInv) (ht : t.TrailInv) (h : t.trail = s.trail) {v : CNFVar} :
    t.assignments v = .INDETERMINATE ↔ s.assignments v = .INDETERMINATE := by
  have hvar : ∀ u : Assignment, u.assignments v = .INDETERMINATE ↔ u.getAssignment ⟨v, .positive⟩ = .INDETERMINATE :=
    fun u => (getAssignment_eq_indet (s := u) (l := ⟨v, .positive⟩)).symm
  rw [hvar, hvar, ht.indet_iff, hs.indet_iff, h]

/-- The trail follows from an earlier one and from the literal that has been appended. -/
theorem Appended.derives (h : Appended l none s t) (hc : Core R K Z dead t) (hΦ : clauseSets t.mem R ⊆ Φ) :
    ∀ x ∈ t.trail, Derives Φ (insert l {x | x ∈ s.trail}) x := by
  intro x hx
  refine hc.derives hΦ (fun x hx _ hr => .given ?_) x hx (hc.trail.level_le x hx)
  cases h.forced x hx with
  | inl hs => exact .inr hs
  | inr hf =>
    cases hf with
    | inl he => exact .inl he
    | inr hf => exact absurd hr hf

theorem Appended.subset (h : Appended l none s.newLevel t) : insert l {x | x ∈ s.trail} ⊆ {x | x ∈ t.trail} := by
  intro x hx
  cases hx with
  | inl he => exact he ▸ h.mem
  | inr hs => exact h.grows.trail.subset hs

theorem clauseSets_writeClause {c : ClauseRef} {cl : Clause} (hc : c ∉ R) :
    clauseSets (s.writeClause c cl).mem (insert c R) = insert cl.litSet (clauseSets s.mem R) := by
  have hold : ∀ r ∈ R, (s.writeClause c cl).mem r = s.mem r := fun r hr => writeClause_mem_of_ne fun he => hc (he ▸ hr)
  ext C
  constructor
  · rintro ⟨r, rfl | hr, rfl⟩
    · exact .inl (congrArg Clause.litSet (writeClause_mem_self s r cl))
    · exact .inr ⟨r, hr, by rw [hold r hr]⟩
  · rintro (rfl | ⟨r, hr, rfl⟩)
    · exact ⟨c, .inl rfl, by rw [writeClause_mem_self]⟩
    · exact ⟨r, .inr hr, by rw [hold r hr]⟩

end Assignment

def valuationOfTrail (trail : List CNFLit) : Valuation CNFLit :=
  valuationOfSigns fun v => if ⟨v, .positive⟩ ∈ trail then .positive else .negative

theorem valuationOfTrail_holds {trail : List CNFLit} (hc : ∀ l ∈ trail, -l ∉ trail) :
    ∀ l ∈ trail, (valuationOfTrail trail).holds l := by
  rintro ⟨v, sign⟩ hl
  show sign = if ⟨v, .positive⟩ ∈ trail then CNFSign.positive else .negative
  cases sign with
  | positive => rw [if_pos hl]
  | negative =>
    have hn : (⟨v, .positive⟩ : CNFLit) ∉ trail := hc _ hl
    rw [if_neg hn]

namespace SimpleDPLL

variable {Φ : Set (Finset CNFLit)} {d : SimpleDPLL} {t : Assignment} {l : CNFLit} {fuel : Nat}

def registered (d : SimpleDPLL) : Set ClauseRef := {c | c < d.m_clauses.length}

structure Holds (Φ : Set (Finset CNFLit)) (d : SimpleDPLL) (t : Assignment) : Prop where
  ready : Ready d.registered d.registered ∅ ∅ t
  size : t.size = d.m_maxVar + 1
  sound : clauseSets t.mem d.registered ⊆ Φ
  complete : ∀ C ∈ Φ, C ∈ clauseSets t.mem d.registered ∨ ∃ x ∈ t.trail, C = {x}
  regular : d.m_maxVar < CNFVar.undefinedVariable
  vars : ∀ C ∈ Φ, ∀ x ∈ C, x.var ≤ d.m_maxVar

section
variable (h : Holds Φ d t)
include h

theorem Holds.grow {u : Assignment} (hg : Grows t u) (hu : Ready d.registered d.registered ∅ ∅ u) : Holds Φ d u := by
  have hsets : clauseSets u.mem d.registered = clauseSets t.mem d.registered := clauseSets_congr hg.lits
  refine ⟨hu, hg.size.trans h.size, hsets ▸ h.sound, fun C hC => ?_, h.regular, h.vars⟩
  rw [hsets]
  exact (h.complete C hC).imp_right fun ⟨x, hx, he⟩ => ⟨x, hg.trail.subset hx, he⟩

/-- A complete assignment without a conflict is a model. -/
theorem Holds.extendable (hc : t.isComplete = true) : Extendable Φ {x | x ∈ t.trail} := by
  have ht := h.ready.core.trail
  refine ⟨valuationOfTrail t.trail, fun C hC => ?_, valuationOfTrail_holds fun x hx => ht.neg_not_mem hx⟩
  cases h.complete C hC with
  | inr hunit =>
    obtain ⟨x, hx, rfl⟩ := hunit
    exact ⟨x, Finset.mem_singleton_self x, valuationOfTrail_holds (fun x hx => ht.neg_not_mem hx) x hx⟩
  | inl hclause =>
    obtain ⟨c, hcR, rfl⟩ := hclause
    have hnot := ((Steady.ready h.ready).notUnit (fun x hx => hx.elim) hcR).not_falsified
    by_contra hn
    refine hnot fun x hx => ?_
    have hxv : x.var < t.size :=
      (Nat.lt_succ_of_le (h.vars _ (h.sound (mem_clauseSets hcR)) x (Clause.mem_litSet.mpr hx))).trans_eq h.size.symm
    cases hval : t.getAssignment x with
    | FALSE => rfl
    | INDETERMINATE => exact absurd hval (CDCLSatSolver.getAssignment_ne_indet ht hc hxv)
    | TRUE =>
      have hxt : x ∈ t.trail := (ht.mem_trail x).mpr hval
      exact absurd ⟨x, Clause.mem_litSet.mpr hx, valuationOfTrail_holds (fun x hx => ht.neg_not_mem hx) x hxt⟩ hn

end

/-! ## The branching variable -/

theorem skipDeterminate_spec {result : Nat} (hf : d.m_maxVar + 1 < result + fuel) :
    result ≤ d.skipDeterminate fuel result ∧
    (∀ v, result ≤ v → v < d.skipDeterminate fuel result →
      v ≤ d.m_maxVar ∧ (d.m_assignment.assignments v).isDeterminate = true) ∧
    (d.skipDeterminate fuel result ≤ d.m_maxVar →
      (d.m_assignment.assignments (d.skipDeterminate fuel result)).isDeterminate = false) := by
  induction fuel generalizing result with
  | zero =>
    refine ⟨Nat.le_refl _, fun v hle hlt => absurd hlt (Nat.not_lt.mpr hle), fun hle => ?_⟩
    have hle : result ≤ d.m_maxVar := hle
    omega
  | succ fuel ih =>
    unfold skipDeterminate
    split
    · rename_i hs
      have hf : d.m_maxVar + 1 < (result + 1) + fuel := by omega
      obtain ⟨hle, hskip, hstop⟩ := ih hf
      refine ⟨(Nat.le_succ result).trans hle, fun v hv hlt => ?_, hstop⟩
      by_cases he : v = result
      · exact he ▸ hs
      · exact hskip v (by omega) hlt
    · rename_i hs
      refine ⟨Nat.le_refl _, fun v hle hlt => absurd hlt (Nat.not_lt.mpr hle), fun hle => ?_⟩
      exact Bool.eq_false_of_not_eq_true fun hdet => hs ⟨hle, hdet⟩

theorem getBranchingVariable_spec (ht : d.m_assignment.TrailInv) (hs : d.m_assignment.size = d.m_maxVar + 1)
    (hc : d.m_assignment.isComplete = false) (hlevel : d.m_assignment.currentLevel ≠ 0)
    (hbelow : ∀ v < d.m_assignment.currentLevel - 1, d.m_assignment.assignments v ≠ .INDETERMINATE) :
    ∃ v, d.getBranchingVariable = some v ∧ v ≤ d.m_maxVar ∧ d.m_assignment.assignments v = .INDETERMINATE ∧
      d.m_assignment.currentLevel - 1 ≤ v ∧ ∀ w < v, d.m_assignment.assignments w ≠ .INDETERMINATE := by
  obtain ⟨w, hw, hwi⟩ := ht.exists_unassigned hc
  have hf : d.m_maxVar + 1 < (d.m_assignment.currentLevel - 1) + (d.m_maxVar + 2) := by omega
  obtain ⟨hle, hskip, hstop⟩ := skipDeterminate_spec hf
  have hskipped : ∀ v < d.skipDeterminate (d.m_maxVar + 2) (d.m_assignment.currentLevel - 1),
      d.m_assignment.assignments v ≠ .INDETERMINATE := fun v hv => by
    by_cases hb : v < d.m_assignment.currentLevel - 1
    · exact hbelow v hb
    · exact TBool.isDeterminate_iff.mp (hskip v (Nat.le_of_not_lt hb) hv).2
  have hmax : d.skipDeterminate (d.m_maxVar + 2) (d.m_assignment.currentLevel - 1) ≤ d.m_maxVar := by
    by_contra hlt
    exact hskipped w (by omega) hwi
  have hindet := hstop hmax
  unfold getBranchingVariable
  dsimp only
  rw [if_neg hlevel, if_neg (not_or.mpr ⟨Nat.not_lt.mpr hmax, Bool.eq_false_iff.mp hindet⟩)]
  refine ⟨_, rfl, hmax, not_not.mp fun hne => ?_, hle, hskipped⟩
  exact Bool.eq_false_iff.mp hindet (TBool.isDeterminate_iff.mpr hne)

/-! ## One branch -/

/-- The literal `l` may be branched on: no variable before its own is unassigned. -/
structure Branchable (d : SimpleDPLL) (l : CNFLit) : Prop where
  indet : d.m_assignment.getAssignment l = .INDETERMINATE
  le_maxVar : l.var ≤ d.m_maxVar
  below : ∀ v < l.var, d.m_assignment.assignments v ≠ .INDETERMINATE
  level : d.m_assignment.currentLevel ≤ l.var + 1

/-- The search for a model that makes `A` true answers `b`, and it leaves `t`. -/
structure Answers (Φ : Set (Finset CNFLit)) (d : SimpleDPLL) (A : Set CNFLit) (b : Bool) (t : Assignment) : Prop where
  holds : Holds Φ d t
  restored : Restored d.m_assignment t
  correct : b = true ↔ Extendable Φ A

theorem Holds.newLevel (h : Holds Φ d t) : Holds Φ d t.newLevel :=
  ⟨h.ready.newLevel, h.size, h.sound, h.complete, h.regular, h.vars⟩

theorem Holds.of_clauses {e : SimpleDPLL} (h : Holds Φ e t) (hc : e.m_clauses = d.m_clauses)
    (hv : e.m_maxVar = d.m_maxVar) : Holds Φ d t := by
  have he : e.registered = d.registered := by rw [registered, registered, hc]
  exact ⟨he ▸ h.ready, hv ▸ h.size, he ▸ h.sound, he ▸ h.complete, hv ▸ h.regular, hv ▸ h.vars⟩

section
variable (h : Holds Φ d d.m_assignment) (ha : Appended l none d.m_assignment.newLevel t)
include h ha

theorem Holds.sound_appended : clauseSets t.mem d.registered ⊆ Φ :=
  (clauseSets_congr ha.grows.lits).trans_subset h.sound

theorem Holds.derives_appended (hc : Core d.registered d.registered ∅ ∅ t) :
    ∀ x ∈ t.trail, Derives Φ (insert l {x | x ∈ d.m_assignment.trail}) x :=
  ha.derives hc (h.sound_appended ha)

theorem Holds.refuted {c : ClauseRef} (hc : Clash d.registered d.registered ∅ ∅ c t) :
    Answers Φ d (insert l {x | x ∈ d.m_assignment.trail}) false (t.undoToLevel d.m_assignment.currentLevel) := by
  have hrestored := ha.grows.restored h.ready.core.trail
  have hlevel : d.m_assignment.currentLevel < t.currentLevel := by
    rw [ha.grows.currentLevel]
    exact Nat.lt_succ_self _
  refine ⟨h.grow hrestored.grows (hc.undoToLevel hlevel), hrestored, ?_⟩
  have hconflict := hc.conflict (h.sound_appended ha) (h.derives_appended ha hc.core)
  exact iff_of_false Bool.false_ne_true hconflict.not_extendable

/-- What has been found out about the trail behind `l` answers the branch. -/
theorem Holds.answers (hr : Ready d.registered d.registered ∅ ∅ t) {u : Assignment} {b : Bool}
    (hu : Answers Φ { d with m_assignment := t } {x | x ∈ t.trail} b u) :
    Answers Φ d (insert l {x | x ∈ d.m_assignment.trail}) b (u.undoToLevel d.m_assignment.currentLevel) := by
  have hback := (ha.grows.trans hu.restored.grows).restored h.ready.core.trail
  have hlevel : d.m_assignment.currentLevel < u.currentLevel := by
    rw [hu.restored.grows.currentLevel, ha.grows.currentLevel]
    exact Nat.lt_succ_self _
  have hholds : Holds Φ d u := hu.holds.of_clauses rfl rfl
  refine ⟨h.grow hback.grows (hholds.ready.undoToLevel hlevel), hback, hu.correct.trans ?_⟩
  exact (extendable_propagate ha.subset (h.derives_appended ha hr.core)).symm

/-- The next literals to branch on. -/
theorem Holds.branchable (hb : Branchable d l) (hr : Ready d.registered d.registered ∅ ∅ t)
    (hc : t.isComplete = false) :
    ∃ v, getBranchingVariable { d with m_assignment := t } = some v ∧ v ≤ d.m_maxVar ∧
      t.assignments v = .INDETERMINATE ∧ (∀ w < v, t.assignments w ≠ .INDETERMINATE) ∧ t.currentLevel ≤ v + 1 := by
  have ht := hr.core.trail
  have hlevel : t.currentLevel = d.m_assignment.currentLevel + 1 := ha.grows.currentLevel
  have hkeep : ∀ w, d.m_assignment.assignments w ≠ .INDETERMINATE → t.assignments w ≠ .INDETERMINATE := by
    intro w hw
    obtain ⟨x, hx, rfl⟩ := h.ready.core.trail.exists_mem hw
    rw [ne_eq, ← getAssignment_eq_indet, (ht.mem_trail x).mp (ha.grows.trail.subset hx)]
    exact TBool.noConfusion
  have hl : t.assignments l.var ≠ .INDETERMINATE := by
    rw [ne_eq, ← getAssignment_eq_indet, (ht.mem_trail l).mp ha.mem]
    exact TBool.noConfusion
  have hsize : t.size = d.m_maxVar + 1 := ha.grows.size.trans h.size
  have hbelow : ∀ w < t.currentLevel - 1, t.assignments w ≠ .INDETERMINATE := by
    intro w hw
    rw [hlevel, Nat.add_sub_cancel] at hw
    cases Nat.lt_succ_iff_lt_or_eq.mp (hw.trans_le hb.level) with
    | inl hlt => exact hkeep w (hb.below w hlt)
    | inr he => exact he ▸ hl
  have hpos : t.currentLevel ≠ 0 := by
    rw [hlevel]
    exact Nat.succ_ne_zero _
  obtain ⟨v, hv, hle, hindet, hfrom, hskipped⟩ :=
    getBranchingVariable_spec (d := { d with m_assignment := t }) ht hsize hc hpos hbelow
  exact ⟨v, hv, hle, hindet, hskipped, Nat.sub_le_iff_le_add.mp hfrom⟩

end

/-! ## Both branches -/

def Decides (Φ : Set (Finset CNFLit)) (fuel : Nat) : Prop :=
  ∀ (d : SimpleDPLL) (l : CNFLit), Holds Φ d d.m_assignment → Branchable d l →
    d.m_maxVar < d.m_assignment.trail.length + fuel →
    ∃ b t, solveBranch fuel d l = some (b, { d with m_assignment := t }) ∧
      Answers Φ d (insert l {x | x ∈ d.m_assignment.trail}) b t

theorem Branchable.restored {v : CNFVar} {s s' : CNFSign} (hd : d.m_assignment.TrailInv) (ht : t.TrailInv)
    (hr : Restored d.m_assignment t) (hb : Branchable d ⟨v, s⟩) :
    Branchable { d with m_assignment := t } ⟨v, s'⟩ := by
  have hcongr : ∀ w, t.assignments w = .INDETERMINATE ↔ d.m_assignment.assignments w = .INDETERMINATE :=
    fun w => hd.indet_congr ht hr.trail_eq
  refine ⟨?_, hb.le_maxVar, fun w hw => mt (hcongr w).mp (hb.below w hw), ?_⟩
  · exact getAssignment_eq_indet.mpr ((hcongr v).mpr (getAssignment_eq_indet.mp hb.indet))
  · exact hr.grows.currentLevel.trans_le hb.level

/-- Either the first branch has a model, or the answer is that of the second one. -/
theorem Decides.either (hdec : Decides Φ fuel) (h : Holds Φ d d.m_assignment) {v : CNFVar}
    (hb : Branchable d ⟨v, .negative⟩) (hf : d.m_maxVar < d.m_assignment.trail.length + fuel) :
    (∃ t, solveBranch fuel d ⟨v, .negative⟩ = some (true, { d with m_assignment := t }) ∧
      Answers Φ d {x | x ∈ d.m_assignment.trail} true t) ∨
    ∃ t b u, solveBranch fuel d ⟨v, .negative⟩ = some (false, { d with m_assignment := t }) ∧
      solveBranch fuel { d with m_assignment := t } ⟨v, .positive⟩ = some (b, { d with m_assignment := u }) ∧
      Answers Φ d {x | x ∈ d.m_assignment.trail} b u := by
  obtain ⟨b, t, hrun, hans⟩ := hdec d _ h hb hf
  have hbranch := extendable_branch (Φ := Φ) (A := {x | x ∈ d.m_assignment.trail}) ⟨v, .negative⟩
  cases b with
  | true =>
    refine .inl ⟨t, hrun, hans.holds, hans.restored, iff_of_true rfl ?_⟩
    exact hbranch.mpr (.inl (hans.correct.mp rfl))
  | false =>
    have hnone : ¬ Extendable Φ (insert ⟨v, .negative⟩ {x | x ∈ d.m_assignment.trail}) :=
      fun he => Bool.false_ne_true (hans.correct.mpr he)
    have htrail : t.trail = d.m_assignment.trail := hans.restored.trail_eq
    have hagain : Holds Φ { d with m_assignment := t } t := hans.holds.of_clauses rfl rfl
    obtain ⟨b, u, hrun', hans'⟩ := hdec { d with m_assignment := t } ⟨v, .positive⟩ hagain
      (hb.restored h.ready.core.trail hagain.ready.core.trail hans.restored) (by rw [htrail]; exact hf)
    refine .inr ⟨t, b, u, hrun, hrun', hans'.holds.of_clauses rfl rfl, hans.restored.trans hans'.restored, ?_⟩
    rw [hans'.correct, htrail, hbranch]
    exact (or_iff_right hnone).symm

theorem decides (Φ : Set (Finset CNFLit)) (fuel : Nat) : Decides Φ fuel := by
  induction fuel with
  | zero =>
    intro d l h hb hf
    have hl : l.var < d.m_assignment.size := (Nat.lt_succ_of_le hb.le_maxVar).trans_eq h.size.symm
    have hlt := h.ready.core.trail.length_lt hb.indet hl
    have hsize := h.size
    omega
  | succ fuel ih =>
    intro d l h hb hf
    have hl : l.var < d.m_assignment.size := (Nat.lt_succ_of_le hb.le_maxVar).trans_eq h.size.symm
    have hend := Steady.append (.ready h.newLevel.ready) hb.indet hl
    unfold solveBranch
    dsimp only [append]
    generalize d.m_assignment.newLevel.append l .includeLemmas = e at hend
    obtain ⟨_ | c, t⟩ := e
    · obtain ⟨hr, ha⟩ := hend
      have hnext : Holds Φ d t := h.newLevel.grow ha.grows hr
      cases hc : t.isComplete with
      | true =>
        refine ⟨true, _, if_pos hc, h.answers ha hr ⟨hnext.of_clauses rfl rfl, ⟨.refl t, rfl⟩, ?_⟩⟩
        exact iff_of_true rfl (hnext.extendable hc)
      | false =>
        obtain ⟨v, hv, hle, hindet, hskipped, hlevel⟩ := h.branchable ha hb hr hc
        have hne : v ≠ CNFVar.undefinedVariable := (hle.trans_lt h.regular).ne
        have hlength : d.m_assignment.trail.length + 1 ≤ t.trail.length := by
          have hle := ha.next.length_le
          rwa [List.length_append] at hle
        have hnew : Branchable { d with m_assignment := t } ⟨v, .negative⟩ :=
          ⟨getAssignment_eq_indet.mpr hindet, hle, hskipped, hlevel⟩
        have hopen : ¬ allVariablesAssigned { d with m_assignment := t } = true := Bool.eq_false_iff.mp hc
        dsimp only
        rw [if_neg hopen, hv, Option.bind_some, if_neg hne]
        have hfuel : d.m_maxVar < t.trail.length + fuel := by omega
        have hagain : Holds Φ { d with m_assignment := t } t := hnext.of_clauses rfl rfl
        cases ih.either hagain hnew hfuel with
        | inl hpos =>
          obtain ⟨u, hrun, hans⟩ := hpos
          rw [hrun]
          exact ⟨true, _, rfl, h.answers ha hr hans⟩
        | inr hneg =>
          obtain ⟨u, b, w, hrun, hrun', hans⟩ := hneg
          rw [hrun, Option.bind_some, if_neg Bool.false_ne_true, hrun']
          exact ⟨b, _, rfl, h.answers ha hr hans⟩
    · obtain ⟨hc, ha⟩ := hend
      exact ⟨false, _, rfl, h.refuted ha hc⟩

/-! ## The constructor -/

/-- The clauses of a problem that the constructor takes. Unit propagation finds no conflict
in them before a variable is branched on. -/
structure Acceptable (clauses : List CNFClause) : Prop where
  ne_nil : clauses ≠ []
  nonempty : [] ∉ clauses
  regular : ∀ clause ∈ clauses, ∀ l ∈ clause, l.var < CNFVar.undefinedVariable
  nodup : ∀ clause ∈ clauses, (clause.map CNFLit.var).Nodup
  consistent : ¬ Conflict (addedSets clauses) ∅

structure Built (d : SimpleDPLL) (unitLits : List CNFLit) (done : List CNFClause) : Prop where
  idle : Idle d.registered d.registered ∅ ∅ d.m_assignment
  clean : d.m_assignment.dirty = ∅
  size : d.m_assignment.size = d.m_maxVar + 1
  level : d.m_assignment.currentLevel = 0
  sets : addedSets done = clauseSets d.m_assignment.mem d.registered ∪ units {l | l ∈ unitLits}

section
variable {unitLits : List CNFLit} {done : List CNFClause} {clause : CNFClause} (h : Built d unitLits done)
include h

theorem Built.addUnit (unit : CNFLit) : Built d (unitLits ++ [unit]) (done ++ [[unit]]) := by
  refine ⟨h.idle, h.clean, h.size, h.level, ?_⟩
  have hunits : units {l | l ∈ unitLits ++ [unit]} = insert {unit} (units {l | l ∈ unitLits}) := by
    ext C
    simp only [units, List.mem_append, List.mem_singleton, Set.mem_ofPred_eq, Set.mem_insert_iff, or_and_right,
      exists_or, exists_eq_left, or_comm]
  rw [CDCLSatSolver.addedSets_append, h.sets, hunits, Set.union_insert]
  rfl

theorem Built.addClause (hlen : 2 ≤ clause.length) (hn : (clause.map CNFLit.var).Nodup)
    (hv : ∀ l ∈ clause, l.var ≤ d.m_maxVar) : Built (d.addClause clause) unitLits (done ++ [clause]) := by
  have hfresh : d.m_clauses.length ∉ d.registered := Nat.lt_irrefl _
  have hnew : (d.m_assignment.writeClause d.m_clauses.length (.ofLits clause)).mem d.m_clauses.length =
      .ofLits clause := writeClause_mem_self _ _ _
  have hregistered : (d.addClause clause).registered = insert d.m_clauses.length d.registered := by
    ext c
    show c < (d.m_clauses ++ [d.m_clauses.length]).length ↔ c = d.m_clauses.length ∨ c < d.m_clauses.length
    rw [List.length_append, List.length_singleton]
    exact Nat.lt_succ_iff_lt_or_eq.trans or_comm
  have hsame := sameTrail_registerClause (d.m_assignment.writeClause d.m_clauses.length (.ofLits clause))
    d.m_clauses.length
  have hvars : ∀ l ∈ clause, l.var < d.m_assignment.size := fun l hl => by
    rw [h.size]
    exact Nat.lt_succ_of_le (hv l hl)
  have hidle := (h.idle.writeClause hfresh (.ofLits clause)).registerClause hfresh (by rw [hnew]; exact ⟨hlen, hn⟩)
    (by rw [hnew]; exact hvars) (by rw [hnew]; exact nofun) fun _ => by rw [hnew]; rfl
  refine ⟨hregistered ▸ hidle, ?_, hsame.size.trans h.size, hsame.currentLevel.trans h.level, ?_⟩
  · exact (dirty_congr (registerClause_marks _ _).2).trans h.clean
  · have hsets : clauseSets (d.addClause clause).m_assignment.mem (insert d.m_clauses.length d.registered) =
        insert clause.toFinset (clauseSets d.m_assignment.mem d.registered) := by
      show clauseSets (Assignment.registerClause _ _).mem _ = _
      rw [registerClause_mem, clauseSets_writeClause hfresh]
      rfl
    rw [hregistered, hsets, CDCLSatSolver.addedSets_append, h.sets, Set.insert_union]

theorem Built.addClauses {clauses : List CNFClause} (he : [] ∉ clauses)
    (hn : ∀ clause ∈ clauses, (clause.map CNFLit.var).Nodup)
    (hv : ∀ clause ∈ clauses, ∀ l ∈ clause, l.var ≤ d.m_maxVar) :
    ∃ d' unitLits', addClauses clauses d unitLits = some (d', unitLits') ∧ d'.m_maxVar = d.m_maxVar ∧
      Built d' unitLits' (done ++ clauses) := by
  induction clauses generalizing d unitLits done with
  | nil => exact ⟨d, unitLits, rfl, rfl, by rwa [List.append_nil]⟩
  | cons clause clauses ih =>
    have hne : clause ≠ [] := fun hc => he (hc ▸ List.mem_cons_self)
    have hrest : [] ∉ clauses := mt (List.mem_cons_of_mem clause) he
    obtain ⟨hfirst, hnodup⟩ := List.forall_mem_cons.mp hn
    obtain ⟨hvfirst, hvars⟩ := List.forall_mem_cons.mp hv
    rw [List.append_cons]
    match clause with
    | [] => exact absurd rfl hne
    | [unit] => exact ih (h.addUnit unit) hrest hnodup hvars
    | a :: b :: literals => exact ih (h.addClause (by simp) hfirst hvfirst) hrest hnodup hvars

end

structure Started (Φ : Set (Finset CNFLit)) (d : SimpleDPLL) : Prop where
  ready : Ready d.registered d.registered ∅ ∅ d.m_assignment
  size : d.m_assignment.size = d.m_maxVar + 1
  level : d.m_assignment.currentLevel = 0
  sound : clauseSets d.m_assignment.mem d.registered ⊆ Φ
  derives : ∀ x ∈ d.m_assignment.trail, Derives Φ ∅ x

theorem Started.addUnitClause (h : Started Φ d) (hn : ¬ Conflict Φ ∅) {unit : CNFLit} (hunit : {unit} ∈ Φ)
    (hv : unit.var ≤ d.m_maxVar) :
    ∃ t, d.addUnitClause unit = { d with m_assignment := t } ∧ Started Φ { d with m_assignment := t } ∧
      Grows d.m_assignment t ∧ unit ∈ t.trail := by
  have ht := h.ready.core.trail
  have hd : Derives Φ ∅ unit := .of_unit hunit
  unfold SimpleDPLL.addUnitClause
  cases hu : d.m_assignment.getAssignment unit with
  | TRUE => exact ⟨_, rfl, h, .refl _, (ht.mem_trail unit).mpr hu⟩
  | FALSE => exact absurd (.inr ⟨unit, hd, h.derives _ (ht.neg_mem_trail.mpr hu)⟩) hn
  | INDETERMINATE =>
    have hsize : unit.var < d.m_assignment.size := (Nat.lt_succ_of_le hv).trans_eq h.size.symm
    have hend := Steady.append (.ready h.ready) hu hsize
    refine ⟨_, rfl, ?_⟩
    generalize d.m_assignment.append unit .includeLemmas = e at hend
    have hderives : ∀ t, Core d.registered d.registered ∅ ∅ t → Appended unit none d.m_assignment t →
        clauseSets t.mem d.registered ⊆ Φ ∧ ∀ x ∈ t.trail, Derives Φ ∅ x := by
      intro t hc ha
      have hsound : clauseSets t.mem d.registered ⊆ Φ := (clauseSets_congr ha.grows.lits).trans_subset h.sound
      refine ⟨hsound, fun x hx => (ha.derives hc hsound x hx).cut (fun _ hC => hC) fun y hy => ?_⟩
      cases hy with
      | inl he => exact he ▸ hd
      | inr hy => exact h.derives y hy
    obtain ⟨_ | c, t⟩ := e
    · obtain ⟨hr, ha⟩ := hend
      obtain ⟨hsound, htrail⟩ := hderives t hr.core ha
      exact ⟨⟨hr, ha.grows.size.trans h.size, ha.grows.currentLevel.trans h.level, hsound, htrail⟩, ha.grows, ha.mem⟩
    · obtain ⟨hc, ha⟩ := hend
      obtain ⟨hsound, htrail⟩ := hderives t hc.core ha
      exact absurd (hc.conflict hsound htrail) hn

theorem Started.addUnitClauses {unitLits : List CNFLit} (h : Started Φ d) (hn : ¬ Conflict Φ ∅)
    (hunit : ∀ unit ∈ unitLits, {unit} ∈ Φ) (hv : ∀ unit ∈ unitLits, unit.var ≤ d.m_maxVar) :
    ∃ t, unitLits.foldl SimpleDPLL.addUnitClause d = { d with m_assignment := t } ∧
      Started Φ { d with m_assignment := t } ∧ Grows d.m_assignment t ∧ ∀ unit ∈ unitLits, unit ∈ t.trail := by
  induction unitLits generalizing d with
  | nil => exact ⟨_, rfl, h, .refl _, fun _ hu => absurd hu List.not_mem_nil⟩
  | cons unit unitLits ih =>
    obtain ⟨hunitΦ, hunit⟩ := List.forall_mem_cons.mp hunit
    obtain ⟨hvu, hv⟩ := List.forall_mem_cons.mp hv
    obtain ⟨t, hrun, hstarted, hgrows, hmem⟩ := h.addUnitClause hn hunitΦ hvu
    obtain ⟨u, hruns, hstarted', hgrows', hmems⟩ := ih hstarted hunit hv
    refine ⟨u, ?_, hstarted', hgrows.trans hgrows', List.forall_mem_cons.mpr ⟨hgrows'.trail.subset hmem, hmems⟩⟩
    rw [List.foldl_cons, hrun, hruns]

section
variable {clauses : List CNFClause} (h : Acceptable clauses)
include h

theorem Acceptable.flatten_ne_nil : clauses.flatten ≠ [] := by
  cases clauses with
  | nil => exact absurd rfl h.ne_nil
  | cons clause clauses =>
    rw [List.flatten_cons]
    exact mt List.append_eq_nil_iff.mp fun hc => h.nonempty (hc.1 ▸ List.mem_cons_self)

theorem Acceptable.vars : ∃ maxVar, (CNFProblem.ofClauses clauses).getMaxVar = maxVar ∧
    maxVar < CNFVar.undefinedVariable ∧ ∀ clause ∈ clauses, ∀ l ∈ clause, l.var ≤ maxVar := by
  obtain ⟨hle, hlt⟩ := CNFProblem.foldl_raiseMaxVar (CNFProblem.var_regular h.regular) h.flatten_ne_nil
    (Nat.le_refl CNFVar.undefinedVariable)
  refine ⟨_, ?_, hlt, fun clause hc l hl => hle l (List.mem_flatten.mpr ⟨clause, hc, hl⟩)⟩
  rw [CNFProblem.ofClauses_eq, CNFProblem.getMaxVar, CNFProblem.isEmpty, List.isEmpty_eq_false_iff.mpr h.ne_nil]
  rfl

theorem new_spec : ∃ d, new (CNFProblem.ofClauses clauses) = some d ∧
    Holds (addedSets clauses) d d.m_assignment ∧ d.m_assignment.currentLevel = 1 ∧
    ∀ x ∈ d.m_assignment.trail, Derives (addedSets clauses) ∅ x := by
  obtain ⟨maxVar, hmax, hregular, hvars⟩ := h.vars
  have hnone : (⟨.new default maxVar, [], maxVar⟩ : SimpleDPLL).registered = ∅ :=
    Set.eq_empty_of_forall_notMem fun c hc => Nat.not_lt_zero c hc
  have hbuilt : Built ⟨.new default maxVar, [], maxVar⟩ [] [] := by
    refine ⟨hnone ▸ .new default maxVar, dirty_eq_empty_iff.mpr rfl, rfl, rfl, ?_⟩
    rw [hnone]
    ext C
    simp [addedSets, clauseSets, units]
  obtain ⟨d, unitLits, hadd, hmaxVar, hd⟩ := hbuilt.addClauses h.nonempty h.nodup hvars
  rw [List.nil_append] at hd
  have hmaxVar : d.m_maxVar = maxVar := hmaxVar
  have hnil := hd.idle.nil
  have hstarted : Started (addedSets clauses) d :=
    ⟨hd.idle.ready hd.clean, hd.size, hd.level, hd.sets ▸ Set.subset_union_left,
      fun x hx => absurd hx (hnil ▸ List.not_mem_nil)⟩
  have hunit : ∀ unit ∈ unitLits, {unit} ∈ addedSets clauses := fun unit hu => hd.sets ▸ .inr ⟨unit, hu, rfl⟩
  have hall : ∀ C ∈ addedSets clauses, ∀ x ∈ C, x.var ≤ d.m_maxVar := by
    rintro C ⟨clause, hc, rfl⟩ x hx
    exact hmaxVar ▸ hvars clause hc x (List.mem_toFinset.mp hx)
  obtain ⟨t, hunits, ht, hgrows, hmem⟩ := hstarted.addUnitClauses h.consistent hunit fun unit hu =>
    hall _ (hunit unit hu) unit (Finset.mem_singleton_self unit)
  refine ⟨{ d with m_assignment := t.newLevel }, ?_, ?_, congrArg Nat.succ ht.level, ht.derives⟩
  · unfold new
    rw [hmax, show (CNFProblem.ofClauses clauses).clauses = clauses from
      congrArg CNFProblem.clauses (CNFProblem.ofClauses_eq clauses), hadd, Option.map_some]
    dsimp only
    rw [hunits]
  · refine ⟨ht.ready.newLevel, ht.size, ht.sound, fun C hC => ?_, hmaxVar ▸ hregular, hall⟩
    have hsets : clauseSets t.mem d.registered = clauseSets d.m_assignment.mem d.registered :=
      clauseSets_congr hgrows.lits
    rw [hd.sets] at hC
    cases hC with
    | inl hC => exact .inl (hsets ▸ hC)
    | inr hC =>
      obtain ⟨x, hx, hC⟩ := hC
      exact .inr ⟨x, hmem x hx, hC⟩

end

theorem solve_spec (h : Holds Φ d d.m_assignment) (hlevel : d.m_assignment.currentLevel = 1) :
    ∃ b : Bool, d.solve = some (if b then .TRUE else .FALSE) ∧
      (b = true ↔ Extendable Φ {x | x ∈ d.m_assignment.trail}) := by
  cases hc : d.m_assignment.isComplete with
  | true => exact ⟨true, if_pos hc, iff_of_true rfl (h.extendable hc)⟩
  | false =>
    obtain ⟨v, hv, hle, hindet, hfrom, hskipped⟩ := getBranchingVariable_spec h.ready.core.trail h.size hc
      (by rw [hlevel]; exact Nat.one_ne_zero) (by rw [hlevel]; exact fun v hv => absurd hv (Nat.not_lt_zero v))
    have hopen : ¬ d.allVariablesAssigned = true := Bool.eq_false_iff.mp hc
    have hb : Branchable d ⟨v, .negative⟩ :=
      ⟨getAssignment_eq_indet.mpr hindet, hle, hskipped, Nat.sub_le_iff_le_add.mp hfrom⟩
    have hne : v ≠ CNFVar.undefinedVariable := (hle.trans_lt h.regular).ne
    have hfuel : d.m_maxVar < d.m_assignment.trail.length + (d.m_maxVar + 1) := by omega
    unfold solve
    rw [if_neg hopen, hv, Option.bind_some, if_neg hne]
    cases (decides Φ _).either h hb hfuel with
    | inl hpos =>
      obtain ⟨t, hrun, hans⟩ := hpos
      rw [hrun]
      exact ⟨true, rfl, hans.correct⟩
    | inr hneg =>
      obtain ⟨t, b, u, hrun, hrun', hans⟩ := hneg
      rw [hrun, Option.bind_some]
      dsimp only
      rw [if_neg Bool.false_ne_true, hrun']
      exact ⟨b, rfl, hans.correct⟩

/-- The solver answers, and its answer is right. -/
theorem solve_decides {clauses : List CNFClause} (h : Acceptable clauses) :
    ∃ d answer, new (CNFProblem.ofClauses clauses) = some d ∧ d.solve = some answer ∧
      (answer = .TRUE ↔ ¬ Unsat (addedSets clauses)) ∧ (answer = .FALSE ↔ Unsat (addedSets clauses)) := by
  obtain ⟨d, hnew, hd, hlevel, hderives⟩ := new_spec h
  obtain ⟨b, hrun, hb⟩ := solve_spec hd hlevel
  have hsat : b = true ↔ ¬ Unsat (addedSets clauses) :=
    hb.trans ((extendable_propagate (Set.empty_subset _) hderives).symm.trans extendable_empty)
  refine ⟨d, _, hnew, hrun, ?_⟩
  cases b with
  | true => exact ⟨iff_of_true rfl (hsat.mp rfl), iff_of_false TBool.noConfusion (hsat.mp rfl)⟩
  | false =>
    have hunsat : Unsat (addedSets clauses) := not_not.mp fun hn => Bool.false_ne_true (hsat.mpr hn)
    exact ⟨iff_of_false TBool.noConfusion (not_not.mpr hunsat), iff_of_true rfl hunsat⟩

/-- A conflict among the units goes unnoticed. -/
example : ((new (.ofClauses [[⟨0, .positive⟩], [⟨0, .negative⟩]])).bind solve) = some .TRUE := by decide +kernel

def allClauses : List CNFClause :=
  [[⟨0, .positive⟩, ⟨1, .positive⟩], [⟨0, .positive⟩, ⟨1, .negative⟩], [⟨0, .negative⟩, ⟨1, .positive⟩],
    [⟨0, .negative⟩, ⟨1, .negative⟩]]

theorem acceptable_allClauses : Acceptable allClauses := by
  refine ⟨by decide, by decide, by decide, by decide, not_conflict_of_card ?_⟩
  rintro C ⟨clause, hclause, rfl⟩
  exact (by decide : ∀ clause ∈ allClauses, 2 ≤ clause.toFinset.card) clause hclause

theorem solve_decides_allClauses : ∃ d answer, new (CNFProblem.ofClauses allClauses) = some d ∧
    d.solve = some answer ∧ (answer = .TRUE ↔ ¬ Unsat (addedSets allClauses)) ∧
    (answer = .FALSE ↔ Unsat (addedSets allClauses)) :=
  solve_decides acceptable_allClauses

end SimpleDPLL

end JamSAT
