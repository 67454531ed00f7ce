import JamSAT.CNFProblem
import JamSAT.SolverRuns

/-!
# Checking models

`Model::check`, and for which problems a model that the solver returns passes it.
-/

namespace JamSAT

open UnitLogic

namespace Model

def check (m : Model) (problem : CNFProblem) : TBool :=
  if problem.clauses.all fun clause => clause.any fun lit => m.getAssignment lit.var == .ofSign lit.sign then .TRUE
  else .FALSE

theorem check_eq_true {m : Model} {problem : CNFProblem}
    (h : ∀ clause ∈ problem.clauses, ∃ l ∈ clause, m.getAssignment l.var = .ofSign l.sign) :
    m.check problem = .TRUE := by
  apply if_pos
  rw [List.all_eq_true]
  intro clause hc
  rw [List.any_eq_true]
  obtain ⟨l, hl, he⟩ := h clause hc
  exact ⟨l, hl, beq_iff_eq.mpr he⟩

def falsifyingSign (m : Model) (clause : CNFClause) (v : CNFVar) : CNFSign :=
  match m.getAssignment v with
  | .TRUE => .positive
  | .FALSE => .negative
  | .INDETERMINATE => if (⟨v, .negative⟩ : CNFLit) ∈ clause then .positive else .negative

def falsify (m : Model) (clause : CNFClause) : Valuation CNFLit where
  holds l := l.sign = m.falsifyingSign clause l.var
  holds_neg l := by
    show l.sign.invert = m.falsifyingSign clause l.var ↔ _
    cases l.sign <;> cases m.falsifyingSign clause l.var <;> decide

theorem extended_falsify (m : Model) (clause : CNFClause) : m.Extended (m.falsify clause) := by
  intro l hl
  show l.sign = m.falsifyingSign clause l.var
  rw [falsifyingSign, hl]
  cases l.sign with
  | positive => rfl
  | negative => rfl

/-- If all extensions of a model satisfy a clause without complementary literals
over unassigned variables, the model itself does. -/
theorem exists_true {m : Model} {clause : CNFClause}
    (h : ∀ σ : Valuation CNFLit, m.Extended σ → σ.Satisfies clause.toFinset)
    (hc : ∀ l ∈ clause, -l ∈ clause → m.getAssignment l.var ≠ .INDETERMINATE) :
    ∃ l ∈ clause, m.getAssignment l.var = .ofSign l.sign := by
  obtain ⟨⟨v, sign⟩, hl, hσ⟩ := h _ (extended_falsify m clause)
  rw [List.mem_toFinset] at hl
  refine ⟨_, hl, ?_⟩
  have hs : sign = m.falsifyingSign clause v := hσ
  unfold falsifyingSign at hs
  dsimp only
  cases hv : m.getAssignment v with
  | TRUE =>
    rw [hv] at hs
    rw [hs]
    rfl
  | FALSE =>
    rw [hv] at hs
    rw [hs]
    rfl
  | INDETERMINATE =>
    rw [hv] at hs
    dsimp only at hs
    split at hs
    · rename_i hneg
      subst hs
      exact absurd hv (hc _ hl hneg)
    · rename_i hneg
      subst hs
      exact absurd hl hneg

theorem exists_true_of_pair {m : Model} {clause : CNFClause} {x : CNFLit} (hx : x ∈ clause) (hn : -x ∈ clause)
    (hv : m.getAssignment x.var ≠ .INDETERMINATE) : ∃ l ∈ clause, m.getAssignment l.var = .ofSign l.sign := by
  by_cases h : m.getAssignment x.var = .ofSign x.sign
  · exact ⟨x, hx, h⟩
  · refine ⟨-x, hn, ?_⟩
    rw [CNFLit.var_neg, CNFLit.sign_neg]
    generalize m.getAssignment x.var = b at hv h
    revert hv h
    cases x.sign <;> cases b <;> decide

end Model

/-! ## Models of the solver -/

/-- No clause of the problem has all its complementary pairs above `maxVar`. -/
def Checkable (maxVar : CNFVar) (problem : CNFProblem) : Prop :=
  ∀ clause ∈ problem.clauses, ∀ l ∈ clause, -l ∈ clause → ∃ x ∈ clause, -x ∈ clause ∧ x.var ≤ maxVar

instance (maxVar : CNFVar) (problem : CNFProblem) : Decidable (Checkable maxVar problem) :=
  inferInstanceAs (Decidable (∀ clause ∈ problem.clauses, ∀ l ∈ clause, -l ∈ clause →
    ∃ x ∈ clause, -x ∈ clause ∧ x.var ≤ maxVar))

def Control.checked (problem : CNFProblem) : Control → Option TBool
  | .ready (some r) => r.getModel.map fun model => model.check problem
  | _ => none

theorem Control.exists_of_checked {control : Control} {problem : CNFProblem} {b : TBool}
    (h : control.checked problem = some b) :
    ∃ r model, control = .ready (some r) ∧ r.getModel = some model ∧ model.check problem = b := by
  unfold checked at h
  split at h
  · obtain ⟨model, hm, hb⟩ := Option.map_eq_some_iff.mp h
    exact ⟨_, model, rfl, hm, hb⟩
  · cases h

namespace Machine

open CDCLSatSolver

variable {m m' : Machine} {r : SolvingResult}

theorem finish_of_verdict {e : Event} (hs : m.step e = some m') (hv : m'.control.verdict = some .TRUE) :
    m.control = .deciding ∧ m.solver.assignment.isComplete = true ∧ m' = m.conclude m.solver .TRUE [] := by
  cases transition_of_step hs with
  | finish hc hcomplete => exact ⟨hc, hcomplete, rfl⟩
  -- no other result is `TRUE`
  | _ => cases hv

def Complete (m : Machine) : Prop :=
  ∀ r, m.control = .ready (some r) → r.isProblemSatisfiable = .TRUE →
    ∃ model, r.getModel = some model ∧ ∀ v ≤ m.solver.maxVar, model.getAssignment v ≠ .INDETERMINATE

theorem getAssignment_foldl {s : Assignment} (ht : s.TrailInv) (hc : s.isComplete = true) {v : CNFVar}
    (hv : v < s.size) :
    (s.trail.foldl Model.setAssignment .empty).getAssignment v ≠ .INDETERMINATE := by
  have hin := (foldl_setAssignment s.trail .empty ht.nodup_vars).2
  have hdet := getAssignment_ne_indet ht hc (l := ⟨v, .positive⟩) hv
  cases hl : s.getAssignment ⟨v, .positive⟩ with
  | INDETERMINATE => exact absurd hl hdet
  | TRUE =>
    have hv := hin _ ((ht.mem_trail _).mpr hl)
    exact fun hi => by cases hv.symm.trans hi
  | FALSE =>
    have hv := hin _ (ht.neg_mem_trail.mpr hl)
    exact fun hi => by cases hv.symm.trans hi

theorem Complete.step {e : Event} (h : Inv m) (hs : m.step e = some m') : Complete m' := by
  intro r hr ht
  have hv : m'.control.verdict = some .TRUE := by rw [hr]; exact congrArg some ht
  obtain ⟨hcontrol, hc, rfl⟩ := finish_of_verdict hs hv
  have hat := h.control
  rw [hcontrol] at hat
  cases hat with
  | deciding hrun hassumed hsteady =>
    obtain rfl := Option.some.inj (Control.ready.inj hr)
    refine ⟨_, rfl, fun v hv => getAssignment_foldl hsteady.trailInv hc ?_⟩
    exact (Nat.lt_succ_of_le hv).trans_eq hassumed.size_eq.symm

theorem Complete.of_reachable (h : m.Reachable) : Complete m := by
  cases h with
  | init h =>
    subst h
    intro r hr
    cases hr
  | step hm hs =>
    obtain ⟨e, hreg, hs⟩ := hs
    exact .step (.of_reachable hm) hs

/-- A model that the solver returns passes the check on a problem that has been
added, if the problem is checkable with the variables that the solver knows. -/
theorem model_check (h : m.Reachable) (hr : m.control = .ready (some r)) (ht : r.isProblemSatisfiable = .TRUE)
    (problem : CNFProblem) (hp : problem.clauses ⊆ m.added) (hc : Checkable m.solver.maxVar problem) :
    ∃ model, r.getModel = some model ∧ model.check problem = .TRUE := by
  obtain ⟨model, hm, hdet⟩ := Complete.of_reachable h r hr ht
  obtain ⟨model', hm', hext⟩ := (verdict_sound h hr).sat ht
  obtain rfl : model = model' := Option.some.inj (hm.symm.trans hm')
  refine ⟨model, hm, Model.check_eq_true fun clause hcl => ?_⟩
  by_cases hpair : ∃ x ∈ clause, -x ∈ clause ∧ x.var ≤ m.solver.maxVar
  · obtain ⟨x, hx, hxn, hle⟩ := hpair
    exact Model.exists_true_of_pair hx hxn (hdet x.var hle)
  · apply Model.exists_true
    · intro σ hσ
      exact (hext σ hσ).1 _ ⟨clause, hp hcl, rfl⟩
    · intro l hl hln
      exact absurd (hc clause hcl l hl hln) hpair

def solveEvents (problem : CNFProblem) (decisions : List CNFLit) : List Event :=
  [.addProblem problem.clauses, .solve [], .trySimplify, .tryReduceClauseDB [] false, .propagateHardFacts,
    .propagateAssumedFacts] ++ decisions.flatMap (fun l => [.decide l, .continue false false]) ++ [.finish]

def unitAndTautology : CNFProblem := .ofClauses [[⟨1, .positive⟩], [⟨0, .positive⟩, ⟨0, .negative⟩]]

def unitAndTautologySolved : Machine :=
  (new.run (solveEvents unitAndTautology [⟨0, .negative⟩])).get (by decide +kernel)

theorem unitAndTautology_check : ∃ r model, unitAndTautologySolved.control = .ready (some r) ∧
    r.getModel = some model ∧ model.check unitAndTautology = .TRUE := by
  have hm : unitAndTautologySolved.Reachable := .run_get (.init rfl) (by decide) _
  obtain ⟨r, hr, ht⟩ := Control.exists_of_verdict
    (show unitAndTautologySolved.control.verdict = some .TRUE by decide +kernel)
  obtain ⟨model, hmodel, hcheck⟩ := model_check hm hr ht unitAndTautology (by decide +kernel) (by decide +kernel)
  exact ⟨r, model, hr, hmodel, hcheck⟩

/-- The only clause is dropped and the solver does not know its variable. -/
def tautology : CNFProblem := .ofClauses [[⟨1, .positive⟩, ⟨1, .negative⟩]]

def tautologySolved : Machine := (new.run (solveEvents tautology [⟨0, .negative⟩])).get (by decide +kernel)

theorem tautology_check : tautologySolved.Reachable ∧ tautology.clauses ⊆ tautologySolved.added ∧
    tautologySolved.control.verdict = some .TRUE ∧
    ∃ r model, tautologySolved.control = .ready (some r) ∧ r.getModel = some model ∧
      model.check tautology = .FALSE :=
  ⟨.run_get (.init rfl) (by decide) _, by decide +kernel, by decide +kernel,
    Control.exists_of_checked (by decide +kernel)⟩

end Machine

end JamSAT
