import JamSAT.LemmaSound
import JamSAT.SolverMachine

/-!
# Runs of the solver

The invariant of all calls on one solver object, and what follows from it: the
verdicts are right and every conflict yields a sound lemma.
-/

namespace JamSAT

open UnitLogic Assignment

/-! ## What no step of a `solve` call changes -/

namespace CDCLSatSolver

variable {s t u : CDCLSatSolver} {assumedFacts : List CNFLit}

structure SameProblem (s t : CDCLSatSolver) : Prop where
  detectedUNSAT : t.detectedUNSAT = s.detectedUNSAT
  maxVar : t.maxVar = s.maxVar

theorem SameProblem.refl (s : CDCLSatSolver) : SameProblem s s := ⟨rfl, rfl⟩

theorem SameProblem.trans (h : SameProblem s t) (h' : SameProblem t u) : SameProblem s u :=
  ⟨h'.detectedUNSAT.trans h.detectedUNSAT, h'.maxVar.trans h.maxVar⟩

theorem Running.same (h : Running assumedFacts s) (hs : SameProblem s t) : Running assumedFacts t :=
  h.of_eq hs.detectedUNSAT hs.maxVar

theorem SameProblem.trySimplify (s : CDCLSatSolver) : SameProblem s s.trySimplify.2 := by
  unfold CDCLSatSolver.trySimplify
  split
  · exact ⟨rfl, rfl⟩
  · exact .refl s

theorem SameProblem.tryReduceClauseDB (s : CDCLSatSolver) (sorted : List ClauseRef) (lowLBD : Bool) :
    SameProblem s (s.tryReduceClauseDB sorted lowLBD) := by
  unfold CDCLSatSolver.tryReduceClauseDB
  split
  · exact .refl s
  · dsimp only
    generalize ClauseDBReductionPolicy.getClausesMarkedForDeletion sorted lowLBD s.amntBinariesLearnt = toDelete
    obtain ⟨mem, he, -, -⟩ := foldl_scheduleForDeletion toDelete
      { s with clauseDBReductionPolicy := s.clauseDBReductionPolicy.nextInterval }
    rw [he]
    exact ⟨rfl, rfl⟩

theorem SameProblem.propagateHardFacts (s : CDCLSatSolver) : SameProblem s s.propagateHardFacts.2 := by
  unfold CDCLSatSolver.propagateHardFacts propagateFactsOnSystemLevels
  generalize s.assignment.appendFacts s.facts = r
  obtain ⟨_ | fact, t⟩ := r
  · dsimp only
    split
    · exact ⟨rfl, rfl⟩
    · exact ⟨rfl, rfl⟩
  · exact ⟨rfl, rfl⟩

theorem SameProblem.propagateFacts (s : CDCLSatSolver) (assumedFacts : List CNFLit) :
    SameProblem s (s.propagateFactsOnSystemLevels assumedFacts).2 := ⟨rfl, rfl⟩

theorem SameProblem.append (s : CDCLSatSolver) (l : CNFLit) : SameProblem s (s.newLevel.append l).2 := ⟨rfl, rfl⟩

theorem SameProblem.registerLemma (s : CDCLSatSolver) (c : ClauseRef) : SameProblem s (s.registerLemma c).2 :=
  ⟨rfl, rfl⟩

theorem SameProblem.recordLemma (s : CDCLSatSolver) (c : ClauseRef) : SameProblem s (s.recordLemma c) := by
  unfold CDCLSatSolver.recordLemma
  dsimp only
  split
  · exact ⟨rfl, rfl⟩
  · exact ⟨rfl, rfl⟩

theorem SameProblem.learn (s : CDCLSatSolver) (result : LemmaDerivationResult) :
    SameProblem s (s.learn result).2 := by
  cases result with
  | fact l => exact ⟨rfl, rfl⟩
  | clause c k =>
    have hback : SameProblem (s.recordLemma c) ((s.recordLemma c).backtrackToLevel k) := ⟨rfl, rfl⟩
    have hreg := ((SameProblem.recordLemma s c).trans hback).trans (.registerLemma _ c)
    rw [CDCLSatSolver.learn, afterLemma_snd]
    exact hreg

theorem SameProblem.deriveLemma {lowLBD : Bool} {c : ClauseRef} {r : LemmaDerivationResult × CDCLSatSolver}
    (h : s.deriveLemma lowLBD c = some r) : SameProblem s r.2 := by
  obtain ⟨lits, -, rfl⟩ := Option.map_eq_some_iff.mp h
  split
  · exact .refl s
  · unfold addLemma
    dsimp only
    split
    · exact ⟨rfl, rfl⟩
    · exact ⟨rfl, rfl⟩

theorem SameProblem.resolveConflict {lowLBD : Bool} {c : ClauseRef} {r : ResolveResult × CDCLSatSolver}
    (h : s.resolveConflict lowLBD c = some r) : SameProblem s r.2 := by
  obtain ⟨d, hd, rfl⟩ := Option.map_eq_some_iff.mp h
  have hconf : SameProblem d.2 d.2.registerConflict := ⟨rfl, rfl⟩
  exact ((SameProblem.deriveLemma hd).trans hconf).trans (.learn _ _)

/-! ## The greatest variable -/

theorem le_raiseMaxVar (s : CDCLSatSolver) (lits : List CNFLit) : s.maxVar ≤ (s.raiseMaxVar lits).maxVar :=
  (foldl_max lits s.maxVar).1

theorem le_addClause (s : CDCLSatSolver) (clause : List CNFLit) : s.maxVar ≤ (s.addClause clause).maxVar := by
  unfold addClause
  split
  · exact Nat.le_refl _
  · split
    · exact Nat.le_refl _
    · dsimp only
      split
      · exact le_raiseMaxVar _ _
      · exact le_raiseMaxVar (s.createClause _) _

theorem le_addProblem (clauses : List (List CNFLit)) :
    ∀ s : CDCLSatSolver, s.maxVar ≤ (s.addProblem clauses).maxVar := by
  induction clauses with
  | nil => exact fun s => Nat.le_refl _
  | cons clause clauses ih => exact fun s => (le_addClause s clause).trans (ih (s.addClause clause))

theorem finalizeProofOnUnsat_maxVar (s : CDCLSatSolver) : s.finalizeProofOnUnsat.maxVar = s.maxVar := by
  unfold finalizeProofOnUnsat
  split
  · rfl
  · rfl

/-! ## The end of a call -/

theorem Similar.finalizeProofOnUnsat (s : CDCLSatSolver) : Similar s s.finalizeProofOnUnsat := by
  unfold CDCLSatSolver.finalizeProofOnUnsat
  split
  · exact .of_mem rfl rfl rfl rfl rfl rfl rfl
  · exact .of_mem rfl rfl rfl rfl rfl rfl rfl

theorem finalizeProofOnUnsat_assignment (s : CDCLSatSolver) : s.finalizeProofOnUnsat.assignment = s.assignment := by
  unfold CDCLSatSolver.finalizeProofOnUnsat
  split
  · rfl
  · rfl

theorem Detached.finalizeProofOnUnsat {s : CDCLSatSolver} (h : Detached s) : Detached s.finalizeProofOnUnsat :=
  h.of_eq (finalizeProofOnUnsat_assignment s) (Similar.finalizeProofOnUnsat s).clauseDB
    (Similar.finalizeProofOnUnsat s).maxVar.ge

theorem Detached.backtrackAll (h : Detached s) : Detached s.backtrackAll := by
  obtain ⟨⟨R, K, Z, dead, hi, hR⟩, hd, -, hsize⟩ := h
  exact ⟨⟨R, K, Z, dead, hi.undoAll, hR⟩, (undoAll_dirty _).trans hd, rfl, (undoAll_size _).trans_le hsize⟩

end CDCLSatSolver

/-! ## The invariant -/

/-- What a result says about the clauses added so far and the assumptions of its call. -/
structure SolvingResult.Sound (r : SolvingResult) (added : List (List CNFLit)) (assumedFacts : List CNFLit) :
    Prop where
  sat : r.isProblemSatisfiable = .TRUE → ∃ model, r.getModel = some model ∧
    ∀ σ : Valuation CNFLit, model.Extended σ → σ.Models (addedSets added) ∧ ∀ l ∈ assumedFacts, σ.holds l
  unsat : r.isProblemSatisfiable = .FALSE → Unsat (addedSets added ∪ units {l | l ∈ assumedFacts})

namespace Machine

open CDCLSatSolver

inductive At (assumedFacts : List CNFLit) (s : CDCLSatSolver) : Control → Prop
  | ready (r : Option SolvingResult) (h : Detached s) : At assumedFacts s (.ready r)
  | restarting {K Z : Set ClauseRef} {dead : Set CNFLit} (hr : Running assumedFacts s) (h : Restarted K Z dead s)
    (hclean : s.assignment.dirty = ∅) : At assumedFacts s .restarting
  | simplified {K Z : Set ClauseRef} {dead : Set CNFLit} (hr : Running assumedFacts s) (h : Restarted K Z dead s) :
    At assumedFacts s .simplified
  | reduced {K Z : Set ClauseRef} {dead : Set CNFLit} (hr : Running assumedFacts s) (h : Restarted K Z dead s) :
    At assumedFacts s .reduced
  | assuming {K Z : Set ClauseRef} {dead : Set CNFLit} (hr : Running assumedFacts s)
    (h : Searching K dead assumedFacts s) (hs : Steady s.clauses K Z dead s.assignment)
    (h₁ : s.assignment.currentLevel = 1) : At assumedFacts s .assuming
  | deciding {K Z : Set ClauseRef} {dead : Set CNFLit} (hr : Running assumedFacts s)
    (h : Assumed K dead assumedFacts s) (hs : Steady s.clauses K Z dead s.assignment) :
    At assumedFacts s .deciding
  | decided {K Z : Set ClauseRef} {dead : Set CNFLit} (hr : Running assumedFacts s)
    (h : Assumed K dead assumedFacts s) (hs : Ready s.clauses K Z dead s.assignment) : At assumedFacts s .decided
  | conflict {K Z : Set ClauseRef} {dead : Set CNFLit} {c : ClauseRef} (hr : Running assumedFacts s)
    (h : Assumed K dead assumedFacts s) (hc : Clash s.clauses K Z dead c s.assignment)
    (h₂ : 2 ≤ s.assignment.currentLevel) : At assumedFacts s (.conflict c)

structure Inv (m : Machine) : Prop where
  data : Data (addedSets m.added) m.solver
  control : At m.assumedFacts m.solver m.control
  result : ∀ r, m.control = .ready (some r) → r.Sound m.added m.assumedFacts

theorem Inv.new : Inv new where
  data := by
    have he : addedSets [] = ∅ := by
      ext C
      simp [addedSets]
    show Data (addedSets []) CDCLSatSolver.new
    rw [he]
    exact Data.new
  control := .ready none .new
  result r hr := by cases hr

variable {m m' : Machine} {s : CDCLSatSolver} {failedAssumptions : List CNFLit}

theorem Inv.conclude {result : TBool} (hdata : Data (addedSets m.added) s) (hdet : Detached s.backtrackAll)
    (hres : (s.createSolvingResult result failedAssumptions).Sound m.added m.assumedFacts) :
    Inv (m.conclude s result failedAssumptions) := by
  unfold Machine.conclude concludeSolve
  dsimp only
  split
  · have hsim := Similar.finalizeProofOnUnsat s
    have hassign := finalizeProofOnUnsat_assignment s
    have hback : Similar s.finalizeProofOnUnsat s.finalizeProofOnUnsat.backtrackAll :=
      .of_mem (undoAll_mem _) rfl rfl rfl rfl rfl rfl
    refine ⟨(hdata.congr hsim).congr hback, .ready _ ?_, fun r hr => ?_⟩
    · refine hdet.of_eq ?_ hsim.clauseDB hsim.maxVar.ge
      show s.finalizeProofOnUnsat.assignment.undoAll = _
      rw [hassign]
      rfl
    · obtain rfl := Option.some.inj (Control.ready.inj hr)
      have he : s.finalizeProofOnUnsat.createSolvingResult result failedAssumptions =
          s.createSolvingResult result failedAssumptions := by
        unfold createSolvingResult
        rw [hassign]
      exact he ▸ hres
  · have hback : Similar s s.backtrackAll := .of_mem (undoAll_mem _) rfl rfl rfl rfl rfl rfl
    refine ⟨hdata.congr hback, .ready _ hdet, fun r hr => ?_⟩
    obtain rfl := Option.some.inj (Control.ready.inj hr)
    exact hres

theorem sound_indeterminate :
    (s.createSolvingResult .INDETERMINATE failedAssumptions).Sound m.added m.assumedFacts :=
  ⟨fun h => (by cases h), fun h => (by cases h)⟩

theorem sound_false (h : Unsat (addedSets m.added ∪ units {l | l ∈ m.assumedFacts})) :
    (s.createSolvingResult .FALSE failedAssumptions).Sound m.added m.assumedFacts :=
  ⟨fun h => (by cases h), fun _ => h⟩

theorem unsat_union {Φ Ψ : Set (Finset CNFLit)} (h : Unsat Φ) : Unsat (Φ ∪ Ψ) := fun σ hσ =>
  h σ (models_union.mp hσ).1

theorem sound_true {K Z : Set ClauseRef} {dead : Set CNFLit} (hdata : Data (addedSets m.added) s)
    (hr : Running m.assumedFacts s) (h : Assumed K dead m.assumedFacts s)
    (hs : Steady s.clauses K Z dead s.assignment) (hc : s.assignment.isComplete = true) :
    (s.createSolvingResult .TRUE failedAssumptions).Sound m.added m.assumedFacts := by
  refine ⟨fun _ => ⟨_, rfl, fun σ hσ => ?_⟩, fun h => (by cases h)⟩
  obtain ⟨-, hin⟩ := foldl_setAssignment s.assignment.trail .empty hs.trailInv.nodup_vars
  exact h.models hdata hs hc hr.sane fun l hl => hσ l (hin l hl)

/-! ## The steps -/

section
variable (h : Inv m)
include h

theorem Inv.solve {A : List CNFLit} (hreg : (Event.solve A).Regular) (hs : m.step (.solve A) = some m') :
    Inv m' := by
  obtain ⟨hdata, hat, -⟩ := h
  cases transition_of_step hs with
  | solveDetected hc hd =>
    rw [hc] at hat
    cases hat with
    | ready _ hdet =>
      refine ⟨hdata.congr (.finalizeProofOnUnsat _), .ready _ hdet.finalizeProofOnUnsat, fun r hr => ?_⟩
      obtain rfl := Option.some.inj (Control.ready.inj hr)
      refine ⟨fun h => (by cases h), fun _ => unsat_union fun σ hσ => ?_⟩
      obtain ⟨x, hx, -⟩ := hσ ∅ (hdata.detected hd)
      exact absurd hx (Finset.notMem_empty x)
  | solve hc hd =>
    rw [hc] at hat
    cases hat with
    | ready _ hdet =>
      obtain ⟨⟨K, Z, hres⟩, hclean, hvars⟩ := Restarted.prepareSolve hdata hdet hreg
      exact ⟨hdata.prepareSolve hreg, .restarting ⟨hd, hvars⟩ hres hclean, fun r hr => by cases hr⟩

theorem Inv.trySimplify (hs : m.step .trySimplify = some m') : Inv m' := by
  obtain ⟨hdata, hat, -⟩ := h
  have hsame := SameProblem.trySimplify m.solver
  cases transition_of_step hs with
  | simplifyRefuted hc he =>
    rw [hc] at hat
    cases hat with
    | restarting hr hres hclean =>
      obtain ⟨hdata', hunsat, -⟩ := hres.trySimplify hdata
      rw [he] at hdata' hunsat
      obtain ⟨hu, hdet⟩ := hunsat rfl
      exact .conclude hdata' hdet.backtrackAll (sound_false (unsat_union hu))
  | simplify hc he =>
    rw [hc] at hat
    cases hat with
    | restarting hr hres hclean =>
      obtain ⟨hdata', -, hok⟩ := hres.trySimplify hdata
      rw [he] at hdata' hok hsame
      obtain ⟨K', Z', dead', hres'⟩ := hok rfl
      exact ⟨hdata', .simplified (hr.same hsame) hres', fun r hr => by cases hr⟩

theorem Inv.addClause {clause : List CNFLit} (hreg : (Event.addClause clause).Regular)
    (hs : m.step (.addClause clause) = some m') : Inv m' := by
  obtain ⟨hdata, hat, -⟩ := h
  cases transition_of_step hs with
  | addClause hc =>
    rw [hc] at hat
    cases hat with
    | ready _ hdet =>
      refine ⟨?_, .ready none (hdet.addClause hdata clause), fun r hr => by cases hr⟩
      exact addedSets_append m.added clause ▸ hdata.addClause hreg

theorem Inv.addProblem {clauses : List (List CNFLit)} (hreg : (Event.addProblem clauses).Regular)
    (hs : m.step (.addProblem clauses) = some m') : Inv m' := by
  obtain ⟨hdata, hat, -⟩ := h
  cases transition_of_step hs with
  | addProblem hc =>
    rw [hc] at hat
    cases hat with
    | ready _ hdet =>
      exact ⟨hdata.addProblem hreg, .ready none (hdet.addProblem hdata hreg), fun r hr => by cases hr⟩

theorem Inv.setDRATCertificate (hs : m.step .setDRATCertificate = some m') : Inv m' := by
  obtain ⟨hdata, hat, -⟩ := h
  cases transition_of_step hs with
  | setDRATCertificate hc =>
    rw [hc] at hat
    cases hat with
    | ready _ hdet =>
      exact ⟨hdata.congr (.of_mem rfl rfl rfl rfl rfl rfl rfl), .ready none (hdet.of_eq rfl rfl le_rfl),
        fun r hr => by cases hr⟩

theorem Inv.stop (hs : m.step .stop = some m') : Inv m' := by
  obtain ⟨hdata, hat, -⟩ := h
  cases transition_of_step hs with
  | stop hc =>
    rw [hc] at hat
    cases hat with
    | restarting hr hres hclean =>
      exact .conclude hdata (hres.detached hclean).backtrackAll sound_indeterminate

theorem Inv.tryReduceClauseDB {sorted : List ClauseRef} {lowLBD : Bool}
    (hs : m.step (.tryReduceClauseDB sorted lowLBD) = some m') : Inv m' := by
  obtain ⟨hdata, hat, -⟩ := h
  cases transition_of_step hs with
  | reduce hc hp =>
    rw [hc] at hat
    cases hat with
    | simplified hr hres =>
      obtain ⟨hdata', K', Z', dead', hres'⟩ := hres.tryReduceClauseDB hdata hp lowLBD
      exact ⟨hdata', .reduced (hr.same (.tryReduceClauseDB m.solver sorted lowLBD)) hres',
        fun r hr => by cases hr⟩

theorem Inv.propagateHardFacts (hs : m.step .propagateHardFacts = some m') : Inv m' := by
  obtain ⟨hdata, hat, -⟩ := h
  have hsame := SameProblem.propagateHardFacts m.solver
  cases transition_of_step hs with
  | factsRefuted hc he =>
    rw [hc] at hat
    cases hat with
    | reduced hr hres =>
      obtain ⟨hdata', -, hunsat, -⟩ := hres.propagateHardFacts hdata m.assumedFacts
      rw [he] at hdata' hunsat
      obtain ⟨hu, hdet⟩ := hunsat rfl
      exact .conclude hdata' hdet (sound_false (unsat_union hu))
  | @facts t hc he =>
    rw [hc] at hat
    cases hat with
    | reduced hr hres =>
      obtain ⟨hdata', hclauses, -, hok⟩ := hres.propagateHardFacts hdata m.assumedFacts
      rw [he] at hdata' hclauses hok hsame
      obtain ⟨hsearch, hsteady, h₁⟩ := hok rfl
      have hnew : SameProblem t t.newLevel := ⟨rfl, rfl⟩
      have hclauses' : t.newLevel.clauses = m.solver.clauses := hclauses
      exact ⟨hdata'.congr (.of_mem rfl rfl rfl rfl rfl rfl rfl),
        .assuming ((hr.same hsame).same hnew) hsearch (hclauses' ▸ hsteady) h₁, fun r hr => by cases hr⟩

theorem Inv.propagateAssumedFacts (hs : m.step .propagateAssumedFacts = some m') : Inv m' := by
  obtain ⟨hdata, hat, -⟩ := h
  cases transition_of_step hs with
  | assumptionsRefuted hc he ha =>
    rw [hc] at hat
    cases hat with
    | assuming hr hsearch hsteady h₁ =>
      obtain ⟨⟨hstop, -, hf⟩, -, hsearch', hdata', h₁'⟩ := hsearch.propagated hdata hsteady h₁ hr.vars he
      refine .conclude hdata' (hsearch'.toLinked.detached hstop.undoAll hstop.clean) (sound_false ?_)
      exact hdata'.unsat_assuming (hsearch'.conflict_of_stopped hstop hf h₁')
  | assumptions hc he =>
    rw [hc] at hat
    cases hat with
    | assuming hr hsearch hsteady h₁ =>
      obtain ⟨⟨hsteady', -, hall⟩, -, hsearch', hdata', h₁'⟩ := hsearch.propagated hdata hsteady h₁ hr.vars he
      have hsame := SameProblem.propagateFacts m.solver m.assumedFacts
      rw [he] at hsame
      refine ⟨hdata', .deciding (hr.same hsame) ⟨hsearch', fun l hl => ⟨hall l hl, ?_⟩⟩ hsteady',
        fun r hr => by cases hr⟩
      exact (hsteady'.trailInv.level_le l (hall l hl)).trans_eq h₁'

theorem Inv.decide {l : CNFLit} (hs : m.step (.decide l) = some m') : Inv m' := by
  obtain ⟨hdata, hat, -⟩ := h
  have hsame := SameProblem.append m.solver l
  cases transition_of_step hs with
  | decide hc hl he =>
    rw [hc] at hat
    cases hat with
    | deciding hr hassumed hsteady =>
      obtain ⟨hsearched, -⟩ := hassumed.append hdata hsteady hl.2.1 hl.2.2
      rw [he] at hsearched hsame
      exact ⟨hsearched.data, .decided (hr.same hsame) hsearched.assumed (hsearched.ready rfl),
        fun r hr => by cases hr⟩
  | decideConflict hc hl he =>
    rw [hc] at hat
    cases hat with
    | deciding hr hassumed hsteady =>
      obtain ⟨hsearched, h₂⟩ := hassumed.append hdata hsteady hl.2.1 hl.2.2
      rw [he] at hsearched h₂ hsame
      exact ⟨hsearched.data, .conflict (hr.same hsame) hsearched.assumed (hsearched.clash _ rfl) h₂,
        fun r hr => by cases hr⟩

theorem Inv.resolve {lowLBD : Bool} (hs : m.step (.resolve lowLBD) = some m') : Inv m' := by
  obtain ⟨hdata, hat, -⟩ := h
  cases transition_of_step hs with
  | resolve hc he =>
    rw [hc] at hat
    cases hat with
    | conflict hr hassumed hclash h₂ =>
      cases hassumed.resolved hdata hclash h₂ he with
      | «continue» hdata' hassumed' hready =>
        exact ⟨hdata', .decided (hr.same (.resolveConflict he)) hassumed' hready, fun r hr => by cases hr⟩
  | @resolveRestart _ _ t hc he =>
    rw [hc] at hat
    cases hat with
    | conflict hr hassumed hclash h₂ =>
      cases hassumed.resolved hdata hclash h₂ he with
      | restart hdata' hrestarted hclean =>
        have hback : SameProblem t t.backtrackAll := ⟨rfl, rfl⟩
        refine ⟨hdata'.congr (.undoAll _), .restarting ((hr.same (.resolveConflict he)).same hback) hrestarted ?_,
          fun r hr => by cases hr⟩
        exact (undoAll_dirty _).trans hclean
  | resolveConflict hc he =>
    rw [hc] at hat
    cases hat with
    | conflict hr hassumed hclash h₂ =>
      cases hassumed.resolved hdata hclash h₂ he with
      | conflict hdata' hassumed' hclash' h₂' =>
        exact ⟨hdata', .conflict (hr.same (.resolveConflict he)) hassumed' hclash' h₂', fun r hr => by cases hr⟩

theorem Inv.continue {shouldRestart stopRequested : Bool}
    (hs : m.step (.continue shouldRestart stopRequested) = some m') : Inv m' := by
  obtain ⟨hdata, hat, -⟩ := h
  cases transition_of_step hs with
  | restart hc =>
    rw [hc] at hat
    cases hat with
    | decided hr hassumed hready =>
      have hback : SameProblem m.solver m.solver.backtrackAll := ⟨rfl, rfl⟩
      refine ⟨hdata.congr (.undoAll _),
        .restarting (hr.same hback) (hassumed.toLinked.restarted (Steady.ready hready).undoAll) ?_,
        fun r hr => by cases hr⟩
      exact (undoAll_dirty _).trans hready.clean
  | stopped hc hn =>
    rw [hc] at hat
    cases hat with
    | decided hr hassumed hready =>
      exact .conclude hdata (hassumed.toLinked.detached (Steady.ready hready).undoAll hready.clean)
        sound_indeterminate
  | «continue» hc hn =>
    rw [hc] at hat
    cases hat with
    | decided hr hassumed hready =>
      exact ⟨hdata, .deciding hr hassumed (.ready hready), fun r hr => by cases hr⟩

theorem Inv.finish (hs : m.step .finish = some m') : Inv m' := by
  obtain ⟨hdata, hat, -⟩ := h
  cases transition_of_step hs with
  | finish hc hcomplete =>
    rw [hc] at hat
    cases hat with
    | deciding hr hassumed hsteady =>
      refine .conclude hdata (hassumed.toLinked.detached hsteady.undoAll ?_)
        (sound_true hdata hr hassumed hsteady hcomplete)
      cases hsteady with
      | idle hi =>
        have hlen := beq_iff_eq.mp hcomplete
        rw [hi.nil, hassumed.size_eq] at hlen
        cases hlen
      | ready hready => exact hready.clean

theorem Inv.step {e : Event} (hreg : e.Regular) (hs : m.step e = some m') : Inv m' := by
  cases e with
  | addClause clause => exact h.addClause hreg hs
  | addProblem clauses => exact h.addProblem hreg hs
  | setDRATCertificate => exact h.setDRATCertificate hs
  | solve assumedFacts => exact h.solve hreg hs
  | stop => exact h.stop hs
  | trySimplify => exact h.trySimplify hs
  | tryReduceClauseDB sorted lowLBD => exact h.tryReduceClauseDB hs
  | propagateHardFacts => exact h.propagateHardFacts hs
  | propagateAssumedFacts => exact h.propagateAssumedFacts hs
  | decide l => exact h.decide hs
  | resolve lowLBD => exact h.resolve hs
  | «continue» shouldRestart stopRequested => exact h.continue hs
  | finish => exact h.finish hs

end

theorem conclude_maxVar (m : Machine) (s : CDCLSatSolver) (result : TBool) (failedAssumptions : List CNFLit) :
    (m.conclude s result failedAssumptions).solver.maxVar = s.maxVar := by
  show (if result = .FALSE then s.finalizeProofOnUnsat else s).maxVar = s.maxVar
  split
  · exact finalizeProofOnUnsat_maxVar s
  · rfl

/-- The greatest variable is raised between calls and at their beginning. -/
theorem maxVar_of_busy {e : Event} (hs : m.step e = some m') (hb : ∀ r, m.control ≠ .ready r) :
    m'.solver.maxVar = m.solver.maxVar := by
  cases transition_of_step hs with
  | addClause hc => exact absurd hc (hb _)
  | addProblem hc => exact absurd hc (hb _)
  | setDRATCertificate hc => exact absurd hc (hb _)
  | solveDetected hc hd => exact absurd hc (hb _)
  | solve hc hd => exact absurd hc (hb _)
  | stop hc => exact conclude_maxVar _ _ _ _
  | simplifyRefuted hc he =>
    have hsame := (SameProblem.trySimplify m.solver).maxVar
    rw [he] at hsame
    exact (conclude_maxVar _ _ _ _).trans hsame
  | simplify hc he =>
    have hsame := (SameProblem.trySimplify m.solver).maxVar
    rw [he] at hsame
    exact hsame
  | @reduce sorted lowLBD hc hp => exact (SameProblem.tryReduceClauseDB m.solver sorted lowLBD).maxVar
  | factsRefuted hc he =>
    have hsame := (SameProblem.propagateHardFacts m.solver).maxVar
    rw [he] at hsame
    exact (conclude_maxVar _ _ _ _).trans hsame
  | facts hc he =>
    have hsame := (SameProblem.propagateHardFacts m.solver).maxVar
    rw [he] at hsame
    exact hsame
  | assumptionsRefuted hc he ha =>
    have hsame := (SameProblem.propagateFacts m.solver m.assumedFacts).maxVar
    rw [he] at hsame
    exact (conclude_maxVar _ _ _ _).trans hsame
  | assumptions hc he =>
    have hsame := (SameProblem.propagateFacts m.solver m.assumedFacts).maxVar
    rw [he] at hsame
    exact hsame
  | @decide l _ hc hl he =>
    have hsame := (SameProblem.append m.solver l).maxVar
    rw [he] at hsame
    exact hsame
  | @decideConflict l _ _ hc hl he =>
    have hsame := (SameProblem.append m.solver l).maxVar
    rw [he] at hsame
    exact hsame
  | resolve hc he => exact (SameProblem.resolveConflict he).maxVar
  | resolveRestart hc he => exact (SameProblem.resolveConflict he).maxVar
  | resolveConflict hc he => exact (SameProblem.resolveConflict he).maxVar
  | restart hc => rfl
  | stopped hc hn => exact conclude_maxVar _ _ _ _
  | «continue» hc hn => rfl
  | finish hc hcomplete => exact conclude_maxVar _ _ _ _

theorem Inv.of_reachable (h : m.Reachable) : Inv m :=
  Runs.Reachable.invariant (I := Inv) h (fun _ he => he ▸ .new) fun _ _ hi ⟨_, hr, hs⟩ => hi.step hr hs

/-! ## Results -/

/-- Whatever a `solve` call returns is right about the clauses that have been added
and the assumptions of the call. -/
theorem verdict_sound {r : SolvingResult} (h : m.Reachable) (hr : m.control = .ready (some r)) :
    r.Sound m.added m.assumedFacts :=
  (Inv.of_reachable h).result r hr

def firstConflict : List Event :=
  [.addClause [⟨0, .positive⟩, ⟨1, .positive⟩], .addClause [⟨0, .positive⟩, ⟨1, .negative⟩], .solve [],
    .trySimplify, .tryReduceClauseDB [] false, .propagateHardFacts, .propagateAssumedFacts, .decide ⟨0, .negative⟩]

def satisfied : Machine :=
  (new.run (firstConflict ++ [.resolve false, .trySimplify, .tryReduceClauseDB [] false, .propagateHardFacts,
    .propagateAssumedFacts, .decide ⟨1, .negative⟩, .continue false false, .finish])).get (by decide +kernel)

theorem satisfied_sound : ∃ r, satisfied.control = .ready (some r) ∧ r.isProblemSatisfiable = .TRUE ∧
    r.Sound satisfied.added satisfied.assumedFacts := by
  have hm : satisfied.Reachable := .run_get (.init rfl) (by decide) _
  obtain ⟨r, hr, hv⟩ := Control.exists_of_verdict (show satisfied.control.verdict = some .TRUE by decide +kernel)
  exact ⟨r, hr, hv, verdict_sound hm hr⟩

/-- Every conflict yields a lemma, for which the precondition of `registerLemma`
holds after the backjump. -/
theorem lemma_sound {c : ClauseRef} (h : m.Reachable) (hc : m.control = .conflict c) (lowLBD : Bool) :
    ∃ lits k, SoundLemma m.solver lits k ∧
      ((∃ l, lits = [l] ∧ m.solver.deriveLemma lowLBD c = some (.fact l, m.solver)) ∨
        2 ≤ lits.length ∧
          m.solver.deriveLemma lowLBD c = some (.clause m.solver.nextClause k, m.solver.addLemma lits) ∧
          (m.solver.resumed lits k).mem m.solver.nextClause = lemmaClause lits ∧
          (m.solver.resumed lits k).assignment.Asserting (lemmaClause lits)) := by
  obtain ⟨hdata, hat, -⟩ := Inv.of_reachable h
  rw [hc] at hat
  cases hat with
  | conflict hr hassumed hclash h₂ =>
    obtain ⟨lits, k, hl, hcase⟩ := hassumed.toSearching.deriveLemma hdata hclash h₂ lowLBD
    exact ⟨lits, k, hl, hcase.imp (fun ⟨l, he, _, hd⟩ => ⟨l, he, hd⟩) fun ⟨hlen, hd⟩ =>
      ⟨hlen, hd, resumed_mem _ lits k, hl.asserting_resumed hclash.core.trail hlen⟩⟩

def inConflict : Machine := (new.run firstConflict).get (by decide +kernel)

theorem inConflict_lemma : ∃ lits k, SoundLemma inConflict.solver lits k ∧
    ((∃ l, lits = [l] ∧ inConflict.solver.deriveLemma false 1 = some (.fact l, inConflict.solver)) ∨
      2 ≤ lits.length ∧
        inConflict.solver.deriveLemma false 1 =
          some (.clause inConflict.solver.nextClause k, inConflict.solver.addLemma lits) ∧
        (inConflict.solver.resumed lits k).mem inConflict.solver.nextClause = lemmaClause lits ∧
        (inConflict.solver.resumed lits k).assignment.Asserting (lemmaClause lits)) := by
  have hm : inConflict.Reachable := .run_get (.init rfl) (by decide) _
  have hc : inConflict.control = .conflict 1 := Control.eq_of_conflictingClause (by decide +kernel)
  exact lemma_sound hm hc false

end Machine

end JamSAT
