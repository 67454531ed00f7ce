import JamSAT.IPASIRContext
import JamSAT.ModelCheck
import JamSAT.FailedAssumptions

/-!
# Whole calls of the solver

A call of `solve` keeps the clauses that have been added. The failed assumptions
of its result are among the assumptions, and if there are none, the clauses are
unsatisfiable without any assumption.
-/

namespace JamSAT

open UnitLogic

namespace CDCLSatSolver

open Assignment

variable {Φ : Set (Finset CNFLit)} {K Z : Set ClauseRef} {dead : Set CNFLit} {s t : CDCLSatSolver}
  {assumedFacts failed : List CNFLit} {fact : CNFLit}

theorem Unassumed.failed_spec (h : Unassumed K Z dead s) (hdata : Data Φ s)
    (hv : ∀ l ∈ assumedFacts, l.var ≤ s.maxVar)
    (hp : s.propagateFactsOnSystemLevels assumedFacts = (some fact, t))
    (he : AssignmentAnalysis.analyzeAssignment t.assignment.provider t.fuel fact = some failed) :
    failed ≠ [] ∧ ∀ l ∈ failed, l ∈ assumedFacts := by
  have hsearch : Searching K dead assumedFacts s := ⟨h.toLinked, h.rooted.mono (List.nil_subset _), h.one_le⟩
  obtain ⟨hend, -, hsearch', hdata', h₁⟩ := hsearch.propagated hdata h.steady h.level_one hv hp
  obtain ⟨hstop, -, hf⟩ := hend
  have hvar : fact.var ∈ t.assignment.trail.map CNFLit.var := by
    cases hstop with
    | isFalse _ hn => exact List.mem_map.mpr ⟨-fact, hn, rfl⟩
    | clash _ hm _ => exact List.mem_map.mpr ⟨fact, hm, rfl⟩
  have ht := hstop.core.trail
  have hfuel : t.assignment.trail.length + 1 < t.fuel := Nat.succ_lt_succ (Nat.lt_succ_of_le ht.length_le)
  obtain ⟨tail, he', -, htail⟩ :=
    AssignmentAnalysis.analyzeAssignment_exact (hsearch'.graph hdata' hstop.core).reasons hfuel hvar
  obtain rfl := Option.some.inj (he.symm.trans he')
  refine ⟨List.cons_ne_nil _ _, List.forall_mem_cons.mpr ⟨hf, fun l hl => ?_⟩⟩
  obtain ⟨hl, hlevel, hreason, -⟩ := (htail l).mp hl
  exact hsearch'.rooted.assumed l hl (hlevel.trans h₁) (Option.map_eq_none_iff.mp hreason)

end CDCLSatSolver

structure SolvingResult.Blames (r : SolvingResult) (added : List (List CNFLit)) (assumedFacts : List CNFLit) :
    Prop where
  assumed : ∀ l ∈ r.getFailedAssumptions, l ∈ assumedFacts
  unsat_of_nil : r.isProblemSatisfiable = .FALSE → r.getFailedAssumptions = [] → Unsat (addedSets added)

namespace Machine

open CDCLSatSolver

variable {m m' : Machine} {e : Event} {r : SolvingResult} {assumedFacts : List CNFLit} {run : List Event}

theorem blames_of_core (h : r.isProblemSatisfiable = .FALSE → UnsatCore (addedSets m.added) m.assumedFacts
    r.getFailedAssumptions) (hn : r.isProblemSatisfiable ≠ .FALSE → r.getFailedAssumptions = []) :
    r.Blames m.added m.assumedFacts := by
  refine ⟨fun l hl => ?_, fun hf hnil σ hσ => ?_⟩
  · by_cases hf : r.isProblemSatisfiable = .FALSE
    · exact (h hf).assumed l hl
    · rw [hn hf] at hl
      cases hl
  · refine (h hf).unsat σ (models_union.mpr ⟨hσ, models_units.mpr fun l hl => ?_⟩)
    rw [hnil] at hl
    cases hl

theorem failed_eq_nil (hs : m.step e = some m') (hr : m'.control = .ready (some r))
    (hf : r.isProblemSatisfiable ≠ .FALSE) : r.getFailedAssumptions = [] := by
  have hout : ∀ {s : CDCLSatSolver} {b : TBool} {failed : List CNFLit},
      (m.conclude s b failed).control = .ready (some r) → r.getFailedAssumptions = [] := by
    intro s b failed hr
    obtain rfl := Option.some.inj (Control.ready.inj hr)
    exact if_neg fun hb => hf (TBool.isFalse_iff.mp hb)
  cases transition_of_step hs with
  | solveDetected => cases hr; rfl
  | stop => exact hout hr
  | simplifyRefuted => exact hout hr
  | factsRefuted => exact hout hr
  | assumptionsRefuted => exact hout hr
  | stopped => exact hout hr
  | finish => exact hout hr
  | _ => cases hr

theorem blames_of_reachable (h : m.Reachable) (hr : m.control = .ready (some r)) :
    r.Blames m.added m.assumedFacts := by
  cases h with
  | init h =>
    subst h
    cases hr
  | @step u _ hu hs =>
    obtain ⟨e, -, hs⟩ := hs
    by_cases hc : u.control = .assuming
    · obtain rfl := step_assuming hs hc
      obtain ⟨K, Z, dead, hun, hv⟩ := unassumed_of_reachable hu hc
      cases transition_of_step hs with
      | assumptions => cases hr
      | assumptionsRefuted _ he ha =>
        obtain rfl := Option.some.inj (Control.ready.inj hr)
        obtain ⟨hne, hmem⟩ := hun.failed_spec (Inv.of_reachable hu).data hv he ha
        exact ⟨hmem, fun _ hnil => absurd hnil hne⟩
    · exact blames_of_core (FailsWithCore.of_unsat (Inv.of_reachable hu) hs hc r hr) (failed_eq_nil hs hr)

/-! ## Calls of `solve` -/

theorem frame_of_internal (hi : e.internal = true) (hs : m.step e = some m') :
    m'.added = m.added ∧ m'.assumedFacts = m.assumedFacts := by
  cases transition_of_step hs with
  | addClause => cases hi
  | addProblem => cases hi
  | setDRATCertificate => cases hi
  | solveDetected => cases hi
  | solve => cases hi
  | _ => exact ⟨rfl, rfl⟩

theorem frame_of_run (hi : ∀ e ∈ run, e.internal = true) (hs : m.run run = some m') :
    m'.added = m.added ∧ m'.assumedFacts = m.assumedFacts := by
  induction run generalizing m with
  | nil =>
    cases hs
    exact ⟨rfl, rfl⟩
  | cons e es ih =>
    obtain ⟨he, hes⟩ := List.forall_mem_cons.mp hi
    obtain ⟨u, hu, hs⟩ := Option.bind_eq_some_iff.mp hs
    obtain ⟨hadded, hassumed⟩ := frame_of_internal he hu
    obtain ⟨hadded', hassumed'⟩ := ih hes hs
    exact ⟨hadded'.trans hadded, hassumed'.trans hassumed⟩

theorem regular_of_internal (hi : e.internal = true) : e.Regular := by
  cases e with
  | addClause => cases hi
  | addProblem => cases hi
  | solve => cases hi
  | _ => trivial

theorem added_of_solve (hs : m.step (.solve assumedFacts) = some m') :
    m'.added = m.added ∧ m'.assumedFacts = assumedFacts := by
  cases transition_of_step hs with
  | solveDetected => exact ⟨rfl, rfl⟩
  | solve => exact ⟨rfl, rfl⟩

/-- What a whole call says about the clauses added before it and its assumptions. -/
structure Solved (m : Machine) (assumedFacts : List CNFLit) (r : SolvingResult) (m' : Machine) : Prop where
  reachable : m'.Reachable
  ready : m'.control = .ready (some r)
  added : m'.added = m.added
  sound : r.Sound m.added assumedFacts
  blames : r.Blames m.added assumedFacts

theorem solved_of_solve (h : m.Reachable) (ha : ∀ l ∈ assumedFacts, l.var < CNFVar.undefinedVariable)
    (hs : m.solve assumedFacts run = some (r, m')) : m.Solved assumedFacts r m' := by
  unfold Machine.solve at hs
  split at hs
  · rename_i hi
    have hi := List.all_eq_true.mp hi
    obtain ⟨u, hu, hs⟩ := Option.bind_eq_some_iff.mp hs
    have hreg : ∀ e ∈ Event.solve assumedFacts :: run, e.Regular :=
      List.forall_mem_cons.mpr ⟨ha, fun e he => regular_of_internal (hi e he)⟩
    have hreach := h.run hreg hu
    obtain ⟨v, hv, hu⟩ := Option.bind_eq_some_iff.mp hu
    obtain ⟨hadded, hassumed⟩ := added_of_solve hv
    obtain ⟨hadded', hassumed'⟩ := frame_of_run hi hu
    split at hs
    · rename_i r' hc
      obtain ⟨rfl, rfl⟩ := Prod.mk.inj (Option.some.inj hs)
      have hsound := (Inv.of_reachable hreach).result _ hc
      have hblames := blames_of_reachable hreach hc
      rw [hadded', hassumed', hadded, hassumed] at hsound hblames
      exact ⟨hreach, hc, hadded'.trans hadded, hsound, hblames⟩
    · cases hs
  · cases hs

end Machine

end JamSAT
