import JamSAT.SolveTerminates

/-!
# The facts over many calls

Facts are deduplicated at the beginning of a `solve` call, replaced by the trail after their
propagation, and compared by their numbers only. No fact is lost and none is repeated.
-/

namespace JamSAT

open UnitLogic Assignment

/-- What has been propagated contains the former facts, and the difference of the numbers does not wrap
around. -/
structure Propagates (facts propagated : List CNFLit) : Prop where
  subset : facts ⊆ propagated
  difference : (UInt64.ofNat propagated.length - UInt64.ofNat facts.length).toNat + facts.length = propagated.length

theorem Propagates.of_nodup {facts propagated : List CNFLit} (hn : facts.Nodup) (hs : facts ⊆ propagated)
    (hlt : propagated.length < UInt64.size) : Propagates facts propagated := by
  have hle : facts.length ≤ propagated.length := (hn.subperm hs).length_le
  have hp : (UInt64.ofNat propagated.length).toNat = propagated.length := UInt64.toNat_ofNat_of_lt' hlt
  have hf : (UInt64.ofNat facts.length).toNat = facts.length := UInt64.toNat_ofNat_of_lt' (hle.trans_lt hlt)
  refine ⟨hs, ?_⟩
  rw [UInt64.toNat_sub_of_le, hp, hf]
  · exact Nat.sub_add_cancel hle
  · rw [UInt64.le_iff_toNat_le, hp, hf]
    exact hle

namespace CDCLSatSolver

variable {Φ : Set (Finset CNFLit)} {K Z : Set ClauseRef} {dead : Set CNFLit} {s : CDCLSatSolver}

/-! ## Propagated facts -/

theorem Data.length_trail_lt (h : Data Φ s) {t : Assignment} (ht : t.TrailInv) (hs : t.size = s.maxVar + 1) :
    t.trail.length < UInt64.size := by
  have hundefined : CNFVar.undefinedVariable < UInt64.size := by decide
  calc
    t.trail.length ≤ s.maxVar + 1 := ht.length_le.trans_eq hs
    _ ≤ CNFVar.undefinedVariable := Nat.succ_le_of_lt h.regular
    _ < UInt64.size := hundefined

theorem Restarted.propagates_hardFacts (h : Restarted K Z dead s) (hdata : Data Φ s) (hn : s.facts.Nodup)
    (hb : s.propagateHardFacts.1 = false) : Propagates s.facts s.propagateHardFacts.2.assignment.trail := by
  have hend := h.appendFacts hdata
  unfold CDCLSatSolver.propagateHardFacts propagateFactsOnSystemLevels at hb ⊢
  generalize s.assignment.appendFacts s.facts = r at hend hb ⊢
  obtain ⟨failed, t⟩ := r
  cases failed with
  | some fact => cases hb
  | none =>
    obtain ⟨hsteady, hg, hall⟩ := hend
    have hlt := hdata.length_trail_lt hsteady.trailInv (hg.grows.size.trans h.size_eq)
    have hpropagates : Propagates s.facts t.trail := .of_nodup hn hall hlt
    dsimp only
    split
    · exact hpropagates
    · exact hpropagates

theorem Restarted.propagates_withConsequences (h : Restarted K Z dead s) (hdata : Data Φ s) (hn : s.facts.Nodup)
    {facts : List CNFLit} {t : Assignment}
    (hc : FactCleaner.withConsequences s.assignment s.facts = (some facts, t)) : Propagates s.facts facts := by
  cases FactCleaner.withConsequences_spec h.idle (h.registered hdata).lt_size with
  | inl hnone =>
    obtain ⟨u, he, -⟩ := hnone
    have he : FactCleaner.withConsequences s.assignment s.facts = (none, u.undoAll) := he
    rw [he] at hc
    cases hc
  | inr hsome =>
    obtain ⟨v, F, he, hclosed⟩ := hsome
    have he : FactCleaner.withConsequences s.assignment s.facts = (some F, v.undoAll) := he
    rw [he] at hc
    obtain rfl := Option.some.inj (Prod.mk.inj hc).1
    have hsize : v.size = s.maxVar + 1 := by
      rw [hclosed.grown.grows.size, undoAll_size]
      exact h.size_eq
    have hlt := hdata.length_trail_lt hclosed.trailInv hsize
    rw [hclosed.trail] at hlt
    exact .of_nodup hn hclosed.subset hlt

/-! ## No fact is lost -/

theorem addClause_facts (s : CDCLSatSolver) (clause : List CNFLit) : s.facts ⊆ (s.addClause clause).facts := by
  unfold addClause
  split
  · exact List.Subset.refl _
  · cases compressClause clause with
    | none => exact List.Subset.refl _
    | some compressed =>
      dsimp only
      split
      · exact List.subset_append_left _ _
      · exact List.Subset.refl _

theorem addProblem_facts (clauses : List (List CNFLit)) :
    ∀ s : CDCLSatSolver, s.facts ⊆ (s.addProblem clauses).facts := by
  induction clauses with
  | nil => exact fun s => List.Subset.refl _
  | cons clause clauses ih => exact fun s => List.Subset.trans (s.addClause_facts clause) (ih _)

theorem concludeSolve_facts (s : CDCLSatSolver) (result : TBool) (failedAssumptions : List CNFLit) :
    (s.concludeSolve result failedAssumptions).2.facts = s.facts := by
  unfold concludeSolve
  dsimp only
  split
  · exact (Similar.finalizeProofOnUnsat s).facts
  · rfl

theorem prepareSolve_facts (s : CDCLSatSolver) (assumedFacts : List CNFLit) :
    s.facts ⊆ (s.prepareSolve assumedFacts).facts := by
  intro l hl
  show l ∈ withoutRedundancies s.facts
  exact mem_withoutRedundancies.mpr hl

theorem deriveLemma_facts {lowLBD : Bool} {c : ClauseRef} {r : LemmaDerivationResult × CDCLSatSolver}
    (h : s.deriveLemma lowLBD c = some r) : r.2.facts = s.facts := by
  obtain ⟨lits, -, rfl⟩ := Option.map_eq_some_iff.mp h
  split
  · rfl
  · unfold addLemma
    dsimp only
    split
    · rfl
    · rfl

theorem learn_facts (s : CDCLSatSolver) (result : LemmaDerivationResult) : s.facts ⊆ (s.learn result).2.facts := by
  cases result with
  | fact l => exact List.subset_append_left _ _
  | clause c k =>
    rw [learn, afterLemma_snd]
    show s.facts ⊆ (s.recordLemma c).facts
    unfold recordLemma
    dsimp only
    split
    · exact List.Subset.refl _
    · exact List.Subset.refl _

theorem resolveConflict_facts {lowLBD : Bool} {c : ClauseRef} {r : ResolveResult × CDCLSatSolver}
    (h : s.resolveConflict lowLBD c = some r) : s.facts ⊆ r.2.facts := by
  obtain ⟨d, hd, rfl⟩ := Option.map_eq_some_iff.mp h
  have hfacts : d.2.registerConflict.facts = s.facts := deriveLemma_facts hd
  have hlearn := d.2.registerConflict.learn_facts d.1
  rwa [hfacts] at hlearn

theorem propagateFacts_facts {assumedFacts : List CNFLit} {r : Option CNFLit × CDCLSatSolver}
    (h : s.propagateFactsOnSystemLevels assumedFacts = r) : r.2.facts = s.facts := by
  rw [← h]
  rfl

theorem append_facts {l : CNFLit} {r : Option ClauseRef × CDCLSatSolver} (h : s.newLevel.append l = r) :
    r.2.facts = s.facts := by
  rw [← h]
  rfl

end CDCLSatSolver

def Control.atRestart : Control → Bool
  | .restarting | .simplified | .reduced => true
  | _ => false

namespace Machine

open CDCLSatSolver

variable {m m' : Machine} {e : Event}

/-! ## Steps -/

structure Booked (m : Machine) : Prop where
  inv : Inv m
  nodup : (∀ r, m.control ≠ .ready r) → m.solver.facts.Nodup

theorem step_of_ready {r : Option SolvingResult} (hr : m.control = .ready r) (hs : m.step e = some m') :
    (∃ r, m'.control = .ready r) ∨ m'.solver.facts.Nodup := by
  cases e with
  | addClause clause =>
    cases transition_of_step hs with
    | addClause hc => exact .inl ⟨none, rfl⟩
  | addProblem clauses =>
    cases transition_of_step hs with
    | addProblem hc => exact .inl ⟨none, rfl⟩
  | setDRATCertificate =>
    cases transition_of_step hs with
    | setDRATCertificate hc => exact .inl ⟨none, rfl⟩
  | solve assumedFacts =>
    cases transition_of_step hs with
    | solveDetected hc hd => exact .inl ⟨_, rfl⟩
    | solve hc hd => exact .inr (PacedMachine.prepareSolve_nodup m.solver assumedFacts)
  | _ =>
    unfold step at hs
    rw [hr] at hs
    cases hs

theorem Solving.step_nodup (h : Solving m) (hs : m.step e = some m') :
    (∃ r, m'.control = .ready r) ∨ m'.solver.facts.Nodup := by
  have hdetermined : Determined m' → ∃ r, m'.control = .ready r := by
    intro hd
    cases hd with
    | inl hv =>
      obtain ⟨r, hr, -⟩ := Control.exists_of_verdict hv
      exact ⟨_, hr⟩
    | inr hv =>
      obtain ⟨r, hr, -⟩ := Control.exists_of_verdict hv
      exact ⟨_, hr⟩
  have hbusy := h.busy
  cases e with
  | addClause clause =>
    cases transition_of_step hs with
    | addClause hc => exact absurd hc (hbusy _)
  | addProblem clauses =>
    cases transition_of_step hs with
    | addProblem hc => exact absurd hc (hbusy _)
  | setDRATCertificate =>
    cases transition_of_step hs with
    | setDRATCertificate hc => exact absurd hc (hbusy _)
  | solve assumedFacts =>
    cases transition_of_step hs with
    | solveDetected hc hd => exact absurd hc (hbusy _)
    | solve hc hd => exact absurd hc (hbusy _)
  | stop =>
    cases transition_of_step hs with
    | stop hc => exact .inl ⟨_, rfl⟩
  | trySimplify => exact (h.trySimplify hs).imp hdetermined Advances.nodup
  | tryReduceClauseDB sorted lowLBD => exact .inr (h.tryReduceClauseDB hs).nodup
  | propagateHardFacts => exact (h.propagateHardFacts hs).imp hdetermined Advances.nodup
  | propagateAssumedFacts => exact (h.propagateAssumedFacts hs).imp hdetermined Advances.nodup
  | decide l => exact .inr (h.decide hs).nodup
  | resolve lowLBD => exact .inr (h.resolve hs).1
  | «continue» shouldRestart stopRequested =>
    cases transition_of_step hs with
    | restart hc => exact .inr (h.restart hs).1
    | stopped hc hn => exact .inl ⟨_, rfl⟩
    | «continue» hc hn => exact .inr h.nodup
  | finish => exact .inl (hdetermined (finish_determined hs))

theorem Booked.step (h : Booked m) (hr : e.Regular) (hs : m.step e = some m') : Booked m' := by
  refine ⟨h.inv.step hr hs, fun hbusy => ?_⟩
  have hcases : (∃ r, m'.control = .ready r) ∨ m'.solver.facts.Nodup := by
    by_cases hready : ∃ r, m.control = .ready r
    · obtain ⟨r, hready⟩ := hready
      exact step_of_ready hready hs
    · rw [not_exists] at hready
      exact Solving.step_nodup ⟨h.inv, h.nodup hready, hready⟩ hs
  cases hcases with
  | inl hready =>
    obtain ⟨r, hready⟩ := hready
    exact absurd hready (hbusy r)
  | inr hn => exact hn

theorem Booked.of_reachable (h : m.Reachable) : Booked m :=
  Runs.Reachable.invariant (I := Booked) h (fun _ he => he ▸ ⟨.new, fun hb => absurd rfl (hb none)⟩)
    fun _ _ hb hs => hs.elim fun _ hs => hb.step hs.1 hs.2

theorem conclude_facts (m : Machine) (s : CDCLSatSolver) (result : TBool) (failedAssumptions : List CNFLit) :
    (m.conclude s result failedAssumptions).solver.facts = s.facts := concludeSolve_facts s result failedAssumptions

theorem Booked.trySimplify_facts (h : Booked m) (hc : m.control = .restarting) :
    m.solver.facts ⊆ m.solver.trySimplify.2.facts := by
  obtain ⟨⟨hdata, hat, -⟩, -⟩ := h
  rw [hc] at hat
  cases hat with
  | restarting hr hres hclean => exact hres.trySimplify_facts hdata

theorem Booked.propagateHardFacts_facts (h : Booked m) (hc : m.control = .reduced) :
    m.solver.facts ⊆ m.solver.propagateHardFacts.2.facts := by
  obtain ⟨⟨hdata, hat, -⟩, -⟩ := h
  rw [hc] at hat
  cases hat with
  | reduced hr hres => exact (hres.facts_propagateHardFacts hdata).2.2

theorem Booked.step_facts (h : Booked m) (hs : m.step e = some m') : m.solver.facts ⊆ m'.solver.facts := by
  cases transition_of_step hs with
  | addClause hc => exact addClause_facts _ _
  | addProblem hc => exact addProblem_facts _ _
  | setDRATCertificate hc => exact List.Subset.refl _
  | solveDetected hc hd =>
    show m.solver.facts ⊆ m.solver.finalizeProofOnUnsat.facts
    rw [(Similar.finalizeProofOnUnsat m.solver).facts]
    exact List.Subset.refl _
  | solve hc hd => exact prepareSolve_facts _ _
  | stop hc =>
    rw [conclude_facts]
    exact List.Subset.refl _
  | simplifyRefuted hc he =>
    have hfacts := h.trySimplify_facts hc
    rw [he] at hfacts
    rw [conclude_facts]
    exact hfacts
  | simplify hc he =>
    have hfacts := h.trySimplify_facts hc
    rw [he] at hfacts
    exact hfacts
  | @reduce sorted lowLBD hc hp =>
    show m.solver.facts ⊆ (m.solver.tryReduceClauseDB sorted lowLBD).facts
    rw [tryReduceClauseDB_facts]
    exact List.Subset.refl _
  | factsRefuted hc he =>
    have hfacts := h.propagateHardFacts_facts hc
    rw [he] at hfacts
    rw [conclude_facts]
    exact hfacts
  | facts hc he =>
    have hfacts := h.propagateHardFacts_facts hc
    rw [he] at hfacts
    exact hfacts
  | assumptionsRefuted hc he ha =>
    rw [conclude_facts, ← propagateFacts_facts he]
    exact List.Subset.refl _
  | assumptions hc he =>
    rw [← propagateFacts_facts he]
    exact List.Subset.refl _
  | decide hc hl he =>
    rw [← append_facts he]
    exact List.Subset.refl _
  | decideConflict hc hl he =>
    rw [← append_facts he]
    exact List.Subset.refl _
  | resolve hc he => exact resolveConflict_facts he
  | resolveRestart hc he => exact resolveConflict_facts he
  | resolveConflict hc he => exact resolveConflict_facts he
  | restart hc => exact List.Subset.refl _
  | stopped hc hn =>
    rw [conclude_facts]
    exact List.Subset.refl _
  | «continue» hc hn => exact List.Subset.refl _
  | finish hc hcomplete =>
    rw [conclude_facts]
    exact List.Subset.refl _

/-! ## Runs -/

theorem Booked.run_facts {es : List Event} (h : Booked m) (hr : ∀ e ∈ es, e.Regular) (hs : m.run es = some m') :
    m.solver.facts ⊆ m'.solver.facts := by
  induction es generalizing m with
  | nil =>
    cases hs
    exact List.Subset.refl _
  | cons e es ih =>
    obtain ⟨he, hes⟩ := List.forall_mem_cons.mp hr
    unfold run at hs
    rw [List.foldlM_cons] at hs
    obtain ⟨u, hu, hs⟩ := Option.bind_eq_some_iff.mp hs
    exact List.Subset.trans (h.step_facts hu) (ih (h.step he hu) hes hs)

/-- At a restart no fact is repeated, both propagations of the facts extend them without a wraparound, and
no later step loses a fact. -/
theorem fact_bookkeeping (h : m.Reachable) :
    (m.control.atRestart = true → m.solver.facts.Nodup) ∧
    (m.control = .reduced → m.solver.propagateHardFacts.1 = false →
      Propagates m.solver.facts m.solver.propagateHardFacts.2.assignment.trail) ∧
    (m.control = .restarting → ∀ facts t,
      FactCleaner.withConsequences m.solver.assignment m.solver.facts = (some facts, t) →
      Propagates m.solver.facts facts) ∧
    ∀ es m', (∀ e ∈ es, e.Regular) → m.run es = some m' → m.solver.facts ⊆ m'.solver.facts := by
  obtain ⟨⟨hdata, hat, -⟩, hnodup⟩ := Booked.of_reachable h
  have hbusy : m.control.atRestart = true → m.solver.facts.Nodup := by
    intro hc
    apply hnodup
    intro r hr
    rw [hr] at hc
    cases hc
  refine ⟨hbusy, fun hc hb => ?_, fun hc facts t he => ?_, fun es m' => (Booked.of_reachable h).run_facts⟩
  · have hn := hbusy (hc ▸ rfl)
    rw [hc] at hat
    cases hat with
    | reduced hr hres => exact hres.propagates_hardFacts hdata hn hb
  · have hn := hbusy (hc ▸ rfl)
    rw [hc] at hat
    cases hat with
    | restarting hr hres hclean => exact hres.propagates_withConsequences hdata hn he

def factLearnt : Machine := (new.run (firstConflict ++ [.resolve false])).get (by decide +kernel)

theorem factLearnt_bookkeeping : factLearnt.solver.facts.Nodup ∧ ∀ es m', (∀ e ∈ es, e.Regular) →
    factLearnt.run es = some m' → ⟨0, .positive⟩ ∈ m'.solver.facts := by
  have hm : factLearnt.Reachable := .run_get (.init rfl) (by decide) _
  obtain ⟨hnodup, -, -, hkept⟩ := fact_bookkeeping hm
  exact ⟨hnodup (by decide +kernel), fun es m' hr hs => hkept es m' hr hs (by decide +kernel)⟩

end Machine

end JamSAT
