import JamSAT.SolverData

/-!
# Restarts

Between the restarts nothing is assigned and the clause database is registered
with the assignment. Synchronization, simplification and reduction keep this,
and so does the propagation of the facts.
-/

namespace JamSAT

open UnitLogic Assignment

namespace CDCLSatSolver

variable {Φ : Set (Finset CNFLit)} {R K Z : Set ClauseRef} {dead : Set CNFLit} {s t : CDCLSatSolver}

def clauses (s : CDCLSatSolver) : Set ClauseRef := {c | c ∈ s.clauseDB}

/-- Between `solve` calls: what is registered will be registered anew. -/
structure Detached (s : CDCLSatSolver) : Prop where
  idle : ∃ R K Z dead, Idle R K Z dead s.assignment ∧ R ⊆ s.clauses
  clean : s.assignment.dirty = ∅
  level_zero : s.assignment.currentLevel = 0
  size_le : s.assignment.size ≤ s.maxVar + 1

/-- The clauses of the database that are left are watched, and the literals of
`dead`, which may be left as blockers, are false facts. -/
structure Linked (K : Set ClauseRef) (dead : Set CNFLit) (s : CDCLSatSolver) : Prop where
  kept : ∀ c ∈ s.clauseDB, (s.mem c).scheduledForDeletion = false → c ∈ K
  dead_false : ∀ l ∈ dead, -l ∈ s.facts
  size_eq : s.assignment.size = s.maxVar + 1

structure Restarted (K Z : Set ClauseRef) (dead : Set CNFLit) (s : CDCLSatSolver) : Prop extends Linked K dead s where
  idle : Idle s.clauses K Z dead s.assignment
  level_zero : s.assignment.currentLevel = 0

theorem Restarted.detached (h : Restarted K Z dead s) (hd : s.assignment.dirty = ∅) : Detached s :=
  ⟨⟨_, K, Z, dead, h.idle, subset_rfl⟩, hd, h.level_zero, h.size_eq.le⟩

/-! ## Between `solve` calls -/

theorem Detached.new : Detached new :=
  ⟨⟨∅, ∅, ∅, ∅, .new _ 0, Set.empty_subset _⟩, by simp [CDCLSatSolver.new, dirty, Assignment.new], rfl, le_rfl⟩

theorem Detached.of_eq (h : Detached s) (ha : t.assignment = s.assignment) (hdb : t.clauseDB = s.clauseDB)
    (hv : s.maxVar ≤ t.maxVar) : Detached t where
  idle := by
    rw [ha, clauses, hdb]
    exact h.idle
  clean := ha ▸ h.clean
  level_zero := ha ▸ h.level_zero
  size_le := by
    rw [ha]
    exact h.size_le.trans (Nat.succ_le_succ hv)

theorem Detached.createClause (h : Detached s) (hdata : Data Φ s) (C : Clause) : Detached (s.createClause C) := by
  obtain ⟨⟨R, K, Z, dead, hi, hR⟩, hd, h₀, hs⟩ := h
  have hc : s.nextClause ∉ R := fun hc => hdata.ne_nextClause (hR hc) rfl
  exact ⟨⟨R, K, Z, dead, hi.writeClause hc C, fun c hc => mem_createClause.mpr (.inl (hR hc))⟩, hd, h₀, hs⟩

theorem Detached.addClause (h : Detached s) (hdata : Data Φ s) (clause : List CNFLit) :
    Detached (s.addClause clause) := by
  unfold CDCLSatSolver.addClause
  split
  · exact h.of_eq rfl rfl le_rfl
  · cases compressClause clause with
    | none => exact h
    | some compressed =>
      have hle : s.maxVar ≤ (s.raiseMaxVar compressed).maxVar := (foldl_max compressed s.maxVar).1
      match compressed, hle with
      | [], hle => exact (h.createClause hdata _).of_eq rfl rfl hle
      | [fact], hle => exact h.of_eq rfl rfl hle
      | a :: b :: lits, hle => exact (h.createClause hdata _).of_eq rfl rfl hle

theorem Detached.addProblem {clauses : List (List CNFLit)} : ∀ {added : List (List CNFLit)} {s : CDCLSatSolver},
    Detached s → Data (addedSets added) s → (∀ clause ∈ clauses, ∀ l ∈ clause, l.var < CNFVar.undefinedVariable) →
    Detached (s.addProblem clauses) := by
  induction clauses with
  | nil => exact fun h _ _ => h
  | cons clause clauses ih =>
    intro added s h hdata hr
    have hdata' : Data (addedSets (added ++ [clause])) (s.addClause clause) := by
      rw [addedSets_append]
      exact hdata.addClause (hr clause List.mem_cons_self)
    exact ih (h.addClause hdata clause) hdata' fun c hc => hr c (List.mem_cons_of_mem _ hc)

/-! ## Synchronization -/

theorem foldl_registerClause (cs : List ClauseRef) : ∀ s : Assignment,
    (cs.foldl Assignment.registerClause s).mem = s.mem ∧
    SameTrail s (cs.foldl Assignment.registerClause s) ∧
    (cs.foldl Assignment.registerClause s).litsRequiringWatcherUpdateAsVec = s.litsRequiringWatcherUpdateAsVec := by
  induction cs with
  | nil => exact fun s => ⟨rfl, .refl s, rfl⟩
  | cons c cs ih =>
    intro s
    obtain ⟨hm, ht, hv⟩ := ih (s.registerClause c)
    exact ⟨hm.trans (registerClause_mem s c), (sameTrail_registerClause s c).trans ht,
      hv.trans (registerClause_marks s c).2⟩

theorem synchronize_mem (s : CDCLSatSolver) : s.synchronizeSubsystemsWithClauseDB.mem = s.mem :=
  (foldl_registerClause s.clauseDB s.assignment.clearClauses).1

theorem synchronize_dirty (s : CDCLSatSolver) :
    s.synchronizeSubsystemsWithClauseDB.assignment.dirty = s.assignment.dirty :=
  dirty_congr (foldl_registerClause s.clauseDB s.assignment.clearClauses).2.2

/-- The lemmas are collected anew. -/
theorem Data.synchronize (h : Data Φ { s with lemmas := [] }) : Data Φ s.synchronizeSubsystemsWithClauseDB := by
  have hsim : Similar { s with lemmas := [] } { s.synchronizeSubsystemsWithClauseDB with lemmas := [] } :=
    .of_mem (synchronize_mem s) rfl rfl rfl rfl rfl rfl
  refine (h.congr hsim).setLemmas (L := s.synchronizeSubsystemsWithClauseDB.lemmas) fun c hc => ?_
  obtain ⟨hdb, hr⟩ := List.mem_filter.mp hc
  refine ⟨hdb, ?_⟩
  show (s.synchronizeSubsystemsWithClauseDB.mem c).redundant = true
  rw [synchronize_mem]
  exact hr

theorem Restarted.synchronize (hdata : Data Φ { s with lemmas := [] }) (ht : s.assignment.TrailInv)
    (hn : s.assignment.trail = []) (hf : s.assignment.FlagInv) (h₀ : s.assignment.currentLevel = 0)
    (hs : s.assignment.size = s.maxVar + 1)
    (ha : s.assignment.dirty ≠ ∅ → ∀ c ∈ s.clauseDB, (s.mem c).scheduledForDeletion = false) :
    ∃ K Z, Restarted K Z ∅ s.synchronizeSubsystemsWithClauseDB := by
  have hclear : Idle ∅ ∅ {c | (s.mem c).scheduledForDeletion = true} ∅ s.assignment.clearClauses :=
    Idle.clearClauses ht hn hf
  have hvars : ∀ c ∈ s.clauseDB, ∀ l ∈ (s.mem c).lits, l.var < s.assignment.size := fun c hc l hl =>
    (Nat.lt_succ_of_le (hdata.vars c hc l hl)).trans_eq hs.symm
  have hreg := hclear.registerClauses hdata.nodup (fun _ _ hc => hc) hdata.wf hvars (fun _ _ hd => hd) ha
  rw [Set.empty_union] at hreg
  have htrail := (foldl_registerClause s.clauseDB s.assignment.clearClauses).2.1
  exact ⟨_, _, ⟨fun c hc _ => hc, fun _ hl => hl.elim, htrail.size.trans hs⟩, hreg, htrail.currentLevel.trans h₀⟩

theorem increaseMaxVar_size {s : Assignment} {n : Nat} (h : s.size ≤ n + 1) :
    (s.increaseMaxVar n).size = n + 1 := by
  unfold Assignment.increaseMaxVar
  split
  · omega
  · rfl

/-- The state in which `solve` synchronizes. -/
theorem Data.prepared (h : Data Φ s) {assumedFacts : List CNFLit}
    (hr : ∀ l ∈ assumedFacts, l.var < CNFVar.undefinedVariable) :
    Data Φ
      { ({ s.raiseMaxVar assumedFacts with facts := withoutRedundancies s.facts } : CDCLSatSolver).resizeSubsystems
      with lemmas := [] } := by
  have hfacts : Data Φ { s.raiseMaxVar assumedFacts with facts := withoutRedundancies s.facts } :=
    (h.raiseMaxVar hr).setFacts (fun l hl => mem_withoutRedundancies.mpr hl)
      (fun l hl => (h.raiseMaxVar hr).fact_vars l (mem_withoutRedundancies.mp hl))
      fun σ hσ l hl => h.facts_hold hσ l (mem_withoutRedundancies.mp hl)
  apply (hfacts.setLemmas (L := []) fun _ hc => absurd hc List.not_mem_nil).congr
  exact .of_mem (increaseMaxVar_mem _) rfl rfl rfl rfl rfl rfl

theorem Data.prepareSolve (h : Data Φ s) {assumedFacts : List CNFLit}
    (hr : ∀ l ∈ assumedFacts, l.var < CNFVar.undefinedVariable) : Data Φ (s.prepareSolve assumedFacts) :=
  (h.prepared hr).synchronize

theorem Restarted.prepareSolve (h : Data Φ s) (hd : Detached s) {assumedFacts : List CNFLit}
    (hr : ∀ l ∈ assumedFacts, l.var < CNFVar.undefinedVariable) :
    (∃ K Z, Restarted K Z ∅ (s.prepareSolve assumedFacts)) ∧ (s.prepareSolve assumedFacts).assignment.dirty = ∅ ∧
      ∀ l ∈ assumedFacts, l.var ≤ (s.prepareSolve assumedFacts).maxVar := by
  obtain ⟨⟨R, K, Z, dead, hi, -⟩, hclean, h₀, hsize⟩ := hd
  obtain ⟨hle, hall, -⟩ := foldl_max assumedFacts s.maxVar
  have hdirty : (s.assignment.increaseMaxVar (s.raiseMaxVar assumedFacts).maxVar).dirty = ∅ :=
    (dirty_congr (increaseMaxVar_litsRequiringWatcherUpdateAsVec _)).trans hclean
  refine ⟨?_, (synchronize_dirty _).trans hdirty, hall⟩
  have hi := hi.increaseMaxVar (s.raiseMaxVar assumedFacts).maxVar
  exact Restarted.synchronize (h.prepared hr) hi.trail hi.nil hi.flags
    ((increaseMaxVar_currentLevel _).trans h₀) (increaseMaxVar_size (hsize.trans (Nat.succ_le_succ hle)))
      fun hne => absurd hdirty hne

/-! ## Reduction of the clause database -/

theorem foldl_scheduleForDeletion (cs : List ClauseRef) : ∀ s : CDCLSatSolver, ∃ mem : Memory,
    cs.foldl scheduleForDeletion s = { s with assignment := { s.assignment with mem := mem } } ∧
    (∀ c, c ∉ cs → mem c = s.mem c) ∧ ∀ c ∈ cs, (mem c).scheduledForDeletion = true := by
  induction cs with
  | nil => exact fun s => ⟨s.mem, rfl, fun _ _ => rfl, fun _ hc => absurd hc List.not_mem_nil⟩
  | cons c cs ih =>
    intro s
    obtain ⟨mem, he, hout, hin⟩ := ih (s.scheduleForDeletion c)
    refine ⟨mem, he, fun d hd => ?_, fun d hd => ?_⟩
    · rw [List.mem_cons, not_or] at hd
      rw [hout d hd.2]
      exact writeClause_mem_of_ne hd.1
    · by_cases hdc : d ∈ cs
      · exact hin d hdc
      · obtain rfl := (List.mem_cons.mp hd).resolve_right hdc
        rw [hout d hdc]
        exact congrArg Clause.scheduledForDeletion (writeClause_mem_self s.assignment d _)

theorem getClausesMarkedForDeletion_subset (sorted : List ClauseRef) (lowLBD : Bool) (n : Nat) :
    ClauseDBReductionPolicy.getClausesMarkedForDeletion sorted lowLBD n ⊆ sorted := by
  unfold ClauseDBReductionPolicy.getClausesMarkedForDeletion
  dsimp only
  split
  · exact List.nil_subset _
  · split
    · exact List.nil_subset _
    · exact List.drop_subset _ _

/-- The state in which `tryReduceClauseDB` synchronizes: only lemmas are gone. -/
theorem Data.reduced (h : Data Φ s) {toDelete : List ClauseRef} (hsub : toDelete ⊆ s.lemmas)
    (p : ClauseDBReductionPolicy) :
    ∃ mem : Memory, (toDelete.foldl scheduleForDeletion { s with clauseDBReductionPolicy := p }).compress =
        { s with
          clauseDBReductionPolicy := p
          assignment := { s.assignment with mem := mem }
          clauseDB := s.clauseDB.filter fun c => !(mem c).scheduledForDeletion } ∧
      Data Φ { s with
        clauseDBReductionPolicy := p
        assignment := { s.assignment with mem := mem }
        clauseDB := s.clauseDB.filter fun c => !(mem c).scheduledForDeletion
        lemmas := [] } ∧
      ∀ c ∈ s.clauseDB.filter fun c => !(mem c).scheduledForDeletion,
        c ∈ s.clauseDB ∧ mem c = s.mem c ∧ (s.mem c).scheduledForDeletion = false := by
  obtain ⟨mem, he, hout, hin⟩ := foldl_scheduleForDeletion toDelete { s with clauseDBReductionPolicy := p }
  have hleft : ∀ c, c ∈ (s.clauseDB.filter fun c => !(mem c).scheduledForDeletion) ↔
      c ∈ s.clauseDB ∧ c ∉ toDelete ∧ (s.mem c).scheduledForDeletion = false := by
    intro c
    rw [List.mem_filter, Bool.not_eq_true']
    refine and_congr_right fun _ => ⟨fun ha => ?_, fun ⟨hc, ha⟩ => (congrArg _ (hout c hc)).trans ha⟩
    have hc : c ∉ toDelete := fun hc => Bool.false_ne_true (ha.symm.trans (hin c hc))
    exact ⟨hc, (congrArg _ (hout c hc)).symm.trans ha⟩
  have hmem : ∀ c ∈ s.clauseDB.filter fun c => !(mem c).scheduledForDeletion, mem c = s.mem c := fun c hc =>
    hout c ((hleft c).mp hc).2.1
  refine ⟨mem, by rw [he]; rfl, ?_, fun c hc => ⟨((hleft c).mp hc).1, hmem c hc, ((hleft c).mp hc).2.2⟩⟩
  refine ⟨h.nodup.filter _, fun c hc => h.fresh c ((hleft c).mp hc).1, fun c hc => ?_, fun c hc => ?_, h.fact_vars,
    h.regular, fun σ hσ => ?_, fun hd σ hσ => ?_, h.detected, fun c hc hd => ?_,
    fun _ hc => absurd hc List.not_mem_nil⟩
  · show (mem c).WellFormed
    rw [hmem c hc]
    exact h.wf c ((hleft c).mp hc).1
  · show ∀ l ∈ (mem c).lits, _
    rw [hmem c hc]
    exact h.vars c ((hleft c).mp hc).1
  · refine models_union.mpr ⟨models_units.mpr (h.facts_hold hσ), ?_⟩
    rintro _ ⟨c, hc, rfl⟩
    show σ.Satisfies (mem c).litSet
    rw [hmem c hc]
    exact h.clause_holds hσ ((hleft c).mp hc).1
  · -- what has been deleted is redundant
    obtain ⟨hf, hcl⟩ := models_union.mp hσ
    apply h.complete hd
    refine models_union.mpr ⟨hf, ?_⟩
    rintro _ ⟨c, ⟨hc, ha, hr⟩, rfl⟩
    have hnot : c ∉ toDelete := fun hdel =>
      Bool.false_ne_true (hr.symm.trans (h.lemmas_redundant c (hsub hdel)).2)
    have hin := (hleft c).mpr ⟨hc, hnot, ha⟩
    rw [← hmem c hin] at ha hr ⊢
    exact hcl _ (mem_clauseSets ⟨hin, ha, hr⟩)
  · have hd : (mem c).scheduledForDeletion = true := hd
    rw [hmem c hc, ((hleft c).mp hc).2.2] at hd
    exact absurd hd Bool.false_ne_true

theorem Restarted.tryReduceClauseDB (h : Restarted K Z dead s) (hdata : Data Φ s) {sorted : List ClauseRef}
    (hp : sorted.Perm s.lemmas) (lowLBD : Bool) :
    Data Φ (s.tryReduceClauseDB sorted lowLBD) ∧
      ∃ K Z dead, Restarted K Z dead (s.tryReduceClauseDB sorted lowLBD) := by
  unfold CDCLSatSolver.tryReduceClauseDB
  split
  · exact ⟨hdata, K, Z, dead, h⟩
  · have hsub := List.Subset.trans (getClausesMarkedForDeletion_subset sorted lowLBD s.amntBinariesLearnt) hp.subset
    obtain ⟨mem, he, hred, hleft⟩ := hdata.reduced hsub s.clauseDBReductionPolicy.nextInterval
    dsimp only
    rw [he]
    refine ⟨hred.synchronize, ?_⟩
    have htrail : SameTrail s.assignment { s.assignment with mem := mem } := ⟨rfl, rfl, rfl, rfl, rfl, rfl⟩
    obtain ⟨K', Z', hr⟩ := Restarted.synchronize (s := { s with
        clauseDBReductionPolicy := s.clauseDBReductionPolicy.nextInterval
        assignment := { s.assignment with mem := mem }
        clauseDB := s.clauseDB.filter fun c => !(mem c).scheduledForDeletion }) hred
      (htrail.trailInv h.idle.trail) h.idle.nil
      (flagInv_congr h.idle.flags rfl rfl) h.level_zero h.size_eq fun _ c hc => by
        obtain ⟨-, hm, ha⟩ := hleft c hc
        exact (congrArg Clause.scheduledForDeletion hm).trans ha
    exact ⟨K', Z', ∅, hr⟩

/-! ## Simplification -/

theorem Restarted.registered (h : Restarted K Z dead s) (hdata : Data Φ s) :
    s.sharedOptimizerState.Registered s.clauses K Z dead where
  idle := h.idle
  nodup := hdata.nodup
  kept := h.kept
  known _ hc := hc
  implied c hc := by
    by_cases hd : (s.mem c).scheduledForDeletion = true
    · obtain ⟨x, hx, hf⟩ := hdata.satisfied c hc hd
      intro σ hσ
      exact ⟨x, Clause.mem_litSet.mpr hx, models_units.mp (models_union.mp hσ).1 x hf⟩
    · exact .of_mem (mem_formulaOf hc (Bool.eq_false_of_not_eq_true hd))
  dead := h.dead_false
  lt_size l hl := (Nat.lt_succ_of_le (hdata.fact_vars l hl)).trans_eq h.size_eq.symm

theorem Similar.undoAll (s : CDCLSatSolver) : Similar s { s with assignment := s.assignment.undoAll } :=
  .of_mem (undoAll_mem _) rfl rfl rfl rfl rfl rfl

theorem Similar.of_grows {t : Assignment} (h : Grows s.assignment t) : Similar s { s with assignment := t } :=
  ⟨rfl, rfl, rfl, rfl, rfl, rfl, h.lits, h.redundant, h.scheduledForDeletion⟩

theorem Data.unsat (h : Data Φ s) (hc : Conflict s.database ∅) : Unsat Φ :=
  fun σ hσ => hc.unsat σ (h.implied σ hσ)

end CDCLSatSolver

namespace FactCleaner.Cleaned

open CDCLSatSolver

variable {Φ : Set (Finset CNFLit)} {K Z : Set ClauseRef} {dead : Set CNFLit} {s : CDCLSatSolver} {F : List CNFLit}
  {v : Assignment} {st : SharedOptimizerState}

section
variable (h : Cleaned s.clauses K Z dead s.sharedOptimizerState F v st) (hdata : Data Φ s)
include h hdata

theorem facts_hold {σ : Valuation CNFLit} (hσ : σ.Models Φ) : ∀ l ∈ F, σ.holds l := fun l hl =>
  (h.closed.derives l hl).holds (hdata.implied σ hσ) fun _ ha => ha.elim

theorem data (hsize : s.assignment.size = s.maxVar + 1) :
    Data Φ { s with facts := st.facts, clauseDB := st.clauseDB, assignment := st.assignment } := by
  have hf : st.facts = F := h.facts_eq
  have hdb : st.clauseDB = s.clauseDB := h.clauseDB_eq
  have hsub : s.facts ⊆ st.facts := hf ▸ h.closed.subset
  refine ⟨hdb ▸ hdata.nodup, ?_, fun c hc => ?_, fun c hc l hl => ?_, fun l hl => ?_, hdata.regular,
    fun σ hσ => ?_, fun hd σ hσ => ?_, hdata.detected, fun c hc hd => ?_, fun c hc => ?_⟩
  · rw [hdb]
    exact hdata.fresh
  · exact (h.edited c).wellFormed ((hdata.wf c (hdb ▸ hc)).of_perm (h.closed.lits c))
  · exact hdata.vars c (hdb ▸ hc) l (h.lits_subset hl)
  · exact Nat.lt_succ_iff.mp ((h.closed.lt_size l (hf ▸ hl)).trans_eq hsize)
  · refine models_union.mpr ⟨models_units.mpr fun l hl => h.facts_hold hdata hσ l (hf ▸ hl), ?_⟩
    rintro _ ⟨c, hc, rfl⟩
    obtain ⟨x, hx, hσx⟩ := hdata.clause_holds hσ (hdb ▸ hc : c ∈ s.clauseDB)
    rcases h.removed (Clause.mem_litSet.mp hx) with hx | hx
    · exact ⟨x, Clause.mem_litSet.mpr hx, hσx⟩
    · exact absurd hσx ((σ.holds_neg x).mp (h.facts_hold hdata hσ _ hx))
  · -- a clause that the facts have deleted is satisfied, the others have become shorter
    obtain ⟨hfacts, hcl⟩ := models_union.mp hσ
    have hfacts := models_units.mp hfacts
    apply hdata.complete hd σ
    refine models_union.mpr ⟨models_units.mpr fun l hl => hfacts l (hsub hl), ?_⟩
    rintro _ ⟨c, ⟨hc, ha, hr⟩, rfl⟩
    by_cases hdel : (st.mem c).scheduledForDeletion = true
    · obtain hd | ⟨x, hx, hxF⟩ := h.deleted hdel
      · exact absurd (ha.symm.trans hd) Bool.false_ne_true
      · exact ⟨x, Clause.mem_litSet.mpr (h.lits_subset hx), hfacts x (hf ▸ hxF)⟩
    · obtain ⟨x, hx, hσx⟩ := hcl _ (mem_clauseSets
        ⟨hdb ▸ hc, Bool.eq_false_of_not_eq_true hdel, (h.redundant c).trans hr⟩)
      exact ⟨x, Clause.mem_litSet.mpr (h.lits_subset (Clause.mem_litSet.mp hx)), hσx⟩
  · obtain hd | ⟨x, hx, hxF⟩ := h.deleted hd
    · obtain ⟨x, hx, hxs⟩ := hdata.satisfied c (hdb ▸ hc) hd
      exact ⟨x, ((h.kept hd).2 x).mpr hx, hsub hxs⟩
    · exact ⟨x, hx, hf ▸ hxF⟩
  · obtain ⟨hc, hr⟩ := hdata.lemmas_redundant c hc
    exact ⟨hdb ▸ hc, (h.redundant c).trans hr⟩

end

end FactCleaner.Cleaned

namespace CDCLSatSolver

variable {Φ : Set (Finset CNFLit)} {K Z : Set ClauseRef} {dead : Set CNFLit} {s : CDCLSatSolver}
  {st : SharedOptimizerState}

/-- The destruction of the occurrence map changes no literal. -/
theorem similar_takeBack (s : CDCLSatSolver) (fc : FactCleaner) (st : SharedOptimizerState) :
    Similar { s with facts := st.facts, clauseDB := st.clauseDB, assignment := st.assignment }
      (s.takeBack fc st) := by
  have hs := OccurrenceMap.same_destroy st.mem st.occMap
  exact ⟨rfl, rfl, rfl, rfl, rfl, rfl, fun c => .of_eq (hs.lits c), hs.redundant, hs.scheduledForDeletion⟩

theorem Restarted.takeBack_cleaned (h : Restarted K Z dead s) (hdata : Data Φ s) (fc : FactCleaner)
    {F : List CNFLit} {v : Assignment}
    (hc : FactCleaner.Cleaned s.clauses K Z dead s.sharedOptimizerState F v st) :
    Data Φ (s.takeBack fc st) ∧ ∃ K dead, Restarted K Z dead (s.takeBack fc st) := by
  have hsim := similar_takeBack s fc st
  refine ⟨(hc.data hdata h.size_eq).congr hsim, ?_⟩
  obtain ⟨K', dead', hidle, hdead, hK⟩ := hc.idle
  have hdb : st.clauseDB = s.clauseDB := hc.clauseDB_eq
  refine ⟨K', dead', ⟨fun c hcd ha => ?_, fun l hl => ?_, ?_⟩, ?_, ?_⟩
  · have ha : (st.mem c).scheduledForDeletion = false := (hsim.scheduledForDeletion c).symm.trans ha
    exact hK c (h.kept c (hdb ▸ hcd) (hc.alive ha)) ha
  · show -l ∈ st.facts
    rw [hc.facts_eq]
    exact hdead l hl
  · have hsize : st.assignment.size = v.undoAll.size := hc.progress.cleaning.trail.size
    rw [undoAll_size, hc.closed.grown.grows.size, undoAll_size] at hsize
    exact hsize.trans h.size_eq
  · have hset : (s.takeBack fc st).clauses = s.clauses := congrArg (fun cs => {c | c ∈ cs}) hdb
    rw [hset]
    exact hidle.of_same (OccurrenceMap.same_destroy st.mem st.occMap)
  · exact hc.progress.cleaning.trail.currentLevel

theorem Restarted.takeBack_self (h : Restarted K Z dead s) (hdata : Data Φ s) (fc : FactCleaner) :
    Data Φ (s.takeBack fc s.sharedOptimizerState) ∧ Restarted K Z dead (s.takeBack fc s.sharedOptimizerState) :=
  ⟨hdata.congr (similar_takeBack s fc s.sharedOptimizerState), ⟨h.kept, h.dead_false, h.size_eq⟩, h.idle,
    h.level_zero⟩

theorem similar_takeBack_undone (fc : FactCleaner) {t : Assignment} (hg : Grows s.assignment.undoAll t)
    (hst : st.facts = s.facts) (hdb : st.clauseDB = s.clauseDB) (ha : st.assignment = t.undoAll) :
    Similar s (s.takeBack fc st) := by
  have hsim : Similar s { s with facts := st.facts, clauseDB := st.clauseDB, assignment := st.assignment } := by
    rw [hst, hdb, ha]
    exact ((Similar.undoAll s).trans (.of_grows hg)).trans (.undoAll _)
  exact hsim.trans (similar_takeBack s fc st)

theorem Restarted.takeBack_refuted (h : Restarted K Z dead s) (hdata : Data Φ s) (fc : FactCleaner)
    (st : SharedOptimizerState) {t : Assignment}
    (ht : FactCleaner.Refuted s.clauses K Z dead s.facts s.assignment t) (hst : st.facts = s.facts)
    (hdb : st.clauseDB = s.clauseDB) (ha : st.assignment = t.undoAll) :
    Unsat Φ ∧ Data Φ (s.takeBack fc st) ∧ Detached (s.takeBack fc st) := by
  refine ⟨hdata.unsat ht.conflict, hdata.congr (similar_takeBack_undone fc ht.grown.grows hst hdb ha), ?_⟩
  have hidle : Idle s.clauses K Z dead { st.assignment with mem := st.occMap.destroy st.mem } := by
    have hi := ht.idle
    rw [← ha] at hi
    exact hi.of_same (OccurrenceMap.same_destroy st.mem st.occMap)
  refine ⟨⟨s.clauses, K, Z, dead, hidle, fun c hc => ?_⟩, ?_, ?_, ?_⟩
  · show c ∈ st.clauseDB
    exact hdb.symm ▸ hc
  · show st.assignment.dirty = ∅
    rw [ha]
    exact ht.clean
  · exact congrArg Assignment.currentLevel ha
  · show st.assignment.size ≤ s.maxVar + 1
    rw [ha, undoAll_size, ht.grown.grows.size, undoAll_size]
    exact h.size_eq.le

theorem Restarted.trySimplify (h : Restarted K Z dead s) (hdata : Data Φ s) :
    Data Φ s.trySimplify.2 ∧
    (s.trySimplify.1 = true → Unsat Φ ∧ Detached s.trySimplify.2) ∧
    (s.trySimplify.1 = false → ∃ K Z dead, Restarted K Z dead s.trySimplify.2) := by
  unfold CDCLSatSolver.trySimplify
  split
  · dsimp only
    rcases FactCleaner.optimize_cases (h.registered hdata) s.optimizer s.unitLemmas with
      ⟨-, hr⟩ | ⟨t, hr, ht⟩ | ⟨F, v, -, hc⟩
    · rw [hr]
      obtain ⟨hdata, hres⟩ := h.takeBack_self hdata (s.optimizer.optimize s.sharedOptimizerState s.unitLemmas).1
      exact ⟨hdata, fun hd => absurd hd Bool.false_ne_true, fun _ => ⟨K, Z, dead, hres⟩⟩
    · rw [hr]
      obtain ⟨hunsat, hdata, hdet⟩ := h.takeBack_refuted hdata
        (s.optimizer.optimize s.sharedOptimizerState s.unitLemmas).1
        { s.sharedOptimizerState.precomputeOccurrenceMap with assignment := t.undoAll, detectedUnsat := true }
        ht rfl rfl rfl
      exact ⟨hdata, fun _ => ⟨hunsat, hdet⟩, fun hd => absurd hd.symm Bool.false_ne_true⟩
    · rw [hc.progress.cleaning.sane]
      obtain ⟨hdata, K', dead', hres⟩ := h.takeBack_cleaned hdata
        (s.optimizer.optimize s.sharedOptimizerState s.unitLemmas).1 hc
      exact ⟨hdata, fun hd => absurd hd Bool.false_ne_true, fun _ => ⟨K', Z, dead', hres⟩⟩
  · exact ⟨hdata, fun hd => absurd hd Bool.false_ne_true, fun _ => ⟨K, Z, dead, h⟩⟩

theorem tryReduceClauseDB_facts (s : CDCLSatSolver) (sorted : List ClauseRef) (lowLBD : Bool) :
    (s.tryReduceClauseDB sorted lowLBD).facts = s.facts := by
  unfold tryReduceClauseDB
  split
  · rfl
  · dsimp only
    obtain ⟨mem, he, -⟩ := foldl_scheduleForDeletion
      (ClauseDBReductionPolicy.getClausesMarkedForDeletion sorted lowLBD s.amntBinariesLearnt)
      { s with clauseDBReductionPolicy := s.clauseDBReductionPolicy.nextInterval }
    rw [he]
    rfl

theorem Restarted.trySimplify_facts (h : Restarted K Z dead s) (hdata : Data Φ s) :
    s.facts ⊆ s.trySimplify.2.facts := by
  unfold CDCLSatSolver.trySimplify
  split
  · show s.facts ⊆ (s.optimizer.optimize s.sharedOptimizerState s.unitLemmas).2.facts
    cases FactCleaner.optimize_cases (h.registered hdata) s.optimizer s.unitLemmas with
    | inl hr =>
      rw [hr.2]
      exact List.Subset.refl _
    | inr hr =>
      cases hr with
      | inl hr =>
        obtain ⟨t, hr, -⟩ := hr
        rw [hr]
        exact List.Subset.refl _
      | inr hr =>
        obtain ⟨F, v, -, hc⟩ := hr
        rw [hc.facts_eq]
        exact hc.closed.subset
  · exact List.Subset.refl _

end CDCLSatSolver

end JamSAT
