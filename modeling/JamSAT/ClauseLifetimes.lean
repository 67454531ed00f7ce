import JamSAT.FactBookkeeping

/-!
# What becomes of the clauses

Clauses are created, lose literals that facts make false, and are deleted, by the fact
cleaner when a fact satisfies them and by the reduction of the clause database. Nothing
else happens to them, and a problem clause is never lost.
-/

namespace JamSAT

open UnitLogic Assignment

namespace CDCLSatSolver

variable {Φ : Set (Finset CNFLit)} {K Z : Set ClauseRef} {dead : Set CNFLit} {gone : Set ClauseRef}
  {s t u : CDCLSatSolver} {assumedFacts : List CNFLit} {c : ClauseRef}

/-! ## New clauses -/

structure Extends (s t : CDCLSatSolver) : Prop where
  nextClause_le : s.nextClause ≤ t.nextClause
  mem : ∀ c < s.nextClause, t.mem c = s.mem c
  clauseDB : ∀ c < s.nextClause, c ∈ t.clauseDB ↔ c ∈ s.clauseDB

theorem Extends.of_eq (hn : t.nextClause = s.nextClause) (hm : t.mem = s.mem) (hdb : t.clauseDB = s.clauseDB) :
    Extends s t :=
  ⟨hn.ge, fun _ _ => by rw [hm], fun _ _ => by rw [hdb]⟩

theorem Extends.trans (h : Extends s t) (h' : Extends t u) : Extends s u where
  nextClause_le := h.nextClause_le.trans h'.nextClause_le
  mem c hc := (h'.mem c (hc.trans_le h.nextClause_le)).trans (h.mem c hc)
  clauseDB c hc := (h'.clauseDB c (hc.trans_le h.nextClause_le)).trans (h.clauseDB c hc)

theorem Extends.createClause (s : CDCLSatSolver) (C : Clause) : Extends s (s.createClause C) where
  nextClause_le := Nat.le_succ _
  mem _ hc := createClause_mem_of_ne s C hc.ne
  clauseDB _ hc := mem_createClause.trans (or_iff_left hc.ne)

theorem Extends.addClause (s : CDCLSatSolver) (clause : List CNFLit) : Extends s (s.addClause clause) := by
  unfold CDCLSatSolver.addClause
  split
  · exact .of_eq rfl rfl rfl
  · cases compressClause clause with
    | none => exact .of_eq rfl rfl rfl
    | some compressed =>
      dsimp only
      split
      · exact .of_eq rfl rfl rfl
      · exact (Extends.createClause s _).trans (.of_eq rfl rfl rfl)

theorem Extends.addProblem (clauses : List (List CNFLit)) :
    ∀ s : CDCLSatSolver, Extends s (s.addProblem clauses) := by
  induction clauses with
  | nil => exact fun s => .of_eq rfl rfl rfl
  | cons clause clauses ih => exact fun s => (Extends.addClause s clause).trans (ih _)

theorem Extends.prepareSolve (s : CDCLSatSolver) (assumedFacts : List CNFLit) :
    Extends s (s.prepareSolve assumedFacts) :=
  .of_eq rfl ((synchronize_mem _).trans (increaseMaxVar_mem _)) rfl

theorem resumed_mem_eq (s : CDCLSatSolver) (lits : List CNFLit) (k : Nat) :
    (s.resumed lits k).mem = (s.createClause (lemmaClause lits)).mem := by
  rw [CDCLSatSolver.mem, resumed_assignment, undoToLevel_mem]
  rfl

theorem Extends.resumed (s : CDCLSatSolver) (lits : List CNFLit) (k : Nat) : Extends s (s.resumed lits k) := by
  have hcreate := Extends.createClause s (lemmaClause lits)
  refine hcreate.trans (.of_eq ?_ (resumed_mem_eq s lits k) ?_)
  · rw [CDCLSatSolver.resumed, recordLemma_eq]
    rfl
  · rw [CDCLSatSolver.resumed, recordLemma_eq]
    rfl

/-! ## Steps -/

/-- From `s` to `t`, the clause only loses literals that facts make false. -/
structure Shrinks (c : ClauseRef) (s t : CDCLSatSolver) : Prop where
  mem : c ∈ s.clauseDB
  subperm : (t.mem c).lits.Subperm (s.mem c).lits
  removed : ∀ x ∈ (s.mem c).lits, x ∈ (t.mem c).lits ∨ -x ∈ t.facts
  redundant : (t.mem c).redundant = (s.mem c).redundant

structure Evolves (gone : Set ClauseRef) (s t : CDCLSatSolver) : Prop where
  nextClause_le : s.nextClause ≤ t.nextClause
  shrinks : ∀ c ∈ t.clauseDB, c < s.nextClause → Shrinks c s t
  kept : ∀ c ∈ s.clauseDB, c ∈ t.clauseDB ∨ c ∈ gone ∨ (s.mem c).scheduledForDeletion = true

theorem Shrinks.of_eq (hc : c ∈ s.clauseDB) (hm : t.mem c = s.mem c) : Shrinks c s t := by
  refine ⟨hc, ?_, fun x hx => .inl ?_, ?_⟩
  · rw [hm]
  · rwa [hm]
  · rw [hm]

theorem Evolves.of_extends (h : Extends s t) (hdata : Data Φ s) : Evolves gone s t where
  nextClause_le := h.nextClause_le
  shrinks c hc hlt := .of_eq ((h.clauseDB c hlt).mp hc) (h.mem c hlt)
  kept c hc := .inl ((h.clauseDB c (hdata.fresh c hc)).mpr hc)

theorem Evolves.refl (hdata : Data Φ s) : Evolves gone s s := .of_extends (.of_eq rfl rfl rfl) hdata

/-- The order of the literals does not matter. -/
theorem Evolves.congr (h : Evolves gone s t) (hn : u.nextClause = t.nextClause) (hdb : u.clauseDB = t.clauseDB)
    (hl : ∀ c, (u.mem c).lits.Perm (t.mem c).lits) (hr : ∀ c, (u.mem c).redundant = (t.mem c).redundant)
    (hf : t.facts ⊆ u.facts) : Evolves gone s u where
  nextClause_le := h.nextClause_le.trans_eq hn.symm
  shrinks c hc hlt := by
    rw [hdb] at hc
    obtain ⟨hin, hsub, hremoved, hredundant⟩ := h.shrinks c hc hlt
    refine ⟨hin, (hl c).subperm.trans hsub, fun x hx => ?_, (hr c).trans hredundant⟩
    exact (hremoved x hx).imp (hl c).mem_iff.mpr fun hx => hf hx
  kept c hc := by
    rw [hdb]
    exact h.kept c hc

theorem Evolves.similar (h : Evolves gone s t) (hs : Similar t u) : Evolves gone s u := by
  refine h.congr hs.nextClause hs.clauseDB hs.lits hs.redundant ?_
  rw [hs.facts]
  exact List.Subset.refl _

theorem Evolves.of_similar (h : Similar s t) (hdata : Data Φ s) : Evolves gone s t := (refl hdata).similar h

theorem Evolves.backtrackAll (h : Evolves gone s t) : Evolves gone s t.backtrackAll := h.similar (.undoAll t)

theorem Evolves.conclude (h : Evolves gone s t) (result : TBool) (failedAssumptions : List CNFLit) :
    Evolves gone s (t.concludeSolve result failedAssumptions).2 := by
  unfold concludeSolve
  dsimp only
  split
  · exact (h.similar (.finalizeProofOnUnsat t)).backtrackAll
  · exact h.backtrackAll

theorem Evolves.trySimplify (h : Restarted K Z dead s) (hdata : Data Φ s) : Evolves gone s s.trySimplify.2 := by
  unfold CDCLSatSolver.trySimplify
  split
  · dsimp only
    cases FactCleaner.optimize_cases (h.registered hdata) s.optimizer s.unitLemmas with
    | inl hr =>
      rw [hr.2]
      exact .of_similar (similar_takeBack s _ s.sharedOptimizerState) hdata
    | inr hr =>
      cases hr with
      | inl hr =>
        obtain ⟨t, hr, ht⟩ := hr
        rw [hr]
        exact .of_similar (similar_takeBack_undone _ ht.grown.grows rfl rfl rfl) hdata
      | inr hr =>
        obtain ⟨F, v, -, hc⟩ := hr
        have hdb := hc.clauseDB_eq
        have hf := hc.facts_eq
        generalize (s.optimizer.optimize s.sharedOptimizerState s.unitLemmas).2 = st at hc hdb hf
        have hcleaned : Evolves gone s
            { s with facts := st.facts, clauseDB := st.clauseDB, assignment := st.assignment } := by
          refine ⟨le_rfl, fun c hin _ => ⟨?_, ?_, fun x hx => ?_, hc.redundant c⟩, fun c hin => .inl ?_⟩
          · have hin : c ∈ st.clauseDB := hin
            rw [hdb] at hin
            exact hin
          · exact (hc.edited c).subperm.trans (hc.closed.lits c).subperm
          · exact (hc.removed hx).imp_right fun hx => hf ▸ hx
          · show c ∈ st.clauseDB
            rw [hdb]
            exact hin
        exact hcleaned.similar (similar_takeBack s _ st)
  · exact .refl hdata

theorem Evolves.of_filter {toDelete : List ClauseRef} (hn : t.nextClause = s.nextClause)
    (hdb : t.clauseDB = s.clauseDB.filter fun c => !(t.mem c).scheduledForDeletion)
    (hout : ∀ c, c ∉ toDelete → t.mem c = s.mem c) (hin : ∀ c ∈ toDelete, (t.mem c).scheduledForDeletion = true)
    (hgone : ∀ c ∈ toDelete, c ∈ gone) : Evolves gone s t := by
  refine ⟨hn.ge, fun c hc _ => ?_, fun c hc => ?_⟩
  · rw [hdb, List.mem_filter, Bool.not_eq_true'] at hc
    have hnot : c ∉ toDelete := fun hdel => Bool.false_ne_true (hc.2.symm.trans (hin c hdel))
    exact .of_eq hc.1 (hout c hnot)
  · by_cases hdel : c ∈ toDelete
    · exact .inr (.inl (hgone c hdel))
    · cases halive : (s.mem c).scheduledForDeletion with
      | true => exact .inr (.inr rfl)
      | false =>
        rw [hdb, List.mem_filter, Bool.not_eq_true', hout c hdel]
        exact .inl ⟨hc, halive⟩

theorem Evolves.tryReduceClauseDB (hdata : Data Φ s) {sorted : List ClauseRef} {lowLBD : Bool}
    (hgone : s.clauseDBReductionPolicy.shouldReduceDB s.lemmas = true → ∀ c ∈
      ClauseDBReductionPolicy.getClausesMarkedForDeletion sorted lowLBD s.amntBinariesLearnt, c ∈ gone) :
    Evolves gone s (s.tryReduceClauseDB sorted lowLBD) := by
  unfold CDCLSatSolver.tryReduceClauseDB
  cases hshould : s.clauseDBReductionPolicy.shouldReduceDB s.lemmas with
  | false => exact .refl hdata
  | true =>
    obtain ⟨mem, he, hout, hin⟩ := foldl_scheduleForDeletion
      (ClauseDBReductionPolicy.getClausesMarkedForDeletion sorted lowLBD s.amntBinariesLearnt)
      { s with clauseDBReductionPolicy := s.clauseDBReductionPolicy.nextInterval }
    rw [Bool.not_true, if_neg Bool.false_ne_true]
    dsimp only
    generalize List.foldl scheduleForDeletion _ _ = r at he
    have hmem : r.compress.synchronizeSubsystemsWithClauseDB.mem = mem := by
      rw [synchronize_mem, he]
      rfl
    refine .of_filter (t := r.compress.synchronizeSubsystemsWithClauseDB) ?_ ?_ ?_ ?_ (hgone hshould)
    · rw [he]
      rfl
    · rw [hmem, he]
      rfl
    · rwa [hmem]
    · rwa [hmem]

theorem not_marked_of_mem {sorted : List ClauseRef} {lowLBD : Bool}
    (hshould : s.clauseDBReductionPolicy.shouldReduceDB s.lemmas = true)
    (hc : c ∈ (s.tryReduceClauseDB sorted lowLBD).clauseDB) :
    c ∉ ClauseDBReductionPolicy.getClausesMarkedForDeletion sorted lowLBD s.amntBinariesLearnt := by
  intro hmarked
  obtain ⟨mem, he, -, hin⟩ := foldl_scheduleForDeletion
    (ClauseDBReductionPolicy.getClausesMarkedForDeletion sorted lowLBD s.amntBinariesLearnt)
    { s with clauseDBReductionPolicy := s.clauseDBReductionPolicy.nextInterval }
  unfold CDCLSatSolver.tryReduceClauseDB at hc
  rw [hshould, Bool.not_true, if_neg Bool.false_ne_true] at hc
  dsimp only at hc
  rw [he] at hc
  have halive : (!(mem c).scheduledForDeletion) = true := (List.mem_filter.mp hc).2
  rw [hin c hmarked] at halive
  exact Bool.false_ne_true halive

theorem Evolves.propagateHardFacts (h : Restarted K Z dead s) (hdata : Data Φ s) :
    Evolves gone s s.propagateHardFacts.2 := by
  have hend := h.appendFacts hdata
  unfold CDCLSatSolver.propagateHardFacts propagateFactsOnSystemLevels
  generalize s.assignment.appendFacts s.facts = r at hend
  obtain ⟨_ | fact, t⟩ := r
  · obtain ⟨-, hg, hall⟩ := hend
    have hevolves : Evolves gone s { s with assignment := t } := .of_similar (.of_grows hg.grows) hdata
    dsimp only
    split
    · exact hevolves.congr rfl rfl (fun _ => .refl _) (fun _ => rfl) hall
    · exact hevolves
  · exact .of_similar (.of_grows hend.2.1.grows) hdata

theorem Evolves.propagateFacts (h : Searching K dead assumedFacts s) (hdata : Data Φ s)
    (hs : Steady s.clauses K Z dead s.assignment) (h₁ : s.assignment.currentLevel = 1)
    (hv : ∀ l ∈ assumedFacts, l.var ≤ s.maxVar) {r : Option CNFLit × CDCLSatSolver}
    (he : s.propagateFactsOnSystemLevels assumedFacts = r) : Evolves gone s r.2 :=
  .of_similar (h.propagated hdata hs h₁ hv he).2.1 hdata

theorem Evolves.append (h : Assumed K dead assumedFacts s) (hdata : Data Φ s)
    (hs : Steady s.clauses K Z dead s.assignment) {l : CNFLit} (hl : s.assignment.getAssignment l = .INDETERMINATE)
    (hv : l.var ≤ s.maxVar) {r : Option ClauseRef × CDCLSatSolver} (he : s.newLevel.append l = r) :
    Evolves gone s r.2 := by
  have hnew : Evolves gone s s.newLevel := .of_extends (.of_eq rfl rfl rfl) hdata
  rw [← he]
  exact hnew.similar (.of_grows (appended_newLevel hs h.size_eq hl hv).2.grows)

theorem Evolves.resolveConflict (ha : Assumed K dead assumedFacts s) (hdata : Data Φ s)
    (hc : Clash s.clauses K Z dead c s.assignment) (h₂ : 2 ≤ s.assignment.currentLevel) {lowLBD : Bool}
    {r : ResolveResult × CDCLSatSolver} (he : s.resolveConflict lowLBD c = some r) : Evolves gone s r.2 := by
  obtain ⟨lits, k, e, hl, hr, hcase⟩ := ha.toSearching.resolveConflict hdata hc h₂ lowLBD
  obtain rfl := Option.some.inj (he.symm.trans hr)
  cases hcase with
  | inl hfact =>
    obtain ⟨l, -, -, rfl⟩ := hfact
    have hrefl : Evolves gone s s := .refl hdata
    have hmem : (s.registerConflict.learn (.fact l)).2.mem = s.mem := rfl
    refine hrefl.congr rfl rfl (fun c => ?_) (fun c => ?_) (List.subset_append_left _ _)
    · rw [hmem]
    · rw [hmem]
  | inr hclause =>
    obtain ⟨hlen, hlearn⟩ := hclause
    obtain ⟨r, hr⟩ : ∃ r, r = s.resumed lits k := ⟨_, rfl⟩
    have hend := registerLemma_resumed hdata hc hl hlen hr
    have hextends : Evolves gone s r := .of_extends (hr ▸ .resumed s lits k) hdata
    rw [hlearn, afterLemma_snd, ← hr]
    unfold CDCLSatSolver.registerLemma
    generalize r.assignment.registerLemma s.nextClause = q at hend
    obtain ⟨_ | d, t⟩ := q
    · exact hextends.similar (.of_grows hend.2.grows)
    · exact hextends.similar (.of_grows hend.2.grows)

/-! ## What is left of a clause -/

def Satisfied (lits : List CNFLit) (s : CDCLSatSolver) : Prop := ∃ x ∈ lits, x ∈ s.facts

/-- The clause has been `lits`; what it has lost is false. -/
structure Remains (lits : List CNFLit) (c : ClauseRef) (s : CDCLSatSolver) : Prop where
  mem : c ∈ s.clauseDB
  subset : (s.mem c).lits ⊆ lits
  removed : ∀ x ∈ lits, x ∈ (s.mem c).lits ∨ -x ∈ s.facts

variable {lits : List CNFLit}

theorem Satisfied.mono (h : Satisfied lits s) (hf : s.facts ⊆ t.facts) : Satisfied lits t := by
  obtain ⟨x, hx, hin⟩ := h
  exact ⟨x, hx, hf hin⟩

theorem Remains.of_mem_iff (hc : c ∈ s.clauseDB) (hl : ∀ x, x ∈ (s.mem c).lits ↔ x ∈ lits) : Remains lits c s :=
  ⟨hc, fun x hx => (hl x).mp hx, fun x hx => .inl ((hl x).mpr hx)⟩

theorem Remains.evolve (h : Remains lits c s) (hdata : Data Φ s) (he : Evolves gone s t) (hf : s.facts ⊆ t.facts)
    (hc : c ∉ gone) : Satisfied lits t ∨ Remains lits c t ∧ (t.mem c).redundant = (s.mem c).redundant := by
  obtain ⟨hin, hsub, hremoved⟩ := h
  cases he.kept c hin with
  | inl hkept =>
    obtain ⟨-, hshrink, hlost, hredundant⟩ := he.shrinks c hkept (hdata.fresh c hin)
    refine .inr ⟨⟨hkept, List.Subset.trans hshrink.subset hsub, fun x hx => ?_⟩, hredundant⟩
    cases hremoved x hx with
    | inl hx => exact hlost x hx
    | inr hx => exact .inr (hf hx)
  | inr hgone =>
    obtain ⟨x, hx, hin⟩ := hdata.satisfied c hin (hgone.resolve_left hc)
    exact .inl ⟨x, hsub hx, hf hin⟩

/-! ## Problem clauses -/

/-- The clause is satisfied or there is an object for it that is no lemma. -/
def Represented (s : CDCLSatSolver) (clause : List CNFLit) : Prop :=
  Satisfied clause s ∨ ∃ c, Remains clause c s ∧ (s.mem c).redundant = false

theorem Represented.evolve (h : Represented s lits) (hdata : Data Φ s) (he : Evolves gone s t)
    (hf : s.facts ⊆ t.facts) (hgone : ∀ c ∈ gone, (s.mem c).redundant = true) : Represented t lits := by
  cases h with
  | inl hsat => exact .inl (hsat.mono hf)
  | inr hobject =>
    obtain ⟨c, hc, hr⟩ := hobject
    have hnot : c ∉ gone := fun hin => Bool.false_ne_true (hr.symm.trans (hgone c hin))
    refine (hc.evolve hdata he hf hnot).imp_right fun hleft => ?_
    exact ⟨c, hleft.1, hleft.2.trans hr⟩

theorem represented_addClause (s : CDCLSatSolver) (hne : lits ≠ []) (hn : ∀ l ∈ lits, -l ∉ lits) :
    Represented (s.addClause lits) lits := by
  unfold addClause
  rw [if_neg hne]
  obtain ⟨hnone, hsome⟩ := compressClause_correct lits
  cases hcomp : compressClause lits with
  | none =>
    obtain ⟨l, hl, hneg⟩ := hnone.mp hcomp
    exact absurd hneg (hn l hl)
  | some compressed =>
    have hmem := (hsome compressed hcomp).2
    dsimp only
    split
    · rename_i fact
      have hfact : fact ∈ lits := (hmem fact).mp (List.mem_singleton_self fact)
      exact .inl ⟨fact, hfact, List.mem_append_right _ (List.mem_singleton_self _)⟩
    · have hself : (s.createClause (.ofLits compressed)).mem s.nextClause = .ofLits compressed :=
        createClause_mem_self s (.ofLits compressed)
      have hin : s.nextClause ∈ (s.createClause (.ofLits compressed)).clauseDB := mem_createClause.mpr (.inr rfl)
      have hremains : Remains lits s.nextClause (s.createClause (.ofLits compressed)) := by
        refine .of_mem_iff hin fun x => ?_
        rw [hself]
        exact hmem x
      refine .inr ⟨s.nextClause, ⟨hremains.mem, hremains.subset, hremains.removed⟩, ?_⟩
      exact congrArg Clause.redundant hself

theorem represented_addProblem {clauses : List (List CNFLit)} : ∀ {added : List (List CNFLit)} {s : CDCLSatSolver},
    Data (addedSets added) s → (∀ clause ∈ clauses, ∀ l ∈ clause, l.var < CNFVar.undefinedVariable) →
    lits ∈ clauses → lits ≠ [] → (∀ l ∈ lits, -l ∉ lits) → Represented (s.addProblem clauses) lits := by
  induction clauses with
  | nil =>
    intro added s hdata hr hin
    cases hin
  | cons clause clauses ih =>
    intro added s hdata hr hin hne hn
    obtain ⟨hclause, hclauses⟩ := List.forall_mem_cons.mp hr
    have hnext : Data (addedSets (added ++ [clause])) (s.addClause clause) := by
      rw [addedSets_append]
      exact hdata.addClause hclause
    cases List.mem_cons.mp hin with
    | inl heq =>
      subst heq
      have hevolves : Evolves ∅ (s.addClause lits) ((s.addClause lits).addProblem clauses) :=
        .of_extends (.addProblem clauses _) hnext
      exact (represented_addClause s hne hn).evolve hnext hevolves (addProblem_facts clauses _) fun _ hc => hc.elim
    | inr hin => exact ih hnext hclauses hin hne hn

end CDCLSatSolver

namespace Machine

open CDCLSatSolver

variable {m m' : Machine} {e : Event} {c : ClauseRef}

def reduced (m : Machine) : Event → Set ClauseRef
  | .tryReduceClauseDB sorted lowLBD => {c | m.solver.clauseDBReductionPolicy.shouldReduceDB m.solver.lemmas = true ∧
      c ∈ ClauseDBReductionPolicy.getClausesMarkedForDeletion sorted lowLBD m.solver.amntBinariesLearnt}
  | _ => ∅

theorem Inv.evolves (h : Inv m) (hs : m.step e = some m') : Evolves (m.reduced e) m.solver m'.solver := by
  obtain ⟨hdata, hat, -⟩ := h
  cases transition_of_step hs with
  | addClause hc => exact .of_extends (.addClause _ _) hdata
  | addProblem hc => exact .of_extends (.addProblem _ _) hdata
  | setDRATCertificate hc => exact .of_extends (.of_eq rfl rfl rfl) hdata
  | solveDetected hc hd => exact .of_similar (.finalizeProofOnUnsat _) hdata
  | solve hc hd => exact .of_extends (.prepareSolve _ _) hdata
  | stop hc => exact (Evolves.refl hdata).conclude _ []
  | simplifyRefuted hc he =>
    rw [hc] at hat
    cases hat with
    | restarting hr hres hclean =>
      have hevolves : Evolves ∅ m.solver m.solver.trySimplify.2 := .trySimplify hres hdata
      rw [he] at hevolves
      exact hevolves.conclude _ []
  | simplify hc he =>
    rw [hc] at hat
    cases hat with
    | restarting hr hres hclean =>
      have hevolves : Evolves ∅ m.solver m.solver.trySimplify.2 := .trySimplify hres hdata
      rwa [he] at hevolves
  | reduce hc hp => exact .tryReduceClauseDB hdata fun hshould c hmem => ⟨hshould, hmem⟩
  | factsRefuted hc he =>
    rw [hc] at hat
    cases hat with
    | reduced hr hres =>
      have hevolves : Evolves ∅ m.solver m.solver.propagateHardFacts.2 := .propagateHardFacts hres hdata
      rw [he] at hevolves
      exact hevolves.conclude _ []
  | facts hc he =>
    rw [hc] at hat
    cases hat with
    | reduced hr hres =>
      have hevolves : Evolves ∅ m.solver m.solver.propagateHardFacts.2 := .propagateHardFacts hres hdata
      rw [he] at hevolves
      exact hevolves.similar (.of_mem rfl rfl rfl rfl rfl rfl rfl)
  | @assumptionsRefuted _ _ failedAssumptions hc he ha =>
    rw [hc] at hat
    cases hat with
    | assuming hr hsearch hsteady h₁ =>
      exact (Evolves.propagateFacts hsearch hdata hsteady h₁ hr.vars he).conclude _ failedAssumptions
  | assumptions hc he =>
    rw [hc] at hat
    cases hat with
    | assuming hr hsearch hsteady h₁ => exact .propagateFacts hsearch hdata hsteady h₁ hr.vars he
  | decide hc hl he =>
    rw [hc] at hat
    cases hat with
    | deciding hr hassumed hsteady => exact .append hassumed hdata hsteady hl.2.1 hl.2.2 he
  | decideConflict hc hl he =>
    rw [hc] at hat
    cases hat with
    | deciding hr hassumed hsteady => exact .append hassumed hdata hsteady hl.2.1 hl.2.2 he
  | resolve hc he =>
    rw [hc] at hat
    cases hat with
    | conflict hr hassumed hclash h₂ => exact .resolveConflict hassumed hdata hclash h₂ he
  | resolveRestart hc he =>
    rw [hc] at hat
    cases hat with
    | conflict hr hassumed hclash h₂ =>
      exact Evolves.backtrackAll (.resolveConflict hassumed hdata hclash h₂ he)
  | resolveConflict hc he =>
    rw [hc] at hat
    cases hat with
    | conflict hr hassumed hclash h₂ => exact .resolveConflict hassumed hdata hclash h₂ he
  | restart hc => exact (Evolves.refl hdata).backtrackAll
  | stopped hc hn => exact (Evolves.refl hdata).conclude _ []
  | «continue» hc hn => exact .refl hdata
  | finish hc hcomplete => exact (Evolves.refl hdata).conclude _ []

theorem perm_of_reduce {sorted : List ClauseRef} {lowLBD : Bool}
    (hs : m.step (.tryReduceClauseDB sorted lowLBD) = some m') : sorted.Perm m.solver.lemmas := by
  cases transition_of_step hs with
  | reduce _ hp => exact hp

theorem not_mem_reduced (hs : m.step e = some m') (hc : c ∈ m'.solver.clauseDB) : c ∉ m.reduced e := by
  intro hin
  cases transition_of_step hs with
  | reduce _ hp => exact not_marked_of_mem hin.1 hc hin.2
  | _ => exact hin.elim

theorem Inv.redundant_of_reduced (h : Inv m) (hs : m.step e = some m') (hc : c ∈ m.reduced e) :
    c ∈ m.solver.lemmas ∧ (m.solver.mem c).redundant = true := by
  have hin : c ∈ m.solver.lemmas := by
    cases transition_of_step hs with
    | reduce hc' hp => exact hp.subset (getClausesMarkedForDeletion_subset _ _ _ hc.2)
    | _ => exact hc.elim
  exact ⟨hin, (h.data.lemmas_redundant c hin).2⟩

structure Represents (m : Machine) : Prop where
  booked : Booked m
  represented : ∀ clause ∈ m.added, clause ≠ [] → (∀ l ∈ clause, -l ∉ clause) → Represented m.solver clause

theorem Represents.step (h : Represents m) (hreg : e.Regular) (hs : m.step e = some m') : Represents m' := by
  have hinv := h.booked.inv
  refine ⟨h.booked.step hreg hs, fun clause hin hne hn => ?_⟩
  have hold : clause ∈ m.added → Represented m'.solver clause := fun hin =>
    (h.represented clause hin hne hn).evolve hinv.data (hinv.evolves hs) (h.booked.step_facts hs)
      fun c hc => (hinv.redundant_of_reduced hs hc).2
  cases transition_of_step hs with
  | addClause hc =>
    cases List.mem_append.mp hin with
    | inl hin => exact hold hin
    | inr hin =>
      obtain rfl := List.mem_singleton.mp hin
      exact represented_addClause m.solver hne hn
  | addProblem hc =>
    cases List.mem_append.mp hin with
    | inl hin => exact hold hin
    | inr hin => exact represented_addProblem hinv.data hreg hin hne hn
  | _ => exact hold hin

/-- However clauses are simplified, learnt and deleted: as long as no fact satisfies it, there is
an object for each problem clause, which has lost only literals that are false. -/
theorem added_represented (h : m.Reachable) : ∀ clause ∈ m.added, clause ≠ [] → (∀ l ∈ clause, -l ∉ clause) →
    Represented m.solver clause := by
  have hinv : Represents m := Runs.Reachable.invariant (I := Represents) h
    (fun _ he => he ▸ ⟨.of_reachable (.init rfl), fun _ hin => absurd hin List.not_mem_nil⟩)
    fun _ _ hi hs => hs.elim fun _ hs => hi.step hs.1 hs.2
  exact hinv.represented

theorem satisfied_represented : Represented satisfied.solver [⟨0, .positive⟩, ⟨1, .negative⟩] :=
  added_represented (.run_get (.init rfl) (by decide) _) _ (by decide +kernel) (by decide) (by decide)

end Machine

end JamSAT
