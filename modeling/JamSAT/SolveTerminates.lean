import JamSAT.AssignmentAnalysisSound
import JamSAT.RestartPolicies
import JamSAT.SolverRuns
import Mathlib.Data.Finset.Powerset
import Mathlib.Data.Prod.Lex

/-!
# Every `solve` call ends

The rank of a state is lexicographic. First come the literals that are not facts
yet and whether the facts have changed since the last simplification. While both
stay the same every conflict adds a clause that the database did not have. The
database is reduced only after an interval of conflicts, and once an interval is
longer than the number of clauses there are no more reductions.
-/

namespace JamSAT

open UnitLogic Assignment

namespace CDCLSatSolver

def literalsUpTo (maxVar : CNFVar) : Finset CNFLit :=
  (Finset.range (maxVar + 1)).biUnion fun v => {⟨v, .negative⟩, ⟨v, .positive⟩}

theorem mem_literalsUpTo {maxVar : CNFVar} {l : CNFLit} : l ∈ literalsUpTo maxVar ↔ l.var ≤ maxVar := by
  obtain ⟨v, sign⟩ := l
  rw [literalsUpTo, Finset.mem_biUnion, ← Nat.lt_succ_iff, ← Finset.mem_range]
  cases sign with
  | negative => simp
  | positive => simp

def literalSets (s : CDCLSatSolver) : Finset (Finset CNFLit) := (s.clauseDB.map fun c => (s.mem c).litSet).toFinset

theorem mem_literalSets {s : CDCLSatSolver} {C : Finset CNFLit} :
    C ∈ s.literalSets ↔ ∃ c ∈ s.clauseDB, (s.mem c).litSet = C := by
  rw [literalSets, List.mem_toFinset, List.mem_map]

def clauseBound (s : CDCLSatSolver) : Nat := 2 ^ (literalsUpTo s.maxVar).card

def openLiterals (s : CDCLSatSolver) : Nat := (literalsUpTo s.maxVar).card - s.facts.toFinset.card

def cleaningDue (s : CDCLSatSolver) : Nat := if s.facts.length = s.optimizer.factsAfterLastCall then 0 else 1

/-- Zero if the database will be full before the next reduction. -/
def reductionsLeft (s : CDCLSatSolver) : Nat :=
  if s.clauseBound < s.clauseDBReductionPolicy.conflictsRemaining + s.literalSets.card then 0
  else 1 + (s.clauseBound + 1 - s.clauseDBReductionPolicy.intervalSize)

def lemmasLeft (s : CDCLSatSolver) : Nat := s.clauseBound - s.literalSets.card

def load (s : CDCLSatSolver) : ℕ ×ₗ ℕ ×ₗ ℕ ×ₗ ℕ :=
  toLex (s.openLiterals, toLex (s.cleaningDue, toLex (s.reductionsLeft, s.lemmasLeft)))

variable {Φ : Set (Finset CNFLit)} {K Z : Set ClauseRef} {dead : Set CNFLit} {s t : CDCLSatSolver}
  {assumedFacts : List CNFLit} {c : ClauseRef}

theorem Data.facts_subset (h : Data Φ s) : s.facts.toFinset ⊆ literalsUpTo s.maxVar := by
  intro l hl
  exact mem_literalsUpTo.mpr (h.fact_vars l (List.mem_toFinset.mp hl))

theorem Data.card_literalSets (h : Data Φ s) : s.literalSets.card ≤ s.clauseBound := by
  rw [clauseBound, ← Finset.card_powerset]
  apply Finset.card_le_card
  intro C hC
  obtain ⟨c, hc, rfl⟩ := mem_literalSets.mp hC
  apply Finset.mem_powerset.mpr
  intro l hl
  exact mem_literalsUpTo.mpr (h.vars c hc l (Clause.mem_litSet.mp hl))

/-! ## Steps that keep the load or lower it -/

theorem load_congr (hs : Similar s t) (hp : t.clauseDBReductionPolicy = s.clauseDBReductionPolicy)
    (ho : t.optimizer.factsAfterLastCall = s.optimizer.factsAfterLastCall) : load t = load s := by
  have hlits : ∀ c, (t.mem c).litSet = (s.mem c).litSet := fun c => List.toFinset_eq_of_perm _ _ (hs.lits c)
  have hsets : t.literalSets = s.literalSets := by
    rw [literalSets, literalSets, hs.clauseDB]
    exact congrArg List.toFinset (List.map_congr_left fun c _ => hlits c)
  have hbound : t.clauseBound = s.clauseBound := by rw [clauseBound, clauseBound, hs.maxVar]
  unfold load openLiterals cleaningDue reductionsLeft lemmasLeft
  rw [hs.facts, hs.maxVar, ho, hsets, hbound, hp]

theorem load_lt_of_facts (ht : Data Φ t) (hv : t.maxVar = s.maxVar)
    (hf : s.facts.toFinset ⊂ t.facts.toFinset) : load t < load s := by
  have hlt := Finset.card_lt_card hf
  have hle := Finset.card_le_card ht.facts_subset
  have hopen : t.openLiterals < s.openLiterals := by
    unfold openLiterals
    rw [hv] at hle ⊢
    omega
  exact Prod.Lex.toLex_lt_toLex.mpr (.inl hopen)

/-- The facts have been used for a simplification. -/
theorem load_lt_of_cleaning (hv : t.maxVar = s.maxVar) (hf : s.facts ⊆ t.facts)
    (hs : s.facts.length ≠ s.optimizer.factsAfterLastCall)
    (ht : t.facts.length = t.optimizer.factsAfterLastCall) : load t < load s := by
  have hsub : s.facts.toFinset ⊆ t.facts.toFinset := by
    intro l hl
    exact List.mem_toFinset.mpr (hf (List.mem_toFinset.mp hl))
  have hle := Finset.card_le_card hsub
  refine Prod.Lex.toLex_lt_toLex'.mpr ⟨?_, fun _ => Prod.Lex.toLex_lt_toLex.mpr (.inl ?_)⟩
  · show t.openLiterals ≤ s.openLiterals
    unfold openLiterals
    rw [hv]
    omega
  · show t.cleaningDue < s.cleaningDue
    unfold cleaningDue
    rw [if_pos ht, if_neg hs]
    exact Nat.zero_lt_one

theorem Restarted.load_trySimplify (h : Restarted K Z dead s) (hdata : Data Φ s) (hb : s.trySimplify.1 = false) :
    load s.trySimplify.2 ≤ load s := by
  have hv := (SameProblem.trySimplify s).maxVar
  have hf := h.trySimplify_facts hdata
  unfold CDCLSatSolver.trySimplify at hb hv hf ⊢
  split at hb
  · rename_i hw
    rw [if_pos hw] at hv hf ⊢
    dsimp only at hb hv hf ⊢
    cases FactCleaner.optimize_factsAfterLastCall (h.registered hdata) s.optimizer s.unitLemmas hb with
    | inl hsame =>
      obtain ⟨hfc, hst⟩ := hsame
      rw [hst]
      generalize (s.optimizer.optimize s.sharedOptimizerState s.unitLemmas).1 = fc at hfc
      have hsim : Similar s (s.takeBack fc s.sharedOptimizerState) := similar_takeBack s fc s.sharedOptimizerState
      exact (load_congr hsim rfl hfc).le
    | inr hnew =>
      exact (load_lt_of_cleaning hv hf hnew.1 hnew.2.symm).le
  · rename_i hw
    rw [if_neg hw]

theorem load_lt_of_nextInterval (hdata : Data Φ s) (hv : t.maxVar = s.maxVar) (hf : t.facts = s.facts)
    (ho : t.optimizer = s.optimizer) (hp : t.clauseDBReductionPolicy = s.clauseDBReductionPolicy.nextInterval)
    (hz : s.clauseDBReductionPolicy.conflictsRemaining = 0) : load t < load s := by
  have hcard := hdata.card_literalSets
  have hbound : t.clauseBound = s.clauseBound := by rw [clauseBound, clauseBound, hv]
  have hopen : t.openLiterals = s.openLiterals := by rw [openLiterals, openLiterals, hv, hf]
  have hdue : t.cleaningDue = s.cleaningDue := by rw [cleaningDue, cleaningDue, hf, ho]
  have hsize : s.clauseDBReductionPolicy.nextInterval.intervalSize =
    s.clauseDBReductionPolicy.intervalSize + 1300 := rfl
  have hremaining : s.clauseDBReductionPolicy.nextInterval.conflictsRemaining =
    s.clauseDBReductionPolicy.intervalSize + 1300 := rfl
  have hleft : t.reductionsLeft < s.reductionsLeft := by
    unfold reductionsLeft
    rw [hbound, hp, hz, Nat.zero_add, if_neg (Nat.not_lt.mpr hcard)]
    split
    · omega
    · omega
  refine Prod.Lex.toLex_lt_toLex.mpr (.inr ⟨hopen, ?_⟩)
  refine Prod.Lex.toLex_lt_toLex.mpr (.inr ⟨hdue, ?_⟩)
  exact Prod.Lex.toLex_lt_toLex.mpr (.inl hleft)

theorem load_tryReduceClauseDB (hdata : Data Φ s) (sorted : List ClauseRef) (lowLBD : Bool) :
    load (s.tryReduceClauseDB sorted lowLBD) ≤ load s := by
  have hv := (SameProblem.tryReduceClauseDB s sorted lowLBD).maxVar
  have hf := tryReduceClauseDB_facts s sorted lowLBD
  unfold CDCLSatSolver.tryReduceClauseDB at hv hf ⊢
  split
  · exact le_rfl
  · rename_i hr
    rw [if_neg hr] at hv hf
    have hzero : s.clauseDBReductionPolicy.conflictsRemaining = 0 := by
      simp [ClauseDBReductionPolicy.shouldReduceDB] at hr
      exact hr.1
    obtain ⟨mem, he, -⟩ := foldl_scheduleForDeletion
      (ClauseDBReductionPolicy.getClausesMarkedForDeletion sorted lowLBD s.amntBinariesLearnt)
      { s with clauseDBReductionPolicy := s.clauseDBReductionPolicy.nextInterval }
    dsimp only at hv hf ⊢
    rw [he] at hv hf ⊢
    apply le_of_lt
    exact load_lt_of_nextInterval hdata hv hf rfl rfl hzero

theorem Restarted.load_propagateHardFacts (h : Restarted K Z dead s) (hdata : Data Φ s) (hn : s.facts.Nodup)
    (hb : s.propagateHardFacts.1 = false) :
    load s.propagateHardFacts.2 ≤ load s ∧ s.propagateHardFacts.2.facts.Nodup := by
  have hdata' := (h.propagateHardFacts hdata []).1
  have hend := h.appendFacts hdata
  unfold CDCLSatSolver.propagateHardFacts propagateFactsOnSystemLevels at hb hdata' ⊢
  generalize s.assignment.appendFacts s.facts = r at hend hb hdata' ⊢
  obtain ⟨_ | fact, t⟩ := r
  · obtain ⟨hsteady, hg, hall⟩ := hend
    have hnodup : t.trail.Nodup := hsteady.trailInv.nodup_vars.of_map _
    dsimp only at hb hdata' ⊢
    split
    · rename_i hlen
      rw [if_pos hlen] at hdata'
      refine ⟨le_of_lt (load_lt_of_facts hdata' rfl ?_), hnodup⟩
      have hsub : s.facts.toFinset ⊆ t.trail.toFinset := by
        intro l hl
        exact List.mem_toFinset.mpr (hall l (List.mem_toFinset.mp hl))
      refine Finset.ssubset_iff_subset_ne.mpr ⟨hsub, fun he => hlen ?_⟩
      have hcard := congrArg Finset.card he
      rw [List.toFinset_card_of_nodup hn] at hcard
      exact (hcard.trans (List.toFinset_card_of_nodup hnodup)).symm
    · exact ⟨(load_congr (.of_grows hg.grows) rfl rfl).le, hn⟩
  · cases hb

theorem Restarted.trySimplify_nodup (h : Restarted K Z dead s) (hdata : Data Φ s) (hn : s.facts.Nodup)
    (hb : s.trySimplify.1 = false) : s.trySimplify.2.facts.Nodup := by
  unfold CDCLSatSolver.trySimplify at hb ⊢
  split at hb
  · rename_i hw
    rw [if_pos hw]
    dsimp only at hb ⊢
    rcases FactCleaner.optimize_cases (h.registered hdata) s.optimizer s.unitLemmas with
      ⟨-, hr⟩ | ⟨t, hr, -⟩ | ⟨F, v, -, hc⟩
    · rw [hr]
      exact hn
    · rw [hr] at hb
      cases hb
    · show (s.optimizer.optimize s.sharedOptimizerState s.unitLemmas).2.facts.Nodup
      rw [hc.facts_eq, ← hc.closed.trail]
      exact hc.closed.steady.trailInv.nodup_vars.of_map _
  · rename_i hw
    rw [if_neg hw]
    exact hn

/-! ## Conflicts -/

theorem resumed_literalSets (hdata : Data Φ s) (lits : List CNFLit) (k : Nat) :
    (s.resumed lits k).literalSets = insert lits.toFinset s.literalSets := by
  have hdb : (s.resumed lits k).clauseDB = s.clauseDB ++ [s.nextClause] := by
    rw [resumed, recordLemma_eq]
    rfl
  have hmem : ∀ c ∈ s.clauseDB, (s.resumed lits k).mem c = s.mem c := by
    intro c hc
    rw [CDCLSatSolver.mem, resumed_assignment, undoToLevel_mem]
    exact writeClause_mem_of_ne (hdata.ne_nextClause hc)
  ext C
  rw [Finset.mem_insert, mem_literalSets, mem_literalSets, hdb]
  constructor
  · intro hC
    obtain ⟨c, hc, rfl⟩ := hC
    cases List.mem_append.mp hc with
    | inl hc =>
      rw [hmem c hc]
      exact .inr ⟨c, hc, rfl⟩
    | inr hc =>
      rw [List.mem_singleton.mp hc, resumed_mem]
      exact .inl rfl
  · intro hC
    cases hC with
    | inl hC =>
      refine ⟨s.nextClause, by simp, ?_⟩
      rw [resumed_mem, hC]
      rfl
    | inr hC =>
      obtain ⟨c, hc, rfl⟩ := hC
      refine ⟨c, List.mem_append_left _ hc, ?_⟩
      rw [hmem c hc]

theorem load_lt_of_lemma {C : Finset CNFLit} (ht : Data Φ t) (hv : t.maxVar = s.maxVar) (hf : t.facts = s.facts)
    (ho : t.optimizer = s.optimizer)
    (hp : t.clauseDBReductionPolicy = s.clauseDBReductionPolicy.registerConflict)
    (hsets : t.literalSets = insert C s.literalSets) (hC : C ∉ s.literalSets) : load t < load s := by
  have hcard := ht.card_literalSets
  have hbound : t.clauseBound = s.clauseBound := by rw [clauseBound, clauseBound, hv]
  have hopen : t.openLiterals = s.openLiterals := by rw [openLiterals, openLiterals, hv, hf]
  have hdue : t.cleaningDue = s.cleaningDue := by rw [cleaningDue, cleaningDue, hf, ho]
  have hmore : t.literalSets.card = s.literalSets.card + 1 := by rw [hsets, Finset.card_insert_of_notMem hC]
  have hsize : t.clauseDBReductionPolicy.intervalSize = s.clauseDBReductionPolicy.intervalSize := by
    rw [hp, ClauseDBReductionPolicy.registerConflict]
    split
    · rfl
    · rfl
  have hremaining : s.clauseDBReductionPolicy.conflictsRemaining ≤
      t.clauseDBReductionPolicy.conflictsRemaining + 1 := by
    rw [hp, ClauseDBReductionPolicy.registerConflict]
    split
    · exact Nat.le_add_of_sub_le (Nat.le_refl _)
    · omega
  have hleft : t.reductionsLeft ≤ s.reductionsLeft := by
    unfold reductionsLeft
    rw [hbound, hsize]
    split
    · exact Nat.zero_le _
    · rw [if_neg (by omega)]
  have hroom : t.lemmasLeft < s.lemmasLeft := by
    unfold lemmasLeft
    omega
  refine Prod.Lex.toLex_lt_toLex.mpr (.inr ⟨hopen, ?_⟩)
  refine Prod.Lex.toLex_lt_toLex.mpr (.inr ⟨hdue, ?_⟩)
  exact Prod.Lex.toLex_lt_toLex'.mpr ⟨hleft, fun _ => hroom⟩

theorem similar_registerLemma (hdata : Data Φ s)
    (hc : Clash s.clauses K Z dead c s.assignment) {lits : List CNFLit} {k : Nat} (hl : SoundLemma s lits k)
    (hlen : 2 ≤ lits.length) {r : CDCLSatSolver} (hr : r = s.resumed lits k) :
    Similar r (r.registerLemma s.nextClause).2 :=
  .of_grows (grows_registerLemma_resumed hdata hc hl hlen hr).2

theorem Assumed.load_resolveConflict (h : Assumed K dead assumedFacts s) (hdata : Data Φ s)
    (hc : Clash s.clauses K Z dead c s.assignment) (h₂ : 2 ≤ s.assignment.currentLevel) (hn : s.facts.Nodup)
    {lowLBD : Bool} {e : ResolveResult × CDCLSatSolver} (he : s.resolveConflict lowLBD c = some e) :
    load e.2 < load s ∧ e.2.facts.Nodup := by
  obtain ⟨lits, k, e', hl, hres, hcase⟩ := h.toSearching.resolveConflict hdata hc h₂ lowLBD
  obtain rfl : e' = e := Option.some.inj (hres.symm.trans he)
  cases hcase with
  | inl hfact =>
    obtain ⟨l, rfl, rfl, rfl⟩ := hfact
    obtain ⟨u, hu, hut, -⟩ := hl.first
    have hlu : l = -u := Option.some.inj hu
    have hnew : l ∉ s.facts := by
      intro hlf
      apply hc.core.trail.neg_not_mem hut
      exact hlu ▸ (h.rooted.facts_mem l hlf).1
    have hnodup : (s.facts ++ [l]).Nodup := by
      apply List.nodup_append.mpr
      refine ⟨hn, List.nodup_singleton l, fun a ha b hb hab => hnew ?_⟩
      rwa [← List.mem_singleton.mp hb, ← hab]
    refine ⟨?_, hnodup⟩
    have hresolved := h.learn_fact hdata hc hl
    have hdata' : Data Φ (s.registerConflict.learn (.fact l)).2 := by
      generalize s.registerConflict.learn (.fact l) = r at hresolved
      cases hresolved with
      | restart hdata' _ _ => exact hdata'
      | «continue» hdata' _ _ => exact hdata'
      | conflict hdata' _ _ _ => exact hdata'
    refine load_lt_of_facts (s := s) hdata' rfl ?_
    show s.facts.toFinset ⊂ (s.facts ++ [l]).toFinset
    rw [List.toFinset_append]
    refine Finset.ssubset_iff_subset_ne.mpr ⟨Finset.subset_union_left, fun heq => hnew ?_⟩
    rw [← List.mem_toFinset, heq]
    simp
  | inr hclause =>
    obtain ⟨hlen, hlearn⟩ := hclause
    obtain ⟨r, hr⟩ : ∃ r, r = s.resumed lits k := ⟨_, rfl⟩
    rw [hlearn, ← hr]
    rw [afterLemma_snd]
    have hsim := similar_registerLemma hdata hc hl hlen hr
    have hfacts : r.facts = s.facts := hr ▸ resumed_facts s lits k
    have hpolicy : r.clauseDBReductionPolicy = s.clauseDBReductionPolicy.registerConflict := by
      rw [hr, resumed, recordLemma_eq]
      rfl
    have hoptimizer : r.optimizer = s.optimizer := by
      rw [hr, resumed, recordLemma_eq]
      rfl
    have hdata' : Data Φ r := hr ▸ (hl.data hdata hc.core.trail h.size_eq hlen).congr (.backtrackToLevel _ k)
    have hnew : lits.toFinset ∉ s.literalSets := by
      intro hmem
      obtain ⟨d, hd, he⟩ := mem_literalSets.mp hmem
      exact hl.new d hd he
    have hlt : load r < load s := load_lt_of_lemma hdata' (hr ▸ resumed_maxVar s lits k) hfacts hoptimizer hpolicy
      (hr ▸ resumed_literalSets hdata lits k) hnew
    refine ⟨(load_congr hsim rfl rfl).trans_lt hlt, ?_⟩
    rw [hsim.facts, hfacts]
    exact hn

/-! ## Assumptions -/

theorem Searching.propagateAssumedFacts_isSome (h : Searching K dead assumedFacts s) (hdata : Data Φ s)
    (hs : Steady s.clauses K Z dead s.assignment) (h₁ : s.assignment.currentLevel = 1)
    (hv : ∀ l ∈ assumedFacts, l.var ≤ s.maxVar) : (s.propagateAssumedFacts assumedFacts).isSome = true := by
  obtain ⟨hend, hsearch, hdata', -⟩ := h.propagateFacts hdata hs h₁ hv
  unfold CDCLSatSolver.propagateAssumedFacts
  unfold propagateFactsOnSystemLevels at hsearch hdata' ⊢
  generalize s.assignment.appendFacts assumedFacts = r at hend hsearch hdata'
  obtain ⟨_ | fact, t⟩ := r
  · rfl
  · have hlen : ∀ {t : Assignment}, t.TrailInv → t.trail.length + 1 < t.size + 2 := fun ht =>
      Nat.succ_lt_succ (Nat.lt_succ_of_le ht.length_le)
    dsimp only at hsearch hdata' ⊢
    rw [Option.isSome_map]
    cases hend.1 with
    | isFalse hr hf =>
      have hg := hsearch.graph hdata' hr.core
      apply AssignmentAnalysis.analyzeAssignment_isSome hg.reasons (hlen hr.core.trail)
      exact List.mem_map.mpr ⟨-fact, hf, rfl⟩
    | clash hc hf _ =>
      have hg := hsearch.graph hdata' hc.core
      apply AssignmentAnalysis.analyzeAssignment_isSome hg.reasons (hlen hc.core.trail)
      exact List.mem_map.mpr ⟨fact, hf, rfl⟩

end CDCLSatSolver

namespace Machine

open CDCLSatSolver

structure Solving (m : Machine) : Prop where
  inv : Inv m
  nodup : m.solver.facts.Nodup
  busy : ∀ r, m.control ≠ .ready r

def Determined (m : Machine) : Prop := m.control.verdict = some .TRUE ∨ m.control.verdict = some .FALSE

/-- Bounds the events until the next conflict, restart or return. -/
def position (m : Machine) : Nat :=
  match m.control with
  | .ready _ => 0
  | .deciding => 2 * (m.solver.maxVar + 1 - m.solver.assignment.trail.length) + 1
  | .decided => 2 * (m.solver.maxVar + 1 - m.solver.assignment.trail.length) + 2
  | .conflict _ => 2 * (m.solver.maxVar + 1 - m.solver.assignment.trail.length) + 2
  | .assuming => 2 * (m.solver.maxVar + 1) + 3
  | .reduced => 2 * (m.solver.maxVar + 1) + 4
  | .simplified => 2 * (m.solver.maxVar + 1) + 5
  | .restarting => 2 * (m.solver.maxVar + 1) + 6

structure Advances (m m' : Machine) : Prop where
  nodup : m'.solver.facts.Nodup
  busy : ∀ r, m'.control ≠ .ready r
  load_le : m'.solver.load ≤ m.solver.load
  position_lt : m'.position < m.position

variable {m m' : Machine}

theorem Advances.mk' {s : CDCLSatSolver} {control : Control} (hn : s.facts.Nodup) (hb : ∀ r, control ≠ .ready r)
    (hl : s.load ≤ m.solver.load) (hp : position { m with solver := s, control := control } < m.position) :
    Advances m { m with solver := s, control := control } := ⟨hn, hb, hl, hp⟩

section
variable (h : Solving m)
include h

theorem Solving.trySimplify (hs : m.step .trySimplify = some m') : Determined m' ∨ Advances m m' := by
  obtain ⟨⟨hdata, hat, -⟩, hn, -⟩ := h
  cases transition_of_step hs with
  | simplifyRefuted hc he => exact .inl (.inr rfl)
  | @simplify t hc he =>
    rw [hc] at hat
    cases hat with
    | restarting hr hres hclean =>
      have hload := hres.load_trySimplify hdata
      have hnodup := hres.trySimplify_nodup hdata hn
      have hv := (SameProblem.trySimplify m.solver).maxVar
      rw [he] at hload hnodup hv
      have hv : t.maxVar = m.solver.maxVar := hv
      refine .inr (.mk' (hnodup rfl) (fun r => Control.noConfusion) (hload rfl) ?_)
      simp [position, hc, hv]

theorem Solving.tryReduceClauseDB {sorted : List ClauseRef} {lowLBD : Bool}
    (hs : m.step (.tryReduceClauseDB sorted lowLBD) = some m') : Advances m m' := by
  obtain ⟨⟨hdata, hat, -⟩, hn, -⟩ := h
  cases transition_of_step hs with
  | reduce hc hp =>
    have hv := (SameProblem.tryReduceClauseDB m.solver sorted lowLBD).maxVar
    refine .mk' ?_ (fun r => Control.noConfusion) (load_tryReduceClauseDB hdata sorted lowLBD) ?_
    · rw [tryReduceClauseDB_facts]
      exact hn
    · simp [position, hc, hv]

theorem Solving.propagateHardFacts (hs : m.step .propagateHardFacts = some m') :
    Determined m' ∨ Advances m m' := by
  obtain ⟨⟨hdata, hat, -⟩, hn, -⟩ := h
  cases transition_of_step hs with
  | factsRefuted hc he => exact .inl (.inr rfl)
  | @facts t hc he =>
    rw [hc] at hat
    cases hat with
    | reduced hr hres =>
      have hload := hres.load_propagateHardFacts hdata hn
      have hv := (SameProblem.propagateHardFacts m.solver).maxVar
      rw [he] at hload hv
      obtain ⟨hle, hnodup⟩ := hload rfl
      refine .inr (.mk' hnodup (fun r => Control.noConfusion) ?_ ?_)
      · exact (load_congr (.of_mem rfl rfl rfl rfl rfl rfl rfl) rfl rfl).trans_le hle
      · have hv' : t.newLevel.maxVar = m.solver.maxVar := hv
        simp [position, hc, hv']

theorem Solving.propagateAssumedFacts (hs : m.step .propagateAssumedFacts = some m') :
    Determined m' ∨ Advances m m' := by
  obtain ⟨⟨hdata, hat, -⟩, hn, -⟩ := h
  cases transition_of_step hs with
  | assumptionsRefuted hc he ha => exact .inl (.inr rfl)
  | @assumptions t hc he =>
    rw [hc] at hat
    cases hat with
    | assuming hr hsearch hsteady h₁ =>
      obtain ⟨-, hsim, -, -, -⟩ := hsearch.propagated hdata hsteady h₁ hr.vars he
      obtain rfl : (m.solver.propagateFactsOnSystemLevels m.assumedFacts).2 = t := congrArg Prod.snd he
      refine .inr (.mk' hn (fun r => Control.noConfusion) (load_congr hsim rfl rfl).le ?_)
      simp only [position, hc, hsim.maxVar]
      omega

theorem Solving.append (hc : m.control = .deciding) {l : CNFLit}
    (hl : m.solver.assignment.getAssignment l = .INDETERMINATE) (hv : l.var ≤ m.solver.maxVar) {control : Control}
    (hcontrol : control = .decided ∨ ∃ c, control = .conflict c) :
    Advances m { m with solver := (m.solver.newLevel.append l).2, control := control } := by
  obtain ⟨⟨hdata, hat, -⟩, hn, -⟩ := h
  rw [hc] at hat
  cases hat with
  | deciding hr hassumed hsteady =>
    obtain ⟨ht, ha⟩ := appended_newLevel hsteady hassumed.size_eq hl hv
    have hlen : m.solver.assignment.trail.length + 1 ≤ (m.solver.newLevel.append l).2.assignment.trail.length := by
      have hle := ha.next.length_le
      rwa [List.length_append, List.length_singleton] at hle
    have hsize : (m.solver.newLevel.append l).2.assignment.trail.length ≤ m.solver.maxVar + 1 :=
      ht.length_le.trans_eq (ha.grows.size.trans hassumed.size_eq)
    have hnew : Similar m.solver m.solver.newLevel := .of_mem rfl rfl rfl rfl rfl rfl rfl
    have hsim : Similar m.solver (m.solver.newLevel.append l).2 := hnew.trans (.of_grows ha.grows)
    have hmax := (SameProblem.append m.solver l).maxVar
    rcases hcontrol with rfl | ⟨c, rfl⟩
    · refine .mk' hn (fun r => Control.noConfusion) (load_congr hsim rfl rfl).le ?_
      simp only [position, hc, hmax]
      omega
    · refine .mk' hn (fun r => Control.noConfusion) (load_congr hsim rfl rfl).le ?_
      simp only [position, hc, hmax]
      omega

theorem Solving.decide {l : CNFLit} (hs : m.step (.decide l) = some m') : Advances m m' := by
  cases transition_of_step hs with
  | decide hc hl he =>
    have happend := h.append hc hl.2.1 hl.2.2 (.inl rfl)
    rw [he] at happend
    exact happend
  | @decideConflict _ _ c hc hl he =>
    have happend := h.append hc hl.2.1 hl.2.2 (.inr ⟨c, rfl⟩)
    rw [he] at happend
    exact happend

omit h in
theorem finish_determined (hs : m.step .finish = some m') : Determined m' := by
  cases transition_of_step hs with
  | finish hc hcomplete => exact .inl rfl

theorem Solving.continue {stopRequested : Bool} (hs : m.step (.continue false stopRequested) = some m')
    (hstop : stopRequested = false) : Advances m m' := by
  cases transition_of_step hs with
  | stopped hc hn => cases hstop
  | «continue» hc hn =>
    refine .mk' h.nodup (fun r => Control.noConfusion) le_rfl ?_
    simp [position, hc]

theorem Solving.restart {stopRequested : Bool} (hs : m.step (.continue true stopRequested) = some m') :
    m'.solver.facts.Nodup ∧ m'.control = .restarting ∧ m'.solver.load = m.solver.load := by
  cases transition_of_step hs with
  | restart hc => exact ⟨h.nodup, rfl, load_congr (.undoAll _) rfl rfl⟩

theorem Solving.resolved {lowLBD : Bool} {c : ClauseRef} (hc : m.control = .conflict c)
    {r : ResolveResult × CDCLSatSolver} (he : m.solver.resolveConflict lowLBD c = some r) :
    r.2.load < m.solver.load ∧ r.2.facts.Nodup := by
  obtain ⟨⟨hdata, hat, -⟩, hn, -⟩ := h
  rw [hc] at hat
  cases hat with
  | conflict hr hassumed hclash h₂ => exact hassumed.load_resolveConflict hdata hclash h₂ hn he

theorem Solving.resolve {lowLBD : Bool} (hs : m.step (.resolve lowLBD) = some m') :
    m'.solver.facts.Nodup ∧ (∀ r, m'.control ≠ .ready r) ∧ m'.solver.load < m.solver.load := by
  cases transition_of_step hs with
  | resolve hc he =>
    obtain ⟨hlt, hnodup⟩ := h.resolved hc he
    exact ⟨hnodup, fun r => Control.noConfusion, hlt⟩
  | @resolveRestart _ _ t hc he =>
    obtain ⟨hlt, hnodup⟩ := h.resolved hc he
    exact ⟨hnodup, fun r => Control.noConfusion, (load_congr (.undoAll t) rfl rfl).trans_lt hlt⟩
  | resolveConflict hc he =>
    obtain ⟨hlt, hnodup⟩ := h.resolved hc he
    exact ⟨hnodup, fun r => Control.noConfusion, hlt⟩

theorem Solving.progress (shouldRestart : Bool) : ∃ e : Event, e.Regular ∧ (m.step e).isSome = true ∧
    e ≠ .stop ∧ ∀ r q, e = .continue r q → r = shouldRestart ∧ q = false := by
  obtain ⟨⟨hdata, hat, -⟩, -, hbusy⟩ := h
  obtain ⟨s, added, A, control⟩ := m
  cases hat with
  | ready r _ => exact absurd rfl (hbusy r)
  | restarting hr hres hclean =>
    refine ⟨.trySimplify, trivial, ?_, Event.noConfusion, fun _ _ => Event.noConfusion⟩
    unfold step
    dsimp only
    generalize s.trySimplify = e
    obtain ⟨_ | _, t⟩ := e
    · rfl
    · rfl
  | simplified hr hres =>
    refine ⟨.tryReduceClauseDB s.lemmas false, trivial, ?_, Event.noConfusion, fun _ _ => Event.noConfusion⟩
    unfold step
    dsimp only
    rw [if_pos (.refl _)]
    rfl
  | reduced hr hres =>
    refine ⟨.propagateHardFacts, trivial, ?_, Event.noConfusion, fun _ _ => Event.noConfusion⟩
    unfold step
    dsimp only
    generalize s.propagateHardFacts = e
    obtain ⟨_ | _, t⟩ := e
    · rfl
    · rfl
  | assuming hr hsearch hsteady h₁ =>
    refine ⟨.propagateAssumedFacts, trivial, ?_, Event.noConfusion, fun _ _ => Event.noConfusion⟩
    have hsome := hsearch.propagateAssumedFacts_isSome hdata hsteady h₁ hr.vars
    unfold step
    dsimp only at hsome ⊢
    generalize s.propagateAssumedFacts A = e at hsome
    obtain _ | ⟨_ | _, t⟩ := e
    · cases hsome
    · rfl
    · rfl
  | deciding hr hassumed hsteady =>
    cases hc : s.assignment.isComplete with
    | true =>
      refine ⟨.finish, trivial, ?_, Event.noConfusion, fun _ _ => Event.noConfusion⟩
      unfold step
      dsimp only
      rw [if_pos hc]
      rfl
    | false =>
      obtain ⟨v, hv, hi⟩ := hsteady.trailInv.exists_unassigned hc
      refine ⟨.decide ⟨v, .positive⟩, trivial, ?_, Event.noConfusion, fun _ _ => Event.noConfusion⟩
      have hle : v ≤ s.maxVar := Nat.lt_succ_iff.mp (hv.trans_eq hassumed.size_eq)
      unfold step
      dsimp only
      rw [if_pos ⟨hc, getAssignment_eq_indet.mpr hi, hle⟩]
      generalize s.newLevel.append ⟨v, .positive⟩ = e
      obtain ⟨_ | _, t⟩ := e
      · rfl
      · rfl
  | decided hr hassumed hready =>
    refine ⟨.continue shouldRestart false, trivial, ?_, Event.noConfusion, fun r q he => ?_⟩
    · unfold step
      dsimp only
      cases shouldRestart with
      | true => rfl
      | false =>
        rw [if_neg Bool.false_ne_true, if_neg (by simp)]
        rfl
    · cases he
      exact ⟨rfl, rfl⟩
  | @conflict K Z dead c hr hassumed hclash h₂ =>
    refine ⟨.resolve false, trivial, ?_, Event.noConfusion, fun _ _ => Event.noConfusion⟩
    obtain ⟨e, he, -⟩ := hassumed.resolveConflict hdata hclash h₂ false
    unfold step
    dsimp only at he ⊢
    rw [he]
    obtain ⟨_ | _ | c, t⟩ := e
    · rfl
    · rfl
    · rfl

end

end Machine

namespace PacedMachine

open Machine

/-- The load, whether the policy has seen a conflict since the last restart, and
the position. -/
def rank (p : PacedMachine) : (ℕ ×ₗ ℕ ×ₗ ℕ ×ₗ ℕ) ×ₗ ℕ ×ₗ ℕ :=
  toLex (p.machine.solver.load, toLex (min 1 p.restartPolicy.averageLBD, p.machine.position))

structure Running (p : PacedMachine) : Prop where
  solving : p.machine.Solving
  window : 0 < p.restartPolicy.movingAverageWindowSize

theorem notify_window (p : GlucoseRestartPolicy) (control : Control) (e : Event) :
    (notify p control e).movingAverageWindowSize = p.movingAverageWindowSize := by
  cases e with
  | resolve lowLBD =>
    cases control with
    | restarting => rfl
    | _ =>
      simp only [notify, GlucoseRestartPolicy.registerConflict]
      split
      · rfl
      · rfl
  | «continue» shouldRestart stopRequested =>
    cases shouldRestart with
    | true => rfl
    | false => rfl
  | _ => rfl

theorem rank_lt_of_load {p q : PacedMachine} (h : q.machine.solver.load < p.machine.solver.load) :
    q.rank < p.rank :=
  Prod.Lex.toLex_lt_toLex.mpr (.inl h)

theorem rank_lt_of_advances {m m' : Machine} {policy : GlucoseRestartPolicy} (h : Advances m m') :
    rank ⟨m', policy⟩ < rank ⟨m, policy⟩ := by
  refine Prod.Lex.toLex_lt_toLex'.mpr ⟨h.load_le, fun _ => ?_⟩
  exact Prod.Lex.toLex_lt_toLex.mpr (.inr ⟨rfl, h.position_lt⟩)

/-- With a full window there has been a conflict since the last restart. -/
theorem rank_lt_of_restart {m m' : Machine} {policy : GlucoseRestartPolicy}
    (hw : 0 < policy.movingAverageWindowSize) (hfull : policy.isFull = true)
    (hl : m'.solver.load = m.solver.load) : rank ⟨m', policy.registerRestart⟩ < rank ⟨m, policy⟩ := by
  have hfull : policy.averageLBD = policy.movingAverageWindowSize := beq_iff_eq.mp hfull
  refine Prod.Lex.toLex_lt_toLex.mpr (.inr ⟨hl, Prod.Lex.toLex_lt_toLex.mpr (.inl ?_)⟩)
  show min 1 0 < min 1 policy.averageLBD
  omega

section
variable {m m' : Machine} {policy : GlucoseRestartPolicy} {e : Event} (h : Running ⟨m, policy⟩)
  (ha : allows policy e = true) (hreg : e.Regular) (hs : m.step e = some m')
include h ha hreg hs

/-- One event of a call either ends it or lowers the rank. -/
theorem Running.event : m'.Determined ∨
    m'.Solving ∧ rank ⟨m', notify policy m'.control e⟩ < rank ⟨m, policy⟩ := by
  obtain ⟨hm, hw⟩ := h
  have hinv : Inv m' := hm.inv.step hreg hs
  have hadvance : Advances m m' → m'.Solving ∧ rank ⟨m', policy⟩ < rank ⟨m, policy⟩ := fun had =>
    ⟨⟨hinv, had.nodup, had.busy⟩, rank_lt_of_advances had⟩
  cases e with
  | stop => cases ha
  | trySimplify => exact (hm.trySimplify hs).imp_right hadvance
  | tryReduceClauseDB sorted lowLBD => exact .inr (hadvance (hm.tryReduceClauseDB hs))
  | propagateHardFacts => exact (hm.propagateHardFacts hs).imp_right hadvance
  | propagateAssumedFacts => exact (hm.propagateAssumedFacts hs).imp_right hadvance
  | decide l => exact .inr (hadvance (hm.decide hs))
  | finish => exact .inl (finish_determined hs)
  | resolve lowLBD =>
    obtain ⟨hn, hb, hl⟩ := hm.resolve hs
    exact .inr ⟨⟨hinv, hn, hb⟩, rank_lt_of_load hl⟩
  | «continue» shouldRestart stopRequested =>
    simp only [allows, Bool.and_eq_true, Bool.not_eq_true', Bool.or_eq_true, beq_iff_eq] at ha
    cases shouldRestart with
    | false => exact .inr (hadvance (hm.continue hs ha.1))
    | true =>
      obtain ⟨hn, hc, hl⟩ := hm.restart hs
      have hbusy : ∀ r, m'.control ≠ .ready r := by
        intro r
        rw [hc]
        exact Control.noConfusion
      have hfull : policy.isFull = true := by
        cases hf : policy.isFull with
        | true => rfl
        | false => simp [GlucoseRestartPolicy.shouldRestart, hf] at ha
      exact .inr ⟨⟨hinv, hn, hbusy⟩, rank_lt_of_restart hw hfull hl⟩
  -- the other calls wait until `solve` has returned
  | addClause clause =>
    cases transition_of_step hs with
    | addClause hc => exact absurd hc (hm.busy _)
  | addProblem clauses =>
    cases transition_of_step hs with
    | addProblem hc => exact absurd hc (hm.busy _)
  | setDRATCertificate =>
    cases transition_of_step hs with
    | setDRATCertificate hc => exact absurd hc (hm.busy _)
  | solve assumedFacts =>
    cases transition_of_step hs with
    | solveDetected hc hd => exact absurd hc (hm.busy _)
    | solve hc hd => exact absurd hc (hm.busy _)

end

theorem Running.progress {p : PacedMachine} (h : Running p) : ∃ q, p.Steps q := by
  obtain ⟨e, hreg, hsome, hstop, hcont⟩ := h.solving.progress (p.restartPolicy.shouldRestart false)
  obtain ⟨m', hs⟩ := Option.isSome_iff_exists.mp hsome
  have ha : allows p.restartPolicy e = true := by
    cases e with
    | stop => exact absurd rfl hstop
    | «continue» r q =>
      obtain ⟨rfl, rfl⟩ := hcont r q rfl
      simp [allows]
    | _ => rfl
  refine ⟨⟨m', notify p.restartPolicy m'.control e⟩, e, hreg, ?_⟩
  unfold step
  rw [if_pos ha, hs]
  rfl

theorem Running.step {p q : PacedMachine} (h : Running p) (hs : p.Steps q) :
    q.Determined ∨ q.Running ∧ q.rank < p.rank := by
  obtain ⟨e, hreg, hs⟩ := hs
  unfold PacedMachine.step at hs
  split at hs
  · rename_i ha
    obtain ⟨m', hm, rfl⟩ := Option.map_eq_some_iff.mp hs
    cases h.event ha hreg hm with
    | inl hd => exact .inl hd
    | inr hr => exact .inr ⟨⟨hr.1, (notify_window _ _ e).symm ▸ h.window⟩, hr.2⟩
  · cases hs

theorem Running.inevitable {p : PacedMachine} (h : Running p) : Runs.Inevitable Steps Determined p :=
  Runs.Inevitable.of_rank rank (fun _ hp => .inr hp.progress) (fun _ _ hp hs => hp.step hs) p h

theorem prepareSolve_nodup (s : CDCLSatSolver) (assumedFacts : List CNFLit) :
    (s.prepareSolve assumedFacts).facts.Nodup := by
  show (withoutRedundancies s.facts).Nodup
  exact (withoutRedundancies_pairwise s.facts).imp fun hab => ne_of_apply_ne CNFLit.rawValue hab.ne

/-- Whatever is decided, learnt and deleted and whenever the policy asks for a
restart, `solve` gets to `TRUE` or `FALSE`. -/
theorem solve_terminates {m : Machine} (h : m.Reachable) {r : Option SolvingResult} (hc : m.control = .ready r)
    {assumedFacts : List CNFLit} (hreg : (Event.solve assumedFacts).Regular) {policy : GlucoseRestartPolicy}
    (hw : 0 < policy.movingAverageWindowSize) :
    ∃ p, step ⟨m, policy⟩ (.solve assumedFacts) = some p ∧ Runs.Inevitable Steps Determined p := by
  have hinv := Inv.of_reachable h
  obtain ⟨m', hs⟩ : ∃ m', m.step (.solve assumedFacts) = some m' := by
    unfold Machine.step
    dsimp only
    rw [hc]
    dsimp only
    split
    · exact ⟨_, rfl⟩
    · exact ⟨_, rfl⟩
  refine ⟨⟨m', policy⟩, ?_, ?_⟩
  · unfold step
    rw [hs]
    rfl
  · have hinv' := hinv.step hreg hs
    cases transition_of_step hs with
    | solveDetected _ hd => exact .now (.inr rfl)
    | solve _ hd =>
      apply Running.inevitable
      exact ⟨⟨hinv', prepareSolve_nodup _ _, fun r => Control.noConfusion⟩, hw⟩

theorem secondCall_terminates : ∃ p, step ⟨Machine.satisfied, .new 50⟩ (.solve [⟨0, .negative⟩]) = some p ∧
    Runs.Inevitable Steps Determined p := by
  have hm : Machine.satisfied.Reachable := .run_get (.init rfl) (by decide) _
  obtain ⟨r, hr, -⟩ := Control.exists_of_verdict
    (show Machine.satisfied.control.verdict = some .TRUE by decide +kernel)
  exact solve_terminates hm hr (by decide) (by decide)

end PacedMachine

end JamSAT
