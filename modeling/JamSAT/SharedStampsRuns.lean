import JamSAT.DecisionLevels
import JamSAT.SharedStamps

/-!
# The stamp map in the runs of the solver

The stamp map is sized for the greatest literal. A clause has two variables at least, so that
there is room for the two levels without decisions, too.
-/

namespace JamSAT

open UnitLogic Assignment FallibleState

/-- The size that `resizeSubsystems` gives to `m_stamps`. -/
def stampSize (maxVar : CNFVar) : Nat := (getMaxLit maxVar).rawValue + 1

theorem stampSize_eq (maxVar : CNFVar) : stampSize maxVar = 2 * maxVar + 2 := rfl

theorem stampSize_mono {v w : CNFVar} (h : v ≤ w) : stampSize v ≤ stampSize w :=
  Nat.add_le_add_right (Nat.mul_le_mul_left 2 h) 2

theorem lt_stampSize {v maxVar : CNFVar} (h : v ≤ maxVar) : v < stampSize maxVar := by
  have hle : v ≤ 2 * maxVar + 1 := Nat.le_succ_of_le (h.trans (Nat.le_mul_of_pos_left maxVar Nat.two_pos))
  exact Nat.lt_succ_of_le hle

theorem rawValue_lt_stampSize {l : CNFLit} {maxVar : CNFVar} (h : l.var ≤ maxVar) :
    l.rawValue < stampSize maxVar := by
  have hsign : l.sign.rawValue < 2 := by cases l.sign <;> decide
  have hlt : l.rawValue < 2 * l.var + 2 := Nat.add_lt_add_left hsign _
  exact hlt.trans_le (Nat.add_le_add_right (Nat.mul_le_mul_left 2 h) 2)

namespace Assignment

variable {s : Assignment} {R K Z : Set ClauseRef} {dead : Set CNFLit} {n : Nat}

def ReasonsBelow (n : Nat) (s : Assignment) : Prop :=
  ∀ l ∈ s.trail, ∀ c, s.getReason l.var = some c → ∀ x ∈ (s.mem c).lits, s.getLevel x.var < n

theorem ReasonsBelow.of_nil (h : s.trail = []) : s.ReasonsBelow n := by
  intro l hl
  rw [h] at hl
  cases hl

theorem TrailInv.getLevel_le (h : s.TrailInv) {v : CNFVar} (hv : v ∈ s.trail.map CNFLit.var) :
    s.getLevel v ≤ s.currentLevel := by
  obtain ⟨l, hl, rfl⟩ := List.mem_map.mp hv
  exact h.level_le l hl

theorem Core.reasonsBelow (h : Core R K Z dead s) (hn : s.currentLevel < n) : s.ReasonsBelow n := by
  intro l hl c hr x hx
  have hreason : s.provider.reason l.var = some (s.mem c).lits := congrArg (Option.map _) hr
  have hv := (h.reasons.reasons h.trail h.wf).reason_vars (List.mem_map_of_mem hl) hreason x hx
  exact (h.trail.getLevel_le hv).trans_lt hn

theorem getLevelAssignments_subset (s : Assignment) (k : Nat) : s.getLevelAssignments k ⊆ s.trail := by
  unfold getLevelAssignments
  split
  · exact List.nil_subset _
  · dsimp only
    split
    · exact List.drop_subset _ _
    · exact List.Subset.trans (List.take_subset _ _) (List.drop_subset _ _)

end Assignment

/-! ## Room for the levels -/

namespace CDCLSatSolver

variable {Φ : Set (Finset CNFLit)} {K Z : Set ClauseRef} {dead : Set CNFLit} {s t : CDCLSatSolver} {c : ClauseRef}

theorem Linked.var_le (h : Linked K dead s) (ht : s.assignment.TrailInv) {v : CNFVar}
    (hv : v ∈ s.assignment.trail.map CNFLit.var) : v ≤ s.maxVar := by
  obtain ⟨l, hl, rfl⟩ := List.mem_map.mp hv
  exact Nat.lt_succ_iff.mp ((ht.lt_size l hl).trans_eq h.size_eq)

theorem Data.maxVar_pos (h : Data Φ s) (hc : c ∈ s.clauseDB) : 0 < s.maxVar := by
  have hwf := h.wf c hc
  have hmem : ∀ i : Fin 2, (s.mem c).lit i ∈ (s.mem c).lits := fun i => Clause.lit_mem (hwf.watch_lt i)
  -- its first two literals would be over the same variable
  refine Nat.pos_of_ne_zero fun hzero => ?_
  have hvar : ∀ i : Fin 2, ((s.mem c).lit i).var = 0 := fun i =>
    Nat.le_zero.mp ((h.vars c hc _ (hmem i)).trans_eq hzero)
  have heq := hwf.eq_of_var_eq (hmem 0) (hmem 1) ((hvar 0).trans (hvar 1).symm)
  exact absurd (hwf.lit_inj (hwf.watch_lt 0) (hwf.watch_lt 1) heq) (by decide)

/-- With `n` variables there are at most `n + 2` levels. -/
theorem Data.currentLevel_lt (h : Data Φ s) (hc : c ∈ s.clauseDB) (ht : s.assignment.TrailInv)
    (hp : s.assignment.Populated) (hsize : s.assignment.size = s.maxVar + 1) :
    s.assignment.currentLevel < stampSize s.maxVar := by
  have hpos : 1 ≤ s.maxVar := h.maxVar_pos hc
  calc
    s.assignment.currentLevel ≤ s.maxVar + 1 + 1 := (hp.currentLevel_le ht).trans_eq (congrArg (· + 1) hsize)
    _ < s.maxVar + (s.maxVar + 2) := Nat.add_lt_add_left (Nat.lt_add_of_pos_left hpos) _
    _ = stampSize s.maxVar := by rw [stampSize_eq, Nat.two_mul, Nat.add_assoc]

theorem Data.database_vars (h : Data Φ s) {C : Finset CNFLit} (hC : C ∈ s.database) :
    ∀ l ∈ C, l.var ≤ s.maxVar := by
  intro l hl
  cases hC with
  | inl hunit =>
    obtain ⟨f, hf, rfl⟩ := hunit
    rw [Finset.mem_singleton.mp hl]
    exact h.fact_vars f hf
  | inr hclause =>
    obtain ⟨c, hc, rfl⟩ := hclause
    exact h.vars c hc l (Clause.mem_litSet.mp hl)

/-- Where there are no clauses there are no reasons. -/
theorem Data.reasonsBelow (h : Data Φ s) (hc : Core s.clauses K Z dead s.assignment)
    (hp : s.assignment.Populated) (hsize : s.assignment.size = s.maxVar + 1) :
    s.assignment.ReasonsBelow (stampSize s.maxVar) := by
  intro l hl c hr
  have hlt := h.currentLevel_lt (hc.reasons.registered l hl c hr) hc.trail hp hsize
  exact hc.reasonsBelow hlt l hl c hr

end CDCLSatSolver

/-! ## Learning -/

namespace Stamping

open CDCLSatSolver

theorem Clean.backtrackAll {n : Nat} {m : SolverStamps} {s : CDCLSatSolver} (h : Clean n m)
    (hr : s.assignment.ReasonsBelow n) : Yields (backtrackAll s) m () (Clean n) :=
  h.updateReasonClauseLBDs fun l hl => hr l (getLevelAssignments_subset _ _ (List.mem_reverse.mp hl))

theorem Scope.of_reasons {p : Provider} {T : List CNFLit} {n : Nat} (g : p.Reasons T) (hlt : ∀ l ∈ T, l.var < n) :
    Scope p n {v | v ∈ T.map CNFLit.var} where
  lt v hv := by
    obtain ⟨l, hl, rfl⟩ := List.mem_map.mp hv
    exact hlt l hl
  closed _ hv _ hC := g.reason_vars hv hC

section

variable {Φ : Set (Finset CNFLit)} {K Z : Set ClauseRef} {dead : Set CNFLit} {assumedFacts : List CNFLit}
  {s : CDCLSatSolver} {m : SolverStamps} {c : ClauseRef} {lowLBD : Bool}

theorem scope_of_searching (h : Searching K dead assumedFacts s) (hdata : Data Φ s)
    (hc : Core s.clauses K Z dead s.assignment) :
    Scope s.assignment.provider (stampSize s.maxVar) {v | v ∈ s.assignment.trail.map CNFLit.var} := by
  refine .of_reasons (h.graph hdata hc).reasons fun l hl => ?_
  exact lt_stampSize (h.var_le hc.trail (List.mem_map_of_mem hl))

variable (hm : Clean (stampSize s.maxVar) m) (h : Searching K dead assumedFacts s) (hdata : Data Φ s)
  (hc : Clash s.clauses K Z dead c s.assignment) (hp : s.assignment.Populated)
include hm h hdata hc hp

theorem Clean.optimizeLemma {u : CNFLit} {tail tail' lits : List CNFLit}
    (herase : ClauseMinimization.eraseRedundantLiterals s.assignment.provider s.fuel (-u :: tail) =
      some (-u :: tail'))
    (hl : s.assignment.provider.Learnt s.database s.assignment.trail u tail)
    (hl' : s.assignment.provider.Learnt s.database s.assignment.trail u tail')
    (hr : s.optimizeLemma lowLBD (-u :: tail) = some lits) :
    Yields (optimizeLemma s lowLBD (-u :: tail)) m lits (Clean (stampSize s.maxVar)) := by
  have g := h.graph hdata hc.core
  have hvars := g.var_mem_of_learnt hl
  have hvars' := g.var_mem_of_learnt hl'
  have hlevel := hdata.currentLevel_lt hc.registered hc.core.trail hp h.size_eq
  unfold CDCLSatSolver.optimizeLemma at hr
  rw [herase, Option.map_some] at hr
  have hr := Option.some.inj hr
  unfold Stamping.optimizeLemma
  refine (hm.eraseRedundantLiterals (scope_of_searching h hdata hc.core) hvars herase).bind fun t ht => ?_
  by_cases hlen : (-u :: tail').length ≤ lemmaSimplificationSizeBound
  · rw [if_pos hlen]
    have hlevels : ∀ l ∈ -u :: tail', s.assignment.getLevel l.var < stampSize s.maxVar := fun l hl =>
      (hc.core.trail.getLevel_le (hvars' l hl)).trans_lt hlevel
    refine (ht.getLBD hlevels).bind fun v hv => ?_
    cases lowLBD with
    | false =>
      rw [if_neg (by simp)] at hr ⊢
      rw [← hr]
      exact .pure hv
    | true =>
      rw [if_pos ⟨hlen, rfl⟩] at hr
      rw [if_pos rfl, ← hr]
      refine hv.resolveWithBinaries (fun l hl => ?_) fun l hl => ?_
      · apply rawValue_lt_stampSize
        exact hdata.database_vars (hdata.binaries hc.core hl).1 l (by simp)
      · exact rawValue_lt_stampSize (h.var_le hc.core.trail (hvars' l hl))
  · rw [if_neg fun hboth => hlen hboth.1] at hr
    rw [if_neg hlen, ← hr]
    exact .pure ht

theorem Clean.deriveLemma (h₂ : 2 ≤ s.assignment.currentLevel) {r : LemmaDerivationResult × CDCLSatSolver}
    (hr : s.deriveLemma lowLBD c = some r) :
    Yields (deriveLemma s lowLBD c) m r (Clean (stampSize s.maxVar)) := by
  obtain ⟨u, tail, tail', hconf, herase, hl, hl'⟩ := h.minimized hdata hc h₂
  obtain ⟨v, rest, hlits, hlearnt⟩ := h.lemmaLiterals hdata hc h₂ lowLBD
  have hlevel := hdata.currentLevel_lt hc.registered hc.core.trail hp h.size_eq
  have hvars := (h.graph hdata hc.core).var_mem_of_learnt hlearnt
  unfold CDCLSatSolver.deriveLemma at hr
  rw [hlits, Option.map_some] at hr
  unfold CDCLSatSolver.lemmaLiterals at hlits
  rw [hconf] at hlits
  unfold Stamping.deriveLemma
  rw [hconf]
  refine (hm.optimizeLemma h hdata hc hp herase hl hl' hlits).bind fun t ht => ?_
  have hr := Option.some.inj hr
  by_cases hone : (-v :: rest).length = 1
  · rw [if_pos hone] at hr ⊢
    rw [← hr]
    exact .pure ht
  · rw [if_neg hone] at hr ⊢
    rw [← hr]
    refine (ht.getLBD fun l hl => ?_).bind fun w hw => .pure hw
    exact (hc.core.trail.getLevel_le (hvars l hl)).trans_lt hlevel

/-- The reasons are updated on the level of the conflict, where the lemma has been written already. -/
theorem Clean.resolveConflict (h₂ : 2 ≤ s.assignment.currentLevel) {r : ResolveResult × CDCLSatSolver}
    (hr : s.resolveConflict lowLBD c = some r) :
    Yields (resolveConflict s lowLBD c) m r (Clean (stampSize s.maxVar)) := by
  obtain ⟨lits, k, hl, hres⟩ := h.deriveLemma hdata hc h₂ lowLBD
  unfold CDCLSatSolver.resolveConflict at hr
  cases hres with
  | inl hfact =>
    obtain ⟨l, -, -, hd⟩ := hfact
    refine (hm.deriveLemma h hdata hc hp h₂ hd).bind fun t ht => ?_
    rw [hd, Option.map_some] at hr
    rw [← Option.some.inj hr]
    exact .pure ht
  | inr hclause =>
    obtain ⟨hlen, hd⟩ := hclause
    refine (hm.deriveLemma h hdata hc hp h₂ hd).bind fun t ht => ?_
    have hcore := hc.core.writeClause (fun hmem => hdata.ne_nextClause hmem rfl) (lemmaClause lits)
    have hbelow : ((s.addLemma lits).registerConflict.recordLemma s.nextClause).assignment.ReasonsBelow
        (stampSize s.maxVar) := by
      rw [recordLemma_eq]
      exact hcore.reasonsBelow (hdata.currentLevel_lt hc.registered hc.core.trail hp h.size_eq)
    refine (ht.backtrackAll hbelow).bind fun v hv => ?_
    rw [hd, Option.map_some] at hr
    rw [← Option.some.inj hr]
    exact .pure hv

end

section

variable {Φ : Set (Finset CNFLit)} {K Z : Set ClauseRef} {dead : Set CNFLit} {assumedFacts : List CNFLit}
  {s : CDCLSatSolver} {c : ClauseRef} {lowLBD : Bool}

/-- A restart after the conflict finds the levels of the facts and of the assumptions at most. -/
theorem reasonsBelow_resolveConflict (h : Assumed K dead assumedFacts s) (hdata : Data Φ s)
    (hc : Clash s.clauses K Z dead c s.assignment) (h₂ : 2 ≤ s.assignment.currentLevel)
    (hp : s.assignment.Populated) {r : ResolveResult × CDCLSatSolver} (hr : s.resolveConflict lowLBD c = some r) :
    r.2.assignment.ReasonsBelow (stampSize s.maxVar) := by
  obtain ⟨lits, k, e, hl, hres, hcase⟩ := h.toSearching.resolveConflict hdata hc h₂ lowLBD
  obtain rfl : e = r := Option.some.inj (hres.symm.trans hr)
  have hlt := hdata.currentLevel_lt hc.registered hc.core.trail hp h.size_eq
  cases hcase with
  | inl hfact =>
    obtain ⟨l, -, -, hlearn⟩ := hfact
    rw [hlearn]
    exact hc.core.reasonsBelow hlt
  | inr hclause =>
    obtain ⟨hlen, hlearn⟩ := hclause
    obtain ⟨t, ht⟩ : ∃ t, t = s.resumed lits k := ⟨_, rfl⟩
    rw [hlearn, afterLemma_snd, ← ht]
    have hlevel : (t.registerLemma s.nextClause).2.assignment.currentLevel = k :=
      (h.registerLemma hdata hc hl hlen ht).1.level
    have hend := registerLemma_resumed hdata hc hl hlen ht
    unfold CDCLSatSolver.registerLemma at hlevel ⊢
    generalize t.assignment.registerLemma s.nextClause = q at hend hlevel
    obtain ⟨_ | d, u⟩ := q
    · exact hend.1.core.reasonsBelow (hlevel.trans_lt (hl.lt.trans hlt))
    · exact hend.1.core.reasonsBelow (hlevel.trans_lt (hl.lt.trans hlt))

end

end Stamping

/-! ## Steps -/

namespace CDCLSatSolver

variable {Φ : Set (Finset CNFLit)} {K Z : Set ClauseRef} {dead : Set CNFLit} {s : CDCLSatSolver}

theorem Detached.reasonsBelow (h : Detached s) {n : Nat} : s.assignment.ReasonsBelow n := by
  obtain ⟨R, K, Z, dead, hi, -⟩ := h.idle
  exact .of_nil hi.nil

theorem Restarted.reasonsBelow_propagateHardFacts (h : Restarted K Z dead s) (hdata : Data Φ s)
    (hf : s.propagateHardFacts.1 = true) :
    s.propagateHardFacts.2.assignment.ReasonsBelow (stampSize s.maxVar) := by
  have hend := h.appendFacts hdata
  unfold CDCLSatSolver.propagateHardFacts propagateFactsOnSystemLevels at hf ⊢
  generalize s.assignment.appendFacts s.facts = e at hf hend ⊢
  obtain ⟨_ | fact, t⟩ := e
  · dsimp only at hf
    split at hf
    · cases hf
    · cases hf
  · obtain ⟨hstop, hg, -⟩ := hend
    have hdata' : Data Φ { s with assignment := t } := hdata.congr (.of_grows hg.grows)
    have hlevel : t.currentLevel = 0 := hg.grows.currentLevel.trans h.level_zero
    exact hdata'.reasonsBelow hstop.core (.of_le (hlevel.le.trans (Nat.zero_le 1))) (hg.grows.size.trans h.size_eq)

end CDCLSatSolver

theorem Assignment.Stopped.var_mem {R K Z : Set ClauseRef} {dead : Set CNFLit} {s : Assignment} {fact : CNFLit}
    (h : Stopped R K Z dead fact s) : fact.var ∈ s.trail.map CNFLit.var := by
  cases h with
  | isFalse _ hf => exact List.mem_map.mpr ⟨-fact, hf, rfl⟩
  | clash _ hf _ => exact List.mem_map_of_mem hf

namespace Machine

open CDCLSatSolver Stamping

variable {m m' : Machine} {stamps : SolverStamps}

section

variable (h : Inv m) (hm : Clean (stampSize m.solver.maxVar) stamps)
include h hm

theorem Inv.stamps_stop (hs : m.step .stop = some m') :
    Yields (Stamping.step m .stop) stamps () (Clean (stampSize m.solver.maxVar)) := by
  obtain ⟨hdata, hat, -⟩ := h
  cases transition_of_step hs with
  | stop hc =>
    rw [hc] at hat
    cases hat with
    | restarting hr hres hclean => exact hm.backtrackAll (.of_nil hres.idle.nil)

theorem Inv.stamps_trySimplify (hs : m.step .trySimplify = some m') :
    Yields (Stamping.step m .trySimplify) stamps () (Clean (stampSize m.solver.maxVar)) := by
  obtain ⟨hdata, hat, -⟩ := h
  unfold Stamping.step
  cases transition_of_step hs with
  | simplifyRefuted hc he =>
    rw [hc] at hat
    cases hat with
    | restarting hr hres hclean =>
      obtain ⟨-, hunsat, -⟩ := hres.trySimplify hdata
      rw [he] at hunsat ⊢
      exact hm.backtrackAll (hunsat rfl).2.reasonsBelow
  | simplify hc he =>
    rw [he]
    exact .pure hm

theorem Inv.stamps_propagateHardFacts (hs : m.step .propagateHardFacts = some m') :
    Yields (Stamping.step m .propagateHardFacts) stamps () (Clean (stampSize m.solver.maxVar)) := by
  obtain ⟨hdata, hat, -⟩ := h
  unfold Stamping.step
  cases transition_of_step hs with
  | factsRefuted hc he =>
    rw [hc] at hat
    cases hat with
    | reduced hr hres =>
      have hbelow := hres.reasonsBelow_propagateHardFacts hdata
      rw [he] at hbelow ⊢
      exact hm.backtrackAll (hbelow rfl)
  | facts hc he =>
    rw [he]
    exact .pure hm

theorem Inv.stamps_propagateAssumedFacts (hs : m.step .propagateAssumedFacts = some m') :
    Yields (Stamping.step m .propagateAssumedFacts) stamps () (Clean (stampSize m.solver.maxVar)) := by
  obtain ⟨hdata, hat, -⟩ := h
  unfold Stamping.step
  cases transition_of_step hs with
  | assumptionsRefuted hc he ha =>
    rw [hc] at hat
    cases hat with
    | assuming hr hsearch hsteady h₁ =>
      obtain ⟨⟨hstop, -, -⟩, hsim, hsearch', hdata', h₁'⟩ := hsearch.propagated hdata hsteady h₁ hr.vars he
      have hbelow := hdata'.reasonsBelow hstop.core (.of_le h₁'.le) hsearch'.size_eq
      have hscope := scope_of_searching hsearch' hdata' hstop.core
      rw [hsim.maxVar] at hbelow hscope
      rw [he]
      exact (hm.analyzeAssignment hscope hstop.var_mem ha).bind fun u hu => hu.backtrackAll hbelow
  | assumptions hc he =>
    rw [he]
    exact .pure hm

variable (hp : m.solver.assignment.Populated)
include hp

theorem Inv.stamps_resolved {lowLBD : Bool} {c : ClauseRef} (hc : m.control = .conflict c)
    {r : ResolveResult × CDCLSatSolver} (he : m.solver.resolveConflict lowLBD c = some r) :
    Yields (Stamping.resolveConflict m.solver lowLBD c) stamps r (Clean (stampSize m.solver.maxVar)) ∧
      r.2.assignment.ReasonsBelow (stampSize m.solver.maxVar) := by
  obtain ⟨hdata, hat, -⟩ := h
  rw [hc] at hat
  cases hat with
  | conflict hr hassumed hclash h₂ =>
    exact ⟨hm.resolveConflict hassumed.toSearching hdata hclash hp h₂ he,
      reasonsBelow_resolveConflict hassumed hdata hclash h₂ hp he⟩

theorem Inv.stamps_resolve {lowLBD : Bool} (hs : m.step (.resolve lowLBD) = some m') :
    Yields (Stamping.step m (.resolve lowLBD)) stamps () (Clean (stampSize m.solver.maxVar)) := by
  unfold Stamping.step
  cases transition_of_step hs with
  | resolve hc he =>
    rw [hc]
    exact (h.stamps_resolved hm hp hc he).1.bind fun u hu => .pure hu
  | resolveRestart hc he =>
    obtain ⟨hyields, hbelow⟩ := h.stamps_resolved hm hp hc he
    rw [hc]
    exact hyields.bind fun u hu => hu.backtrackAll hbelow
  | resolveConflict hc he =>
    rw [hc]
    exact (h.stamps_resolved hm hp hc he).1.bind fun u hu => .pure hu

theorem Inv.stamps_continue {shouldRestart stopRequested : Bool}
    (hs : m.step (.continue shouldRestart stopRequested) = some m') :
    Yields (Stamping.step m (.continue shouldRestart stopRequested)) stamps ()
      (Clean (stampSize m.solver.maxVar)) := by
  obtain ⟨hdata, hat, -⟩ := h
  have hback : m.control = .decided → m.solver.assignment.ReasonsBelow (stampSize m.solver.maxVar) := by
    intro hc
    rw [hc] at hat
    cases hat with
    | decided hr hassumed hready => exact hdata.reasonsBelow hready.core hp hassumed.size_eq
  unfold Stamping.step
  dsimp only
  cases transition_of_step hs with
  | restart hc => exact hm.backtrackAll (hback hc)
  | stopped hc hn =>
    rw [if_pos (by simp [hn])]
    exact hm.backtrackAll (hback hc)
  | «continue» hc hn =>
    rw [if_neg (by simpa using hn)]
    exact .pure hm

theorem Inv.stamps_finish (hs : m.step .finish = some m') :
    Yields (Stamping.step m .finish) stamps () (Clean (stampSize m.solver.maxVar)) := by
  obtain ⟨hdata, hat, -⟩ := h
  cases transition_of_step hs with
  | finish hc hcomplete =>
    rw [hc] at hat
    cases hat with
    | deciding hr hassumed hsteady =>
      cases hsteady with
      | idle hidle => exact hm.backtrackAll (.of_nil hidle.nil)
      | ready hready => exact hm.backtrackAll (hdata.reasonsBelow hready.core hp hassumed.size_eq)

/-- In a call every step finds the map without a context, and leaves it so. -/
theorem Inv.stamps_busy (hb : ∀ r, m.control ≠ .ready r) {e : Event} (hs : m.step e = some m') :
    Yields (Stamping.step m e) stamps () (Clean (stampSize m.solver.maxVar)) := by
  cases e with
  | stop => exact h.stamps_stop hm hs
  | trySimplify => exact h.stamps_trySimplify hm hs
  | propagateHardFacts => exact h.stamps_propagateHardFacts hm hs
  | propagateAssumedFacts => exact h.stamps_propagateAssumedFacts hm hs
  | resolve lowLBD => exact h.stamps_resolve hm hp hs
  | «continue» shouldRestart stopRequested => exact h.stamps_continue hm hp hs
  | finish => exact h.stamps_finish hm hp hs
  | solve assumedFacts =>
    cases transition_of_step hs with
    | solveDetected hc hd => exact absurd hc (hb _)
    | solve hc hd => exact absurd hc (hb _)
  | _ => exact .pure hm

end

end Machine

/-! ## Runs -/

namespace StampingMachine

open Stamping CDCLSatSolver

/-- There is no context between the steps. In a call the size is that for the greatest variable. -/
structure Sized (m : Machine) (stamps : SolverStamps) : Prop where
  clean : Clean stamps.stamps.length stamps
  le : stamps.stamps.length ≤ stampSize m.solver.maxVar
  busy : (∀ r, m.control ≠ .ready r) → stamps.stamps.length = stampSize m.solver.maxVar

variable {m m' : Machine} {stamps : SolverStamps} {p : StampingMachine}

theorem Sized.new : Sized .new new.m_stamps where
  clean := ⟨⟨[], StampClient.inv_new⟩, rfl⟩
  le := le_rfl
  busy hb := absurd rfl (hb none)

theorem Sized.of_clean (h : Clean (stampSize m.solver.maxVar) stamps) : Sized m stamps where
  clean := h.length.symm ▸ h
  le := h.length.le
  busy _ := h.length

theorem Sized.raise (h : Sized m stamps) {r : Option SolvingResult} (hr : m'.control = .ready r)
    (hle : m.solver.maxVar ≤ m'.solver.maxVar) : Sized m' stamps where
  clean := h.clean
  le := h.le.trans (stampSize_mono hle)
  busy hb := absurd hr (hb r)

theorem Sized.solve (h : Sized m stamps) {assumedFacts : List CNFLit}
    (hs : m.step (.solve assumedFacts) = some m') :
    Yields (Stamping.step m (.solve assumedFacts)) stamps () (Sized m') := by
  unfold Stamping.step
  dsimp only
  cases Machine.transition_of_step hs with
  | solveDetected hc hd =>
    rw [if_pos hd]
    exact .pure (h.raise rfl (finalizeProofOnUnsat_maxVar _).ge)
  | solve hc hd =>
    rw [if_neg (Bool.eq_false_iff.mp hd)]
    have hle := h.le.trans (stampSize_mono (le_raiseMaxVar m.solver assumedFacts))
    exact (h.clean.increaseSizeTo hle).mono fun t ht => .of_clean ht

theorem Sized.step (hm : m.Reachable) (h : Sized m stamps) {e : Event} (hs : m.step e = some m') :
    Yields (Stamping.step m e) stamps () (Sized m') := by
  by_cases hb : ∀ r, m.control ≠ .ready r
  · have hclean : Clean (stampSize m.solver.maxVar) stamps := h.busy hb ▸ h.clean
    have hyields := (Machine.Inv.of_reachable hm).stamps_busy hclean (Machine.populated_of_reachable hm) hb hs
    rw [← Machine.maxVar_of_busy hs hb] at hyields
    exact hyields.mono fun t ht => .of_clean ht
  · simp only [not_forall, not_not] at hb
    obtain ⟨r, hr⟩ := hb
    cases e with
    | solve assumedFacts => exact h.solve hs
    | addClause clause =>
      cases Machine.transition_of_step hs with
      | addClause hc => exact .pure (h.raise rfl (le_addClause _ _))
    | addProblem clauses =>
      cases Machine.transition_of_step hs with
      | addProblem hc => exact .pure (h.raise rfl (le_addProblem _ _))
    | setDRATCertificate =>
      cases Machine.transition_of_step hs with
      | setDRATCertificate hc => exact .pure (h.raise rfl le_rfl)
    | _ =>
      unfold Machine.step at hs
      rw [hr] at hs
      cases hs

theorem step_of_yields {P : SolverStamps → Prop} {e : Event} (hs : m.step e = some m')
    (h : Yields (Stamping.step m e) stamps () P) :
    ∃ stamps', (⟨m, stamps⟩ : StampingMachine).step e = some ⟨m', stamps'⟩ ∧ P stamps' := by
  obtain ⟨t, ht, hP⟩ := h
  refine ⟨t, ?_, hP⟩
  unfold StampingMachine.step
  simp [ht, hs]

theorem machine_of_step {q : StampingMachine} {e : Event} (h : p.step e = some q) :
    p.machine.step e = some q.machine := by
  unfold StampingMachine.step at h
  obtain ⟨r, -, h⟩ := Option.bind_eq_some_iff.mp h
  obtain ⟨m, hm, h⟩ := Option.bind_eq_some_iff.mp h
  cases h
  exact hm

theorem sized_of_reachable (h : p.Reachable) : p.machine.Reachable ∧ Sized p.machine p.m_stamps := by
  refine Runs.Reachable.invariant (I := fun p => p.machine.Reachable ∧ Sized p.machine p.m_stamps) h ?_ ?_
  · intro p hp
    rw [hp]
    exact ⟨.init rfl, .new⟩
  · intro p q hp hstep
    obtain ⟨e, hr, hq⟩ := hstep
    obtain ⟨hm, hsized⟩ := hp
    have hs := machine_of_step hq
    obtain ⟨stamps, hstamps, hP⟩ := step_of_yields hs (hsized.step hm hs)
    have hmap : q.m_stamps = stamps := congrArg m_stamps (Option.some.inj (hq.symm.trans hstamps))
    rw [hmap]
    exact ⟨.step hm ⟨e, hr, hs⟩, hP⟩

theorem exists_stamps (h : m.Reachable) : ∃ stamps, Reachable ⟨m, stamps⟩ := by
  refine Runs.Reachable.invariant (I := fun m => ∃ stamps, Reachable ⟨m, stamps⟩) h ?_ ?_
  · intro m hm
    rw [hm]
    exact ⟨new.m_stamps, .init rfl⟩
  · intro m m' hm hstep
    obtain ⟨e, hr, hs⟩ := hstep
    obtain ⟨stamps, hreach⟩ := hm
    obtain ⟨hmach, hsized⟩ := sized_of_reachable hreach
    obtain ⟨stamps', hstep, -⟩ := step_of_yields hs (hsized.step hmach hs)
    exact ⟨stamps', .step hreach ⟨e, hr, hstep⟩⟩

/-- The stamp map has no context between the steps, and in a call the size that `resizeSubsystems`
has given to it. No step of the solver fails on it: every index is below the size, and every context
is created outside of the others. -/
theorem stamps_suffice (h : p.Reachable) :
    p.m_stamps.contextActive = false ∧
    ((∀ r, p.machine.control ≠ .ready r) →
      p.m_stamps.stamps.length = (getMaxLit p.machine.solver.maxVar).rawValue + 1) ∧
    ∀ e m', p.machine.step e = some m' → ∃ stamps, p.step e = some ⟨m', stamps⟩ := by
  obtain ⟨hm, hsized⟩ := sized_of_reachable h
  obtain ⟨events, hinv⟩ := hsized.clean.inv
  refine ⟨hinv.contextActive, hsized.busy, fun e m' hs => ?_⟩
  obtain ⟨stamps, hstamps, -⟩ := step_of_yields hs (hsized.step hm hs)
  exact ⟨stamps, hstamps⟩

def inConflict : StampingMachine := (Machine.firstConflict.foldlM step new).get (by decide +kernel)

theorem inConflict_stamps : inConflict.m_stamps.contextActive = false ∧ inConflict.m_stamps.stamps.length = 4 ∧
    (inConflict.step (.resolve true)).isSome = true := by
  have hreach : inConflict.Reachable := by
    have hregular : ∀ e ∈ Machine.firstConflict, e.Regular := by decide
    exact Runs.Reachable.foldlM (.init rfl) (fun e he _ _ hs => ⟨e, hregular e he, hs⟩) (Option.some_get _).symm
  obtain ⟨hactive, hlength, hstep⟩ := stamps_suffice hreach
  have hverdict : inConflict.machine.control.conflictingClause = some 1 := by decide +kernel
  have hcontrol := Control.eq_of_conflictingClause hverdict
  refine ⟨hactive, hlength fun r hr => ?_, ?_⟩
  · rw [hcontrol] at hr
    cases hr
  · obtain ⟨m', hm'⟩ : ∃ m', inConflict.machine.step (.resolve true) = some m' :=
      Option.isSome_iff_exists.mp (by decide +kernel)
    obtain ⟨stamps, hstamps⟩ := hstep _ m' hm'
    rw [hstamps]
    rfl

end StampingMachine

end JamSAT
