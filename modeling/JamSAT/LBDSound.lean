import JamSAT.ClauseLifetimes
import JamSAT.LiteralBlockDistance
import JamSAT.RestartPolicies
import JamSAT.SharedStampsRuns

/-!
# LBDs are positive

An LBD is the number of the levels of a clause. Reasons and lemmas have literals, so that
`setLBD` is never asked to set 0.
-/

namespace JamSAT

open UnitLogic Assignment FallibleState

section

variable {level : CNFVar → Nat} {literals : List CNFLit}

theorem countLevels_eq (literals : List CNFLit) : ∀ (stamped : List Nat) (result : Nat),
    countLevels level literals stamped result =
      result + ((literals.map fun l => level l.var).toFinset \ stamped.toFinset).card := by
  induction literals with
  | nil => simp [countLevels]
  | cons literal literals ih =>
    intro stamped result
    unfold countLevels
    rw [List.map_cons, List.toFinset_cons]
    by_cases hm : level literal.var ∈ stamped
    · rw [if_pos hm, ih, Finset.insert_sdiff_of_mem _ (List.mem_toFinset.mpr hm)]
    · have hn : level literal.var ∉ stamped.toFinset := mt List.mem_toFinset.mp hm
      rw [if_neg hm, ih, List.toFinset_cons, Finset.sdiff_insert, Finset.insert_sdiff_of_notMem _ hn]
      rw [← Finset.card_erase_add_one (Finset.mem_insert_self _ _), Finset.erase_insert_eq_erase, Nat.add_assoc,
        Nat.add_comm 1]

theorem getLBD_eq (level : CNFVar → Nat) (literals : List CNFLit) :
    getLBD level literals = (literals.map fun l => level l.var).toFinset.card := by
  rw [getLBD, countLevels_eq, List.toFinset_nil, Finset.sdiff_empty, Nat.zero_add]

theorem getLBD_pos (h : literals ≠ []) : 0 < getLBD level literals := by
  rw [getLBD_eq, Finset.card_pos, List.toFinset_nonempty_iff]
  exact mt List.map_eq_nil_iff.mp h

theorem getLBD_le_length : getLBD level literals ≤ literals.length := by
  rw [getLBD_eq]
  exact (List.toFinset_card_le _).trans_eq (List.length_map _)

end

/-! ## Setting LBDs -/

namespace LBDs

variable {lbds lbds' : LBDs} {c : ClauseRef} {n : Nat} {size : ClauseRef → Nat}

/-- An LBD changes to one that a clause of at most `size` literals can have. -/
def Updated (size : ClauseRef → Nat) (lbds lbds' : LBDs) : Prop :=
  ∀ c, lbds' c = lbds c ∨ 0 < lbds' c ∧ lbds' c ≤ maxLBD ∧ lbds' c ≤ size c

theorem Updated.refl (size : ClauseRef → Nat) (lbds : LBDs) : Updated size lbds lbds := fun _ => .inl rfl

theorem Updated.trans {lbds'' : LBDs} (h : Updated size lbds lbds') (h' : Updated size lbds' lbds'') :
    Updated size lbds lbds'' := by
  intro c
  cases h' c with
  | inl he => exact (h c).imp he.trans fun hc => he ▸ hc
  | inr hc => exact .inr hc

theorem Updated.le (h : Updated size lbds lbds') (hle : ∀ c, lbds c ≤ maxLBD) (c : ClauseRef) :
    lbds' c ≤ maxLBD := by
  cases h c with
  | inl he => exact he.trans_le (hle c)
  | inr hc => exact hc.2.1

def Keeps (size : ClauseRef → Nat) (lbds : LBDs) (result : Option LBDs) : Prop :=
  ∃ lbds', result = some lbds' ∧ Updated size lbds lbds'

theorem Keeps.pure (size : ClauseRef → Nat) (lbds : LBDs) : Keeps size lbds (some lbds) :=
  ⟨lbds, rfl, .refl size lbds⟩

theorem Keeps.bind {result : Option LBDs} {f : LBDs → Option LBDs} (h : Keeps size lbds result)
    (hf : ∀ lbds', Updated size lbds lbds' → Keeps size lbds' (f lbds')) : Keeps size lbds (result.bind f) := by
  obtain ⟨lbds₁, rfl, hup⟩ := h
  obtain ⟨lbds₂, he, hup'⟩ := hf lbds₁ hup
  exact ⟨lbds₂, he, hup.trans hup'⟩

theorem setLBD_spec (lbds : LBDs) (c : ClauseRef) (h : 0 < n) :
    ∃ lbds', lbds.setLBD c n = some lbds' ∧ (∀ d, d ≠ c → lbds' d = lbds d) ∧ 0 < lbds' c ∧ lbds' c ≤ maxLBD ∧
      lbds' c ≤ n := by
  have hmin : (if n ≤ maxLBD then n else maxLBD) = min n maxLBD := rfl
  refine ⟨_, if_pos h, fun d hd => Function.update_of_ne hd _ _, ?_⟩
  rw [hmin, Function.update_self]
  exact ⟨lt_min h (by decide), min_le_right _ _, min_le_left _ _⟩

theorem Keeps.setLBD (lbds : LBDs) (h : 0 < n) (hn : n ≤ size c) : Keeps size lbds (lbds.setLBD c n) := by
  obtain ⟨lbds', hset, hframe, hpos, hle, hnew⟩ := lbds.setLBD_spec c h
  refine ⟨lbds', hset, fun d => ?_⟩
  by_cases hd : d = c
  · rw [hd]
    exact .inr ⟨hpos, hle, hnew.trans hn⟩
  · exact .inl (hframe d hd)

theorem Keeps.updateReasonClauseLBDs {s : Assignment} {lits : List CNFLit} {updated : Nat}
    (h : ∀ l ∈ lits, ∀ c, s.getReason l.var = some c → (s.mem c).lits ≠ []) (hsize : ∀ c, (s.mem c).size ≤ size c)
    (lbds : LBDs) : Keeps size lbds (updateReasonClauseLBDs s lits updated lbds) := by
  induction lits generalizing lbds updated with
  | nil => exact .pure size lbds
  | cons lit lits ih =>
    obtain ⟨hlit, hlits⟩ := List.forall_mem_cons.mp h
    unfold LBDs.updateReasonClauseLBDs
    cases hr : s.getReason lit.var with
    | none => exact ih hlits lbds
    | some c =>
      have hpos : 0 < getLBD s.getLevel (s.mem c).lits := getLBD_pos (hlit c hr)
      have hle : getLBD s.getLevel (s.mem c).lits ≤ size c := getLBD_le_length.trans (hsize c)
      refine Keeps.bind (.setLBD lbds hpos hle) fun lbds' _ => ?_
      split
      · exact .pure size lbds'
      · exact ih hlits lbds'

end LBDs

/-! ## Backtracking -/

namespace Assignment

variable {s : Assignment} {R K Z : Set ClauseRef} {dead : Set CNFLit}

def ReasonsNonempty (s : Assignment) : Prop :=
  ∀ l ∈ s.trail, ∀ c, s.getReason l.var = some c → (s.mem c).lits ≠ []

theorem ReasonsNonempty.of_nil (h : s.trail = []) : s.ReasonsNonempty := by
  intro l hl
  rw [h] at hl
  cases hl

theorem Core.reasonsNonempty (h : Core R K Z dead s) : s.ReasonsNonempty := by
  intro l hl c hr he
  have hsize := (h.wf c (h.reasons.registered l hl c hr)).two_le_size
  rw [Clause.size, he] at hsize
  exact absurd hsize (by decide)

theorem Steady.reasonsNonempty (h : Steady R K Z dead s) : s.ReasonsNonempty := by
  cases h with
  | idle h => exact .of_nil h.nil
  | ready h => exact h.core.reasonsNonempty

end Assignment

namespace LBDs

open CDCLSatSolver

variable {size : ClauseRef → Nat}

theorem Keeps.backtrackAll {s : CDCLSatSolver} (h : s.assignment.ReasonsNonempty)
    (hsize : ∀ c, (s.mem c).size ≤ size c) (lbds : LBDs) : Keeps size lbds (lbds.backtrackAll s) :=
  .updateReasonClauseLBDs (fun l hl => h l (getLevelAssignments_subset _ _ (List.mem_reverse.mp hl))) hsize lbds

/-! ## Lemmas -/

section

variable {Φ : Set (Finset CNFLit)} {K Z : Set ClauseRef} {dead : Set CNFLit} {assumedFacts : List CNFLit}
  {s : CDCLSatSolver} {c : ClauseRef} (hdata : Data Φ s) (hc : Clash s.clauses K Z dead c s.assignment)
  (h₂ : 2 ≤ s.assignment.currentLevel)
include hdata hc h₂

/-- A lemma gets an LBD unless it is a fact. -/
theorem deriveLemma_spec (h : Searching K dead assumedFacts s) (lowLBD : Bool) (lbds : LBDs) :
    ∃ lbds', lbds.deriveLemma s lowLBD c = some lbds' ∧ (∀ d, d ≠ s.nextClause → lbds' d = lbds d) ∧
      (∀ l t, s.deriveLemma lowLBD c = some (.fact l, t) → lbds' = lbds) ∧
      ∀ lits k, s.deriveLemma lowLBD c = some (.clause s.nextClause k, s.addLemma lits) →
        0 < lbds' s.nextClause ∧ lbds' s.nextClause ≤ maxLBD ∧ lbds' s.nextClause ≤ lits.length := by
  obtain ⟨u, tail, hlits, -⟩ := h.lemmaLiterals hdata hc h₂ lowLBD
  unfold LBDs.deriveLemma CDCLSatSolver.deriveLemma
  rw [hlits, Option.bind_some, Option.map_some]
  by_cases hone : (-u :: tail).length = 1
  · rw [if_pos hone, if_pos hone]
    refine ⟨lbds, rfl, fun _ _ => rfl, fun _ _ _ => rfl, fun lits k he => ?_⟩
    cases he
  · have hpos : 0 < getLBD s.assignment.getLevel (-u :: tail) := getLBD_pos (List.cons_ne_nil _ _)
    obtain ⟨lbds', hset, hframe, hnew, hmax, hle⟩ := lbds.setLBD_spec s.nextClause hpos
    rw [if_neg hone, if_neg hone]
    refine ⟨lbds', hset, hframe, fun l t he => ?_, fun lits k he => ⟨hnew, hmax, hle.trans ?_⟩⟩
    · cases he
    · have hadd := congrArg (fun t : CDCLSatSolver => (t.mem s.nextClause).lits)
        (Prod.mk.inj (Option.some.inj he)).2
      have hmem : ∀ lits, ((s.addLemma lits).mem s.nextClause).lits = lits := by
        intro lits
        rw [CDCLSatSolver.mem, addLemma_assignment, writeClause_mem_self]
        rfl
      rw [hmem, hmem] at hadd
      rw [← hadd, VecEdit.length_swapAt]
      exact getLBD_le_length

/-- Behind the conflict, the reasons have literals, and the clauses have not changed but for the lemma. -/
theorem resolveConflict_spec (h : Assumed K dead assumedFacts s) {lowLBD : Bool}
    {r : ResolveResult × CDCLSatSolver} (hr : s.resolveConflict lowLBD c = some r) :
    r.2.assignment.ReasonsNonempty ∧ ((∃ l, s.deriveLemma lowLBD c = some (.fact l, s) ∧ r.2.mem = s.mem ∧
      r.2.clauseDB = s.clauseDB) ∨ ∃ lits k, s.deriveLemma lowLBD c = some (.clause s.nextClause k, s.addLemma lits) ∧
        ∀ d, (r.2.mem d).lits.Perm ((s.createClause (lemmaClause lits)).mem d).lits) := by
  obtain ⟨lits, k, hl, hres⟩ := h.toSearching.deriveLemma hdata hc h₂ lowLBD
  unfold CDCLSatSolver.resolveConflict at hr
  cases hres with
  | inl hfact =>
    obtain ⟨l, -, -, hd⟩ := hfact
    rw [hd] at hr
    obtain rfl := Option.some.inj hr
    exact ⟨hc.core.reasonsNonempty, .inl ⟨l, hd, rfl, rfl⟩⟩
  | inr hclause =>
    obtain ⟨hlen, hd⟩ := hclause
    rw [hd] at hr
    have hr : afterLemma k ((s.resumed lits k).registerLemma s.nextClause) = r := Option.some.inj hr
    obtain ⟨t, ht⟩ : ∃ t, t = s.resumed lits k := ⟨_, rfl⟩
    have hmem : t.mem = (s.createClause (lemmaClause lits)).mem := ht ▸ resumed_mem_eq s lits k
    have hend := registerLemma_resumed hdata hc hl hlen ht
    suffices key : (t.registerLemma s.nextClause).2.assignment.ReasonsNonempty ∧
        ∀ d, ((t.registerLemma s.nextClause).2.mem d).lits.Perm (t.mem d).lits by
      rw [← hr, afterLemma_snd, ← ht]
      exact ⟨key.1, .inr ⟨lits, k, hd, hmem ▸ key.2⟩⟩
    unfold CDCLSatSolver.registerLemma
    generalize t.assignment.registerLemma s.nextClause = q at hend
    obtain ⟨_ | d, u⟩ := q
    · exact ⟨hend.1.core.reasonsNonempty, hend.2.grows.lits⟩
    · exact ⟨hend.1.core.reasonsNonempty, hend.2.grows.lits⟩

omit h₂ in
theorem Keeps.learn {lits : List CNFLit} (k : Nat)
    (hsize : ∀ d, ((s.createClause (lemmaClause lits)).mem d).size ≤ size d) (lbds : LBDs) :
    Keeps size lbds (lbds.learn (s.addLemma lits).registerConflict (.clause s.nextClause k)) := by
  have hcore := hc.core.writeClause (fun hmem => hdata.ne_nextClause hmem rfl) (lemmaClause lits)
  have hsome : ((s.addLemma lits).registerConflict.recordLemma s.nextClause).assignment.ReasonsNonempty := by
    rw [recordLemma_eq]
    exact hcore.reasonsNonempty
  refine Keeps.updateReasonClauseLBDs (fun l hlvl => ?_) (fun d => ?_) lbds
  · exact hsome l (getLevelAssignments_subset _ _ (List.mem_reverse.mp hlvl))
  · rw [recordLemma_eq]
    exact hsize d

/-- A turn of the loop: how far the LBDs change, and that of the lemma. -/
theorem lbds_resolveConflict (h : Assumed K dead assumedFacts s) {lowLBD : Bool}
    {r : ResolveResult × CDCLSatSolver} (hr : s.resolveConflict lowLBD c = some r) (lbds : LBDs) :
    ∃ lbds', lbds.resolveConflict s lowLBD c = some lbds' ∧ Updated (fun d => (r.2.mem d).size) lbds lbds' ∧
      (s.nextClause ∈ r.2.clauseDB → 0 < lbds' s.nextClause ∧ lbds' s.nextClause ≤ maxLBD ∧
        lbds' s.nextClause ≤ (r.2.mem s.nextClause).size) := by
  obtain ⟨lbds₁, hderive, hframe, hfacts, hclauses⟩ := deriveLemma_spec hdata hc h₂ h.toSearching lowLBD lbds
  obtain ⟨hnonempty, hcases⟩ := resolveConflict_spec hdata hc h₂ h hr
  unfold CDCLSatSolver.resolveConflict at hr
  unfold LBDs.resolveConflict
  rw [hderive]
  cases hcases with
  | inl hfact =>
    obtain ⟨l, hd, hmem, hdb⟩ := hfact
    rw [hd] at hr ⊢
    have hlearn : s.registerConflict.learn (.fact l) = r := Option.some.inj hr
    have hlbds : lbds₁ = lbds := hfacts l s hd
    have hsize : ∀ d, ((s.registerConflict.learn (.fact l)).2.mem d).size ≤ (r.2.mem d).size :=
      fun d => by rw [hlearn]
    obtain ⟨lbds', hl, hup⟩ := Keeps.backtrackAll (hlearn ▸ hnonempty) hsize lbds
    refine ⟨lbds', hlbds ▸ hl, hup, fun hin => ?_⟩
    rw [hdb] at hin
    exact absurd rfl (hdata.ne_nextClause hin)
  | inr hclause =>
    obtain ⟨lits, k, hd, hperm⟩ := hclause
    have hsize : ∀ d, (r.2.mem d).size = ((s.createClause (lemmaClause lits)).mem d).size :=
      fun d => (hperm d).length_eq
    have hnew : (r.2.mem s.nextClause).size = lits.length := by
      rw [hsize, createClause_mem_self]
      rfl
    have hfirst := hclauses lits k hd
    have hup₁ : Updated (fun d => (r.2.mem d).size) lbds lbds₁ := by
      intro d
      by_cases hdn : d = s.nextClause
      · rw [hdn]
        exact .inr ⟨hfirst.1, hfirst.2.1, hfirst.2.2.trans hnew.ge⟩
      · exact .inl (hframe d hdn)
    obtain ⟨lbds₂, hl₂, hup₂⟩ := Keeps.learn hdata hc k (fun d => (hsize d).ge) lbds₁
    rw [hd] at hr ⊢
    dsimp only [Option.bind_eq_bind, Option.bind_some, Option.map_some] at hr ⊢
    rw [hl₂, Option.bind_some]
    generalize (s.addLemma lits).registerConflict.learn (.clause s.nextClause k) = e at hr
    obtain rfl := Option.some.inj hr
    have finish : ∀ result : Option LBDs, Keeps (fun d => (e.2.mem d).size) lbds₂ result →
        ∃ lbds', result = some lbds' ∧ Updated (fun d => (e.2.mem d).size) lbds lbds' ∧
          (s.nextClause ∈ e.2.clauseDB → 0 < lbds' s.nextClause ∧ lbds' s.nextClause ≤ maxLBD ∧
            lbds' s.nextClause ≤ (e.2.mem s.nextClause).size) := by
      intro result hresult
      obtain ⟨lbds', hl, hup⟩ := hresult
      have hup := hup₂.trans hup
      refine ⟨lbds', hl, hup₁.trans hup, fun _ => ?_⟩
      cases hup s.nextClause with
      | inl he =>
        rw [he]
        exact ⟨hfirst.1, hfirst.2.1, hfirst.2.2.trans hnew.ge⟩
      | inr hc => exact hc
    obtain ⟨_ | _ | d, u⟩ := e
    · exact finish _ (.pure _ lbds₂)
    · exact finish _ (.backtrackAll hnonempty (fun _ => le_rfl) lbds₂)
    · exact finish _ (.pure _ lbds₂)

end

end LBDs

/-! ## Steps -/

namespace Machine

open CDCLSatSolver LBDs

theorem backtrackAll_mem (s : CDCLSatSolver) : s.backtrackAll.mem = s.mem := undoAll_mem _

theorem conclude_mem (m : Machine) (s : CDCLSatSolver) (result : TBool) (failedAssumptions : List CNFLit) :
    (m.conclude s result failedAssumptions).solver.mem = s.mem := by
  show (s.concludeSolve result failedAssumptions).2.mem = s.mem
  unfold concludeSolve
  dsimp only
  rw [backtrackAll_mem]
  split
  · exact congrArg Assignment.mem (finalizeProofOnUnsat_assignment s)
  · rfl

variable {m m' : Machine} (h : Inv m) (lbds : LBDs)
include h

theorem Inv.reasonsNonempty_propagateHardFacts {s : CDCLSatSolver} (hc : m.control = .reduced)
    (he : m.solver.propagateHardFacts = (true, s)) : s.assignment.ReasonsNonempty := by
  obtain ⟨hdata, hat, -⟩ := h
  rw [hc] at hat
  cases hat with
  | reduced hr hres =>
    have hend := hres.appendFacts hdata
    unfold CDCLSatSolver.propagateHardFacts CDCLSatSolver.propagateFactsOnSystemLevels at he
    generalize m.solver.assignment.appendFacts m.solver.facts = e at he hend
    obtain ⟨_ | fact, t⟩ := e
    · dsimp only at he
      split at he
      · cases he
      · cases he
    · obtain ⟨hstop, -⟩ := hend
      cases he
      exact hstop.core.reasonsNonempty

/-- In the loop of `resolveDecision`. -/
theorem Inv.lbds_conflict {c : ClauseRef} (hc : m.control = .conflict c) {lowLBD : Bool}
    {r : ResolveResult × CDCLSatSolver} (he : m.solver.resolveConflict lowLBD c = some r) :
    ∃ lbds', lbds.step m (.resolve lowLBD) = some lbds' ∧ Updated (fun d => (r.2.mem d).size) lbds lbds' ∧
      (m.solver.nextClause ∈ r.2.clauseDB → 0 < lbds' m.solver.nextClause ∧ lbds' m.solver.nextClause ≤ maxLBD ∧
        lbds' m.solver.nextClause ≤ (r.2.mem m.solver.nextClause).size) := by
  obtain ⟨hdata, hat, -⟩ := h
  unfold LBDs.step
  rw [hc] at hat ⊢
  cases hat with
  | conflict hr hassumed hclash h₂ => exact lbds_resolveConflict hdata hclash h₂ hassumed he lbds

theorem Inv.reasonsNonempty_of_decided (hc : m.control = .decided ∨ m.control = .deciding) :
    m.solver.assignment.ReasonsNonempty := by
  obtain ⟨hdata, hat, -⟩ := h
  cases hc with
  | inl hc =>
    rw [hc] at hat
    cases hat with
    | decided hr hassumed hready => exact hready.core.reasonsNonempty
  | inr hc =>
    rw [hc] at hat
    cases hat with
    | deciding hr hassumed hsteady => exact hsteady.reasonsNonempty

theorem Inv.lbds_step {e : Event} (hs : m.step e = some m') :
    Keeps (fun c => (m'.solver.mem c).size) lbds (lbds.step m e) := by
  have hinv := h
  have hsize : ∀ (s : CDCLSatSolver) (result : TBool) (failed : List CNFLit) (c : ClauseRef),
      (s.mem c).size ≤ ((m.conclude s result failed).solver.mem c).size := fun s result failed c => by
    rw [conclude_mem]
  obtain ⟨hdata, hat, -⟩ := h
  cases transition_of_step hs with
  | stop hc =>
    rw [hc] at hat
    cases hat with
    | restarting hr hres hclean => exact .backtrackAll (.of_nil hres.idle.nil) (hsize _ _ _) lbds
  | simplifyRefuted hc he =>
    rw [hc] at hat
    cases hat with
    | restarting hr hres hclean =>
      obtain ⟨-, hunsat, -⟩ := hres.trySimplify hdata
      unfold LBDs.step
      rw [he] at hunsat ⊢
      obtain ⟨R, K, Z, dead, hi, -⟩ := (hunsat rfl).2.idle
      exact .backtrackAll (.of_nil hi.nil) (hsize _ _ _) lbds
  | simplify hc he =>
    unfold LBDs.step
    rw [he]
    exact .pure _ lbds
  | factsRefuted hc he =>
    unfold LBDs.step
    rw [he]
    exact .backtrackAll (hinv.reasonsNonempty_propagateHardFacts hc he) (hsize _ _ _) lbds
  | facts hc he =>
    unfold LBDs.step
    rw [he]
    exact .pure _ lbds
  | assumptionsRefuted hc he ha =>
    rw [hc] at hat
    cases hat with
    | assuming hr hsearch hsteady h₁ =>
      obtain ⟨⟨hstop, -, -⟩, hsim, hsearch', hdata', h₁'⟩ := hsearch.propagated hdata hsteady h₁ hr.vars he
      unfold LBDs.step
      rw [he]
      exact .backtrackAll hstop.core.reasonsNonempty (hsize _ _ _) lbds
  | assumptions hc he =>
    unfold LBDs.step
    rw [he]
    exact .pure _ lbds
  | resolve hc he =>
    obtain ⟨lbds', hl, hup, -⟩ := hinv.lbds_conflict lbds hc he
    exact ⟨lbds', hl, hup⟩
  | resolveRestart hc he =>
    obtain ⟨lbds', hl, hup, -⟩ := hinv.lbds_conflict lbds hc he
    refine ⟨lbds', hl, ?_⟩
    dsimp only
    rwa [backtrackAll_mem]
  | resolveConflict hc he =>
    obtain ⟨lbds', hl, hup, -⟩ := hinv.lbds_conflict lbds hc he
    exact ⟨lbds', hl, hup⟩
  | restart hc =>
    refine .backtrackAll (hinv.reasonsNonempty_of_decided (.inl hc)) (fun c => ?_) lbds
    dsimp only
    rw [backtrackAll_mem]
  | stopped hc hn =>
    unfold LBDs.step
    dsimp only
    rw [if_pos (by simp [hn])]
    exact .backtrackAll (hinv.reasonsNonempty_of_decided (.inl hc)) (hsize _ _ _) lbds
  | «continue» hc hn =>
    unfold LBDs.step
    dsimp only
    rw [if_neg (by simpa using hn)]
    exact .pure _ lbds
  | finish hc hcomplete => exact .backtrackAll (hinv.reasonsNonempty_of_decided (.inr hc)) (hsize _ _ _) lbds
  | _ => exact .pure _ lbds

/-- The LBD of a lemma when it is new. -/
theorem Inv.lbds_learnt {lowLBD : Bool} (hs : m.step (.resolve lowLBD) = some m')
    (hnew : m.solver.nextClause ∈ m'.solver.clauseDB) {lbds' : LBDs} (hl : lbds.step m (.resolve lowLBD) = some lbds') :
    0 < lbds' m.solver.nextClause ∧ lbds' m.solver.nextClause ≤ maxLBD ∧
      lbds' m.solver.nextClause ≤ (m'.solver.mem m.solver.nextClause).size := by
  have key : ∀ (c : ClauseRef) (r : ResolveResult × CDCLSatSolver), m.control = .conflict c →
      m.solver.resolveConflict lowLBD c = some r → r.2.clauseDB = m'.solver.clauseDB → r.2.mem = m'.solver.mem →
      0 < lbds' m.solver.nextClause ∧ lbds' m.solver.nextClause ≤ maxLBD ∧
        lbds' m.solver.nextClause ≤ (m'.solver.mem m.solver.nextClause).size := by
    intro c r hc he hdb hmem
    obtain ⟨lbds₁, hl₁, -, hfresh⟩ := h.lbds_conflict lbds hc he
    obtain rfl := Option.some.inj (hl₁.symm.trans hl)
    rw [hdb, hmem] at hfresh
    exact hfresh hnew
  cases transition_of_step hs with
  | resolve hc he => exact key _ _ hc he rfl rfl
  | resolveRestart hc he => exact key _ _ hc he rfl (backtrackAll_mem _).symm
  | resolveConflict hc he => exact key _ _ hc he rfl rfl

end Machine

/-! ## The order of the learnt clauses -/

namespace LBDs

theorem lessThan_eq_false {lbds : LBDs} {mem : ClauseRef → Clause} {lhs rhs : ClauseRef} :
    lbds.lessThan mem rhs lhs = false ↔
      lbds lhs < lbds rhs ∨ lbds lhs = lbds rhs ∧ (mem lhs).size ≤ (mem rhs).size := by
  unfold lessThan
  split
  · rename_i hne
    rw [decide_eq_false_iff_not]
    omega
  · rename_i he
    rw [decide_eq_false_iff_not]
    omega

theorem exists_sorted (lbds : LBDs) (mem : ClauseRef → Clause) (learntClauses : List ClauseRef) :
    ∃ sorted, sorted.Perm learntClauses ∧ lbds.Sorted mem sorted := by
  refine ⟨learntClauses.mergeSort fun lhs rhs => !lbds.lessThan mem rhs lhs, List.mergeSort_perm _ _, ?_⟩
  refine (List.pairwise_mergeSort (fun a b c hab hbc => ?_) (fun a b => ?_) learntClauses).imp fun hle => ?_
  · rw [Bool.not_eq_true', lessThan_eq_false] at hab hbc ⊢
    omega
  · rw [Bool.or_eq_true, Bool.not_eq_true', Bool.not_eq_true', lessThan_eq_false, lessThan_eq_false]
    omega
  · exact Bool.not_eq_true' _ |>.mp hle

end LBDs

/-! ## Restarts -/

namespace SimpleMovingAverage

structure Inv (a : SimpleMovingAverage) : Prop where
  length_le : a.m_values.length ≤ a.capacity
  values_lt : ∀ v ∈ a.m_values, v < uint32Size
  sum_eq : a.m_currentSum = a.m_values.sum % uint32Size

variable {a : SimpleMovingAverage}

theorem Inv.new (horizon : Nat) : (new horizon).Inv := ⟨Nat.zero_le _, List.forall_mem_nil _, rfl⟩

theorem Inv.clear (a : SimpleMovingAverage) : a.clear.Inv := ⟨Nat.zero_le _, List.forall_mem_nil _, rfl⟩

theorem capacity_add (a : SimpleMovingAverage) (value : Nat) : (a.add value).capacity = a.capacity := by
  unfold SimpleMovingAverage.add
  split
  · rfl
  · dsimp only
    split
    · rfl
    · rfl

/-- Taking a value out of a sum that has been reduced. -/
theorem sub_mod_sum {first rest : Nat} (h : first < uint32Size) :
    ((first + rest) % uint32Size + uint32Size - first) % uint32Size = rest % uint32Size := by
  rw [Nat.add_sub_assoc h.le, Nat.mod_add_mod]
  have he : first + rest + (uint32Size - first) = rest + uint32Size := by omega
  rw [he, Nat.add_mod_right]

/-- Of the values, the last ones are kept. -/
theorem Inv.add (h : a.Inv) {value : Nat} (hv : value < uint32Size) : (a.add value).Inv ∧
    (a.add value).m_values = (a.m_values ++ [value]).drop (a.m_values.length + 1 - a.capacity) := by
  obtain ⟨capacity, values, sum⟩ := a
  obtain ⟨hlen, hlt, hsum⟩ := h
  dsimp only at hlen hlt hsum
  unfold SimpleMovingAverage.add isFull
  dsimp only
  by_cases hzero : capacity = 0
  · have hnil : values = [] := List.length_eq_zero_iff.mp (Nat.le_zero.mp (hzero ▸ hlen))
    rw [if_pos hzero, hnil, hzero]
    exact ⟨⟨le_rfl, List.forall_mem_nil _, by rw [hsum, hnil]⟩, rfl⟩
  · rw [if_neg hzero]
    by_cases hfull : values.length = capacity
    · rw [if_pos (beq_iff_eq.mpr hfull)]
      cases values with
      | nil => exact absurd hfull.symm hzero
      | cons first values =>
        obtain ⟨hfirst, hvalues⟩ := List.forall_mem_cons.mp hlt
        refine ⟨⟨?_, ?_, ?_⟩, ?_⟩
        · simpa using hfull.le
        · exact List.forall_mem_append.mpr ⟨hvalues, List.forall_mem_singleton.mpr hv⟩
        · show ((sum + uint32Size - first) % uint32Size + value) % uint32Size = (values ++ [value]).sum % uint32Size
          rw [hsum, List.sum_cons, sub_mod_sum hfirst, Nat.mod_add_mod, List.sum_append, List.sum_singleton]
        · rw [hfull, Nat.add_sub_cancel_left]
          rfl
    · rw [if_neg (mt beq_iff_eq.mp hfull)]
      have hle : values.length + 1 ≤ capacity := Nat.lt_of_le_of_ne hlen hfull
      refine ⟨⟨?_, ?_, ?_⟩, ?_⟩
      · simpa using hle
      · exact List.forall_mem_append.mpr ⟨hlt, List.forall_mem_singleton.mpr hv⟩
      · rw [hsum, Nat.mod_add_mod, List.sum_append, List.sum_singleton]
      · rw [Nat.sub_eq_zero_of_le hle]
        rfl

end SimpleMovingAverage

namespace AveragingRestartPolicy

open LBDs

variable {D : Type} {p p' : AveragingRestartPolicy D} {lbds : LBDs}

/-- What `PacedMachine` knows of the policy. -/
def count (p : AveragingRestartPolicy D) : GlucoseRestartPolicy :=
  ⟨p.m_averageLBD.capacity, p.m_averageLBD.m_values.length⟩

structure Sane (p : AveragingRestartPolicy D) : Prop where
  average : p.m_averageLBD.Inv
  lbds : ∀ v ∈ p.m_averageLBD.m_values, 0 < v ∧ v ≤ maxLBD

theorem Sane.new [OfScientific D] (window : Nat) : (new window : AveragingRestartPolicy D).Sane :=
  ⟨.new window, List.forall_mem_nil _⟩

theorem Sane.registerRestart (p : AveragingRestartPolicy D) : p.registerRestart.Sane :=
  ⟨.clear _, List.forall_mem_nil _⟩

theorem shouldRestart_eq [NatCast D] [Mul D] [Div D] [LT D] [DecidableLT D] (p : AveragingRestartPolicy D) :
    ∃ highLBD, p.shouldRestart = p.count.shouldRestart highLBD := ⟨_, rfl⟩

variable [NatCast D] [Add D]

theorem Sane.registerConflict (h : p.Sane) {n : Nat} (hpos : 0 < n) (hle : n ≤ maxLBD) :
    (p.registerConflict n).Sane ∧ (p.registerConflict n).count = p.count.registerConflict := by
  have hlt : n < uint32Size := hle.trans_lt (by decide)
  obtain ⟨hinv, hvalues⟩ := h.average.add hlt
  refine ⟨⟨hinv, fun v hv => ?_⟩, ?_⟩
  · have hv := List.mem_of_mem_drop (hvalues ▸ hv)
    cases List.mem_append.mp hv with
    | inl hv => exact h.lbds v hv
    | inr hv => exact List.mem_singleton.mp hv ▸ ⟨hpos, hle⟩
  · have hlength := h.average.length_le
    have hcount : (p.registerConflict n).count = ⟨p.m_averageLBD.capacity,
        p.m_averageLBD.m_values.length + 1 - (p.m_averageLBD.m_values.length + 1 - p.m_averageLBD.capacity)⟩ := by
      unfold AveragingRestartPolicy.count AveragingRestartPolicy.registerConflict
      dsimp only
      rw [SimpleMovingAverage.capacity_add, hvalues, List.length_drop, List.length_append, List.length_singleton]
    rw [hcount]
    unfold GlucoseRestartPolicy.registerConflict AveragingRestartPolicy.count
    dsimp only
    split
    · congr 1
      omega
    · congr 1
      omega

section

open CDCLSatSolver

variable {Φ : Set (Finset CNFLit)} {K Z : Set ClauseRef} {dead : Set CNFLit} {assumedFacts : List CNFLit}
  {s : CDCLSatSolver} {c : ClauseRef}

/-- The policy hears the LBD of a new lemma before it is told of a restart. -/
theorem Sane.resolveConflict (h : p.Sane) (hdata : Data Φ s)
    (hc : Assignment.Clash s.clauses K Z dead c s.assignment) (h₂ : 2 ≤ s.assignment.currentLevel)
    (hs : Searching K dead assumedFacts s) {lowLBD : Bool} {e : ResolveResult × CDCLSatSolver}
    (he : s.resolveConflict lowLBD c = some e) : ∃ p', p.resolveConflict lbds s lowLBD c = some p' ∧ p'.Sane ∧
      p'.count = match e.1 with | .restart => p.count.registerRestart | _ => p.count.registerConflict := by
  obtain ⟨lbds₁, hderive, -, -, hclauses⟩ := deriveLemma_spec hdata hc h₂ hs lowLBD lbds
  obtain ⟨lits, k, -, hres⟩ := hs.deriveLemma hdata hc h₂ lowLBD
  unfold CDCLSatSolver.resolveConflict at he
  unfold AveragingRestartPolicy.resolveConflict
  rw [hderive]
  cases hres with
  | inl hfact =>
    obtain ⟨l, -, -, hd⟩ := hfact
    rw [hd] at he ⊢
    obtain rfl := Option.some.inj he
    exact ⟨_, rfl, .registerRestart p, rfl⟩
  | inr hclause =>
    obtain ⟨-, hd⟩ := hclause
    obtain ⟨hpos, hle, -⟩ := hclauses lits k hd
    obtain ⟨hsane, hcount⟩ := h.registerConflict hpos hle
    rw [hd] at he ⊢
    dsimp only [Option.bind_eq_bind, Option.bind_some, Option.map_some] at he ⊢
    generalize (s.addLemma lits).registerConflict.learn (.clause s.nextClause k) = q at he
    obtain rfl := Option.some.inj he
    obtain ⟨_ | _ | d, u⟩ := q
    · exact ⟨_, rfl, hsane, hcount⟩
    · exact ⟨_, rfl, .registerRestart _,
        congrArg (GlucoseRestartPolicy.mk · 0) (SimpleMovingAverage.capacity_add _ _)⟩
    · exact ⟨_, rfl, hsane, hcount⟩

end

/-- Of the whole policy, `PacedMachine` sees the steps of its part. -/
theorem Sane.step (h : p.Sane) {m m' : Machine} (hm : m.Inv) {e : Event}
    (hs : m.step e = some m') : ∃ p', p.step lbds m e = some p' ∧ p'.Sane ∧
      p'.count = PacedMachine.notify p.count m'.control e := by
  obtain ⟨hdata, hat, -⟩ := hm
  cases e with
  | resolve lowLBD =>
    have key : ∀ (c : ClauseRef) (r : ResolveResult × CDCLSatSolver), m.control = .conflict c →
        m.solver.resolveConflict lowLBD c = some r → ∃ p', p.step lbds m (.resolve lowLBD) = some p' ∧ p'.Sane ∧
          p'.count = match r.1 with | .restart => p.count.registerRestart | _ => p.count.registerConflict := by
      intro c r hc he
      unfold AveragingRestartPolicy.step
      rw [hc] at hat ⊢
      cases hat with
      | conflict hr hassumed hclash h₂ => exact h.resolveConflict hdata hclash h₂ hassumed.toSearching he
    cases Machine.transition_of_step hs with
    | resolve hc he => exact key _ _ hc he
    | resolveRestart hc he => exact key _ _ hc he
    | resolveConflict hc he => exact key _ _ hc he
  | «continue» shouldRestart stopRequested =>
    cases shouldRestart with
    | true => exact ⟨_, rfl, .registerRestart p, rfl⟩
    | false => exact ⟨_, rfl, h, rfl⟩
  | _ => exact ⟨p, rfl, h, rfl⟩

end AveragingRestartPolicy

end JamSAT
