import JamSAT.EmittedProof
import JamSAT.FailedAssumptions

/-!
# The proof of a `solve` call

The first call of a solver with a certificate. If it returns `FALSE`, what has
been written refutes the added clauses and the assumptions, provided that the fact
cleaner has kept the facts each time.
-/

namespace JamSAT

open UnitLogic Assignment

namespace CDCLSatSolver

variable {s t : CDCLSatSolver} {added : List (List CNFLit)} {P₀ U : Multiset (Finset CNFLit)}

/-! ## Before the call -/

structure SetUp (added : List (List CNFLit)) (s : CDCLSatSolver) : Prop where
  data : Data (addedSets added) s
  live_le : s.live ≤ ↑(added.map List.toFinset)
  facts : ∀ l ∈ s.facts, {l} ∈ added.map List.toFinset

theorem SetUp.congr (h : SetUp added s) (hs : Similar s t) : SetUp added t :=
  ⟨h.data.congr hs, hs.live ▸ h.live_le, hs.facts ▸ h.facts⟩

section
variable {clause : List CNFLit}

theorem le_added_append (added : List (List CNFLit)) (clause : List CNFLit) :
    clause.toFinset ::ₘ (↑(added.map List.toFinset) : Multiset (Finset CNFLit)) ≤
      ↑((added ++ [clause]).map List.toFinset) := by
  rw [List.map_append]
  exact le_of_eq (Multiset.coe_eq_coe.mpr (List.perm_append_singleton _ _).symm)

theorem SetUp.fact_mem (h : SetUp added s) {l : CNFLit} (hl : l ∈ s.facts) :
    {l} ∈ (added ++ [clause]).map List.toFinset := by
  rw [List.map_append]
  exact List.mem_append_left _ (h.facts l hl)

theorem SetUp.drop (h : SetUp added s) (hd : Data (addedSets (added ++ [clause])) t) (hl : t.live = s.live)
    (hf : t.facts = s.facts) : SetUp (added ++ [clause]) t := by
  refine ⟨hd, ?_, fun l hlf => h.fact_mem (hf ▸ hlf)⟩
  rw [hl]
  exact (h.live_le.trans (Multiset.le_cons_self _ _)).trans (le_added_append added clause)

theorem SetUp.insert (h : SetUp added s) {lits : List CNFLit} (hset : lits.toFinset = clause.toFinset)
    (hd : Data (addedSets (added ++ [clause])) ((s.createClause (.ofLits lits)).raiseMaxVar lits)) :
    SetUp (added ++ [clause]) ((s.createClause (.ofLits lits)).raiseMaxVar lits) := by
  have hlive : ((s.createClause (.ofLits lits)).raiseMaxVar lits).live = lits.toFinset ::ₘ s.live :=
    live_createClause h.data rfl
  refine ⟨hd, ?_, fun l hl => h.fact_mem hl⟩
  rw [hlive, hset]
  exact ((Multiset.cons_le_cons_iff _).mpr h.live_le).trans (le_added_append added clause)

theorem SetUp.addFact (h : SetUp added s) {fact : CNFLit} (hset : [fact].toFinset = clause.toFinset)
    (hd : Data (addedSets (added ++ [clause])) t) (hl : t.live = s.live) (hf : t.facts = s.facts ++ [fact]) :
    SetUp (added ++ [clause]) t := by
  refine ⟨hd, ?_, fun l hlf => ?_⟩
  · rw [hl]
    exact (h.live_le.trans (Multiset.le_cons_self _ _)).trans (le_added_append added clause)
  · rw [hf] at hlf
    cases List.mem_append.mp hlf with
    | inl hlf => exact h.fact_mem hlf
    | inr hlf =>
      rw [List.mem_singleton.mp hlf, List.map_append]
      exact List.mem_append_right _ (List.mem_singleton.mpr hset)

theorem SetUp.addClause (h : SetUp added s) (hr : ∀ l ∈ clause, l.var < CNFVar.undefinedVariable) :
    SetUp (added ++ [clause]) (s.addClause clause) := by
  have hdata : Data (addedSets (added ++ [clause])) (s.addClause clause) := by
    rw [addedSets_append]
    exact h.data.addClause hr
  unfold CDCLSatSolver.addClause at hdata ⊢
  split
  · rename_i he
    rw [if_pos he] at hdata
    exact h.drop hdata rfl rfl
  · rename_i hne
    rw [if_neg hne] at hdata
    cases hcomp : compressClause clause with
    | none =>
      rw [hcomp] at hdata
      exact h.drop hdata rfl rfl
    | some compressed =>
      have hset : compressed.toFinset = clause.toFinset := by
        ext x
        rw [List.mem_toFinset, List.mem_toFinset, (compressClause_some hcomp).1]
      rw [hcomp] at hdata
      cases compressed with
      | nil => exact h.insert hset hdata
      | cons fact lits =>
        cases lits with
        | nil => exact h.addFact hset hdata rfl rfl
        | cons b lits => exact h.insert hset hdata

end

theorem SetUp.addProblem {clauses : List (List CNFLit)}
    (hr : ∀ clause ∈ clauses, ∀ l ∈ clause, l.var < CNFVar.undefinedVariable) :
    ∀ {added : List (List CNFLit)} {s : CDCLSatSolver}, SetUp added s →
      SetUp (added ++ clauses) (s.addProblem clauses) := by
  induction clauses with
  | nil =>
    intro added s h
    rw [List.append_nil]
    exact h
  | cons clause clauses ih =>
    intro added s h
    obtain ⟨hr, hrest⟩ := List.forall_mem_cons.mp hr
    have hall := ih hrest (h.addClause hr)
    rw [List.append_assoc] at hall
    exact hall

theorem addClause_certificate (s : CDCLSatSolver) (clause : List CNFLit) :
    (s.addClause clause).certificate = s.certificate := by
  unfold CDCLSatSolver.addClause
  split
  · rfl
  · cases compressClause clause with
    | none => rfl
    | some compressed =>
      cases compressed with
      | nil => rfl
      | cons fact lits =>
        cases lits with
        | nil => rfl
        | cons b lits => rfl

theorem addProblem_certificate (clauses : List (List CNFLit)) (s : CDCLSatSolver) :
    (s.addProblem clauses).certificate = s.certificate := by
  induction clauses generalizing s with
  | nil => rfl
  | cons clause clauses ih => exact (ih (s.addClause clause)).trans (addClause_certificate s clause)

def unitClauses (assumedFacts : List CNFLit) : Multiset (Finset CNFLit) :=
  ↑(assumedFacts.map fun l => ({l} : Finset CNFLit))

theorem mem_unitClauses {assumedFacts : List CNFLit} {l : CNFLit} (hl : l ∈ assumedFacts) :
    {l} ∈ unitClauses assumedFacts := List.mem_map.mpr ⟨l, hl, rfl⟩

theorem SetUp.prepareSolve (h : SetUp added s) (hc : s.certificate = some []) (assumedFacts : List CNFLit) :
    Certified (↑(added.map List.toFinset) + unitClauses assumedFacts) (unitClauses assumedFacts)
      (s.prepareSolve assumedFacts) := by
  have hcert : (s.prepareSolve assumedFacts).certificate = some [] := hc
  have hlive : (s.prepareSolve assumedFacts).live = s.live := by
    have hmem : (s.prepareSolve assumedFacts).mem = s.mem := (synchronize_mem _).trans (increaseMaxVar_mem _)
    unfold live
    rw [hmem]
    rfl
  refine .of_proves (P := ↑(added.map List.toFinset) + unitClauses assumedFacts) ?_ ?_ ?_
  · rw [hcert]
    exact ⟨rfl, trivial, rfl⟩
  · rw [hlive, Multiset.add_comm]
    exact Multiset.add_le_add_right h.live_le
  · refine .of_units fun l hl => ?_
    have hf : l ∈ s.facts := mem_withoutRedundancies.mp hl
    have hmem :
      ({l} : Finset CNFLit) ∈ (↑(added.map List.toFinset) + unitClauses assumedFacts : Multiset (Finset CNFLit)) :=
      Multiset.mem_add.mpr (.inl (Multiset.mem_coe.mpr (h.facts l hf)))
    exact hmem

/-! ## The end of the call -/

theorem Certified.finalize (h : Certified P₀ U s) (hc : Conflict {C | C ∈ s.proofClauses P₀} ∅) :
    ∃ steps, s.finalizeProofOnUnsat.finalizedProof = some steps ∧ Refutes P₀ (steps.map ProofStep.line) := by
  obtain ⟨steps, hsteps⟩ := Option.isSome_iff_exists.mp h.isSome
  have hvalid := h.valid
  unfold proofClauses at hc
  rw [hsteps] at hc hvalid
  refine ⟨steps ++ [.addATClause []], ?_, ?_⟩
  · unfold finalizeProofOnUnsat
    rw [hsteps]
  · rw [List.map_append]
    exact refutes_of_conflict hvalid hc

/-- The assumptions are clauses of the proof. -/
theorem Certified.conflict_assuming {assumedFacts : List CNFLit} (h : Certified P₀ (unitClauses assumedFacts) s)
    (hc : Conflict {C | C ∈ s.proofClauses P₀} {l | l ∈ assumedFacts}) :
    Conflict {C | C ∈ s.proofClauses P₀} ∅ := by
  refine hc.cut subset_rfl fun l hl => .of_unit ?_
  exact Multiset.mem_of_le ((Multiset.le_add_right _ _).trans h.live_le) (mem_unitClauses hl)

end CDCLSatSolver

def Event.IsSetup : Event → Prop
  | .addClause _ | .addProblem _ | .setDRATCertificate => True
  | _ => False

def Event.IsSearch : Event → Prop
  | .addClause _ | .addProblem _ | .setDRATCertificate | .solve _ => False
  | _ => True

namespace Machine

open CDCLSatSolver

variable {m m' : Machine} {e : Event}

def premises (m : Machine) : Multiset (Finset CNFLit) := ↑(m.added.map List.toFinset) + unitClauses m.assumedFacts

def KeepsFacts (m : Machine) : Prop := m.solver.KeepsFacts m.premises

/-- What has been finalized refutes the premises. -/
def Refuting (m : Machine) : Prop :=
  ∃ steps, m.solver.finalizedProof = some steps ∧ Refutes m.premises (steps.map ProofStep.line)

inductive Proving (m : Machine) : Prop
  | running (hn : ∀ r, m.control ≠ .ready r) (h : Certified m.premises (unitClauses m.assumedFacts) m.solver)
  | done {r : SolvingResult} (hc : m.control = .ready (some r)) (h : r.isProblemSatisfiable = .FALSE → m.Refuting)

theorem Proving.conclude {s : CDCLSatSolver} (h : Certified m.premises (unitClauses m.assumedFacts) s)
    (failed : List CNFLit) (hc : Conflict {C | C ∈ s.proofClauses m.premises} ∅) :
    Proving (m.conclude s .FALSE failed) := .done rfl fun _ => h.finalize hc

theorem Proving.running_of {s : CDCLSatSolver} {control : Control} (hn : ∀ r, control ≠ .ready r)
    (h : Certified m.premises (unitClauses m.assumedFacts) s) :
    Proving { m with solver := s, control := control } :=
  .running hn h

theorem Proving.of_stopped (hs : m.step .stop = some m') : Proving m' := by
  cases transition_of_step hs with
  | stop hc => exact .done rfl fun hf => by cases hf

theorem Proving.of_finished (hs : m.step .finish = some m') : Proving m' := by
  cases transition_of_step hs with
  | finish hc hcomplete => exact .done rfl fun hf => by cases hf

theorem Proving.certified (h : Proving m) (hn : ∀ r, m.control ≠ .ready r) :
    Certified m.premises (unitClauses m.assumedFacts) m.solver := by
  cases h with
  | running _ hcert => exact hcert
  | done hc _ => exact absurd hc (hn _)

section
variable (h : Proving m) (hinv : Inv m)
include h hinv

theorem Proving.trySimplify (hk : m.KeepsFacts) (hs : m.step .trySimplify = some m') : Proving m' := by
  obtain ⟨hdata, hat, -⟩ := hinv
  cases transition_of_step hs with
  | simplifyRefuted hc he =>
    have hcert := h.certified (hc ▸ fun r => Control.noConfusion)
    rw [hc] at hat
    cases hat with
    | restarting hr hres hclean =>
      obtain ⟨hcert', hconf⟩ := hcert.trySimplify hres hdata hk
      rw [he] at hcert' hconf
      exact .conclude hcert' [] (hconf rfl)
  | simplify hc he =>
    have hcert := h.certified (hc ▸ fun r => Control.noConfusion)
    rw [hc] at hat
    cases hat with
    | restarting hr hres hclean =>
      obtain ⟨hcert', -⟩ := hcert.trySimplify hres hdata hk
      rw [he] at hcert'
      exact .running_of (fun r => Control.noConfusion) hcert'

theorem Proving.tryReduceClauseDB {sorted : List ClauseRef} {lowLBD : Bool}
    (hs : m.step (.tryReduceClauseDB sorted lowLBD) = some m') : Proving m' := by
  cases transition_of_step hs with
  | reduce hc hp =>
    have hcert := h.certified (hc ▸ fun r => Control.noConfusion)
    exact .running_of (fun r => Control.noConfusion) (hcert.tryReduceClauseDB hinv.data hp lowLBD)

theorem Proving.propagateHardFacts (hs : m.step .propagateHardFacts = some m') : Proving m' := by
  obtain ⟨hdata, hat, -⟩ := hinv
  cases transition_of_step hs with
  | factsRefuted hc he =>
    have hcert := h.certified (hc ▸ fun r => Control.noConfusion)
    rw [hc] at hat
    cases hat with
    | reduced hr hres =>
      obtain ⟨hcert', hconf⟩ := hcert.propagateHardFacts hres hdata
      rw [he] at hcert' hconf
      exact .conclude hcert' [] (hconf rfl)
  | facts hc he =>
    have hcert := h.certified (hc ▸ fun r => Control.noConfusion)
    rw [hc] at hat
    cases hat with
    | reduced hr hres =>
      obtain ⟨hcert', -⟩ := hcert.propagateHardFacts hres hdata
      rw [he] at hcert'
      refine .running_of (fun r => Control.noConfusion) (hcert'.congr ?_ rfl)
      exact .of_mem rfl rfl rfl rfl rfl rfl rfl

theorem Proving.propagateAssumedFacts (hs : m.step .propagateAssumedFacts = some m') : Proving m' := by
  obtain ⟨hdata, hat, -⟩ := hinv
  cases transition_of_step hs with
  | @assumptionsRefuted s _ failed hc he ha =>
    have hcert := h.certified (hc ▸ fun r => Control.noConfusion)
    rw [hc] at hat
    cases hat with
    | assuming hr hsearch hsteady h₁ =>
      obtain ⟨⟨hstop, -, hf⟩, hsim, hsearch', hdata', h₁'⟩ := hsearch.propagated hdata hsteady h₁ hr.vars he
      obtain rfl : (m.solver.propagateFactsOnSystemLevels m.assumedFacts).2 = s := congrArg Prod.snd he
      have hcert' := hcert.congr hsim rfl
      have hconf := hcert'.conflict hdata' (hsearch'.conflict_of_stopped hstop hf h₁')
      exact .conclude hcert' failed (hcert'.conflict_assuming hconf)
  | @assumptions s hc he =>
    have hcert := h.certified (hc ▸ fun r => Control.noConfusion)
    rw [hc] at hat
    cases hat with
    | assuming hr hsearch hsteady h₁ =>
      obtain ⟨-, hsim, -⟩ := hsearch.propagated hdata hsteady h₁ hr.vars he
      obtain rfl : (m.solver.propagateFactsOnSystemLevels m.assumedFacts).2 = s := congrArg Prod.snd he
      exact .running_of (fun r => Control.noConfusion) (hcert.congr hsim rfl)

theorem Proving.append (hc : m.control = .deciding) {l : CNFLit}
    (hl : m.solver.assignment.getAssignment l = .INDETERMINATE) (hv : l.var ≤ m.solver.maxVar) :
    Certified m.premises (unitClauses m.assumedFacts) (m.solver.newLevel.append l).2 := by
  have hcert := h.certified (hc ▸ fun r => Control.noConfusion)
  obtain ⟨hdata, hat, -⟩ := hinv
  rw [hc] at hat
  cases hat with
  | deciding hr hassumed hsteady => exact hcert.append hassumed.size_eq hsteady hl hv

theorem Proving.decide {l : CNFLit} (hs : m.step (.decide l) = some m') : Proving m' := by
  cases transition_of_step hs with
  | decide hc hl he =>
    have hcert := h.append hinv hc hl.2.1 hl.2.2
    rw [he] at hcert
    exact .running_of (fun r => Control.noConfusion) hcert
  | decideConflict hc hl he =>
    have hcert := h.append hinv hc hl.2.1 hl.2.2
    rw [he] at hcert
    exact .running_of (fun r => Control.noConfusion) hcert

theorem Proving.resolved {lowLBD : Bool} {c : ClauseRef} (hc : m.control = .conflict c)
    {r : ResolveResult × CDCLSatSolver} (he : m.solver.resolveConflict lowLBD c = some r) :
    Certified m.premises (unitClauses m.assumedFacts) r.2 := by
  have hcert := h.certified (hc ▸ fun r => Control.noConfusion)
  obtain ⟨hdata, hat, -⟩ := hinv
  rw [hc] at hat
  cases hat with
  | conflict hr hassumed hclash h₂ => exact hcert.resolveConflict hassumed hdata hclash h₂ he

theorem Proving.resolve {lowLBD : Bool} (hs : m.step (.resolve lowLBD) = some m') : Proving m' := by
  cases transition_of_step hs with
  | resolve hc he => exact .running_of (fun r => Control.noConfusion) (h.resolved hinv hc he)
  | @resolveRestart _ _ s hc he =>
    exact .running_of (fun r => Control.noConfusion) ((h.resolved hinv hc he).congr (.undoAll s) rfl)
  | resolveConflict hc he => exact .running_of (fun r => Control.noConfusion) (h.resolved hinv hc he)

omit hinv in
theorem Proving.continue {shouldRestart stopRequested : Bool}
    (hs : m.step (.continue shouldRestart stopRequested) = some m') : Proving m' := by
  cases transition_of_step hs with
  | restart hc =>
    have hcert := h.certified (hc ▸ fun r => Control.noConfusion)
    exact .running_of (fun r => Control.noConfusion) (hcert.congr (.undoAll m.solver) rfl)
  | stopped hc hn => exact .done rfl fun hf => by cases hf
  | «continue» hc hn =>
    exact .running (fun r => Control.noConfusion) (h.certified (hc ▸ fun r => Control.noConfusion))

theorem Proving.step (he : e.IsSearch) (hk : e = .trySimplify → m.KeepsFacts) (hs : m.step e = some m') :
    Proving m' := by
  cases e with
  | trySimplify => exact h.trySimplify hinv (hk rfl) hs
  | tryReduceClauseDB sorted lowLBD => exact h.tryReduceClauseDB hinv hs
  | propagateHardFacts => exact h.propagateHardFacts hinv hs
  | propagateAssumedFacts => exact h.propagateAssumedFacts hinv hs
  | decide l => exact h.decide hinv hs
  | resolve lowLBD => exact h.resolve hinv hs
  | «continue» shouldRestart stopRequested => exact h.continue hs
  | stop => exact .of_stopped hs
  | finish => exact .of_finished hs
  | _ => exact he.elim

end

/-! ## Runs -/

structure Prepared (m : Machine) : Prop where
  setUp : SetUp m.added m.solver
  ready : ∃ r, m.control = .ready r

theorem Prepared.new : Prepared new where
  setUp := ⟨Inv.new.data, le_rfl, fun _ hl => (List.not_mem_nil hl).elim⟩
  ready := ⟨none, rfl⟩

theorem Prepared.step (h : Prepared m) (he : e.IsSetup) (hreg : e.Regular) (hs : m.step e = some m') :
    Prepared m' ∧
      (m.solver.certificate = some [] ∨ e = .setDRATCertificate → m'.solver.certificate = some []) := by
  have hsetUp := h.setUp
  cases transition_of_step hs with
  | addClause _ =>
    refine ⟨⟨hsetUp.addClause hreg, none, rfl⟩, fun hc => ?_⟩
    cases hc with
    | inl hc => exact (addClause_certificate m.solver _).trans hc
    | inr he => cases he
  | addProblem _ =>
    refine ⟨⟨hsetUp.addProblem hreg, none, rfl⟩, fun hc => ?_⟩
    cases hc with
    | inl hc => exact (addProblem_certificate _ m.solver).trans hc
    | inr he => cases he
  | setDRATCertificate _ =>
    exact ⟨⟨hsetUp.congr (.of_mem rfl rfl rfl rfl rfl rfl rfl), none, rfl⟩, fun _ => rfl⟩
  | _ => exact he.elim

theorem Prepared.run {setup : List Event} (hset : ∀ e ∈ setup, e.IsSetup) (hreg : ∀ e ∈ setup, e.Regular) :
    ∀ {m : Machine}, Prepared m → m.run setup = some m' →
    Prepared m' ∧
      (m.solver.certificate = some [] ∨ .setDRATCertificate ∈ setup → m'.solver.certificate = some []) := by
  induction setup with
  | nil =>
    intro m h hrun
    cases hrun
    exact ⟨h, fun hc => hc.resolve_right List.not_mem_nil⟩
  | cons e setup ih =>
    intro m h hrun
    obtain ⟨he, hset⟩ := List.forall_mem_cons.mp hset
    obtain ⟨hr, hreg⟩ := List.forall_mem_cons.mp hreg
    obtain ⟨u, hu, hrun⟩ := Option.bind_eq_some_iff.mp hrun
    obtain ⟨h, hcert⟩ := h.step he hr hu
    obtain ⟨h', hcert'⟩ := ih hset hreg h hrun
    refine ⟨h', fun hc => hcert' ?_⟩
    cases hc with
    | inl hc => exact .inl (hcert (.inl hc))
    | inr hc =>
      cases List.mem_cons.mp hc with
      | inl hc => exact .inl (hcert (.inr hc.symm))
      | inr hc => exact .inr hc

theorem Prepared.solve {A : List CNFLit} (h : Prepared m) (hc : m.solver.certificate = some [])
    (hs : m.step (.solve A) = some m') : Proving m' := by
  have hsetUp := h.setUp
  cases transition_of_step hs with
  | solveDetected _ hd =>
    refine .done rfl fun _ => ⟨[.addATClause []], ?_, ?_⟩
    · show m.solver.finalizeProofOnUnsat.finalizedProof = _
      unfold finalizeProofOnUnsat
      rw [hc]
      rfl
    · obtain ⟨clause, hclause, hempty⟩ := hsetUp.data.detected hd
      have hmem : ∅ ∈ (↑(m.added.map List.toFinset) + unitClauses A : Multiset (Finset CNFLit)) :=
        Multiset.mem_add.mpr (.inl (Multiset.mem_coe.mpr (List.mem_map.mpr ⟨clause, hclause, hempty.symm⟩)))
      have hvalid : ValidProof ((↑(m.added.map List.toFinset) : Multiset (Finset CNFLit)) + unitClauses A) [] :=
        trivial
      exact refutes_of_conflict hvalid (.inl ⟨∅, hmem, fun x hx => absurd hx (Finset.notMem_empty x)⟩)
  | solve _ hd => exact .running (fun r => Control.noConfusion) (hsetUp.prepareSolve hc A)

theorem Proving.run {search : List Event} (hsearch : ∀ e ∈ search, e.IsSearch) (hreg : ∀ e ∈ search, e.Regular) :
    ∀ {m : Machine}, Proving m → m.Reachable → m.run search = some m' →
    (∀ es u, es ++ [.trySimplify] <+: search → m.run es = some u → u.KeepsFacts) → Proving m' := by
  induction search with
  | nil =>
    intro m h _ hrun _
    cases hrun
    exact h
  | cons e search ih =>
    intro m h hreach hrun hkeeps
    obtain ⟨he, hsearch⟩ := List.forall_mem_cons.mp hsearch
    obtain ⟨hr, hreg⟩ := List.forall_mem_cons.mp hreg
    obtain ⟨u, hu, hrun⟩ := Option.bind_eq_some_iff.mp hrun
    have hk : e = .trySimplify → m.KeepsFacts := by
      rintro rfl
      exact hkeeps [] m (List.prefix_append [_] search) rfl
    have hproving := h.step (.of_reachable hreach) he hk hu
    refine ih hsearch hreg hproving (.step hreach ⟨e, hr, hu⟩) hrun fun es w hp hw => ?_
    refine hkeeps (e :: es) w (List.cons_prefix_cons.mpr ⟨rfl, hp⟩) ?_
    exact Option.bind_eq_some_iff.mpr ⟨u, hu, hw⟩

/-- If the fact cleaner keeps the facts in all its calls, then what a fresh solver's first
call of `solve` writes refutes the clauses and the assumptions. -/
theorem proof_refutes {setup search : List Event} {A : List CNFLit} (hset : ∀ e ∈ setup, e.IsSetup)
    (hcert : .setDRATCertificate ∈ setup) (hsearch : ∀ e ∈ search, e.IsSearch)
    (hreg : ∀ e ∈ setup ++ .solve A :: search, e.Regular) (h : new.run (setup ++ .solve A :: search) = some m)
    (hv : m.control.verdict = some .FALSE)
    (hkeeps : ∀ es u, es ++ [.trySimplify] <+: setup ++ .solve A :: search → new.run es = some u → u.KeepsFacts) :
    m.Refuting := by
  have hregs : ∀ e ∈ setup, e.Regular := fun e he => hreg e (List.mem_append_left _ he)
  obtain ⟨hregsolve, hregsearch⟩ := List.forall_mem_cons.mp fun e he => hreg e (List.mem_append_right setup he)
  obtain ⟨u, hu, hrun⟩ := run_append h
  obtain ⟨w, hw, hrun⟩ := Option.bind_eq_some_iff.mp hrun
  obtain ⟨hprepared, hempty⟩ := Prepared.new.run hset hregs hu
  have hproving := hprepared.solve (hempty (.inr hcert)) hw
  have hreach : w.Reachable := .step (Reachable.run (.init rfl) hregs hu) ⟨.solve A, hregsolve, hw⟩
  have hkeeps' : ∀ es v, es ++ [.trySimplify] <+: search → w.run es = some v → v.KeepsFacts := by
    intro es v hp hv
    have hpre : setup ++ .solve A :: es ++ [.trySimplify] <+: setup ++ .solve A :: search := by
      rw [List.append_assoc]
      exact (List.prefix_append_right_inj setup).mpr (List.cons_prefix_cons.mpr ⟨rfl, hp⟩)
    refine hkeeps _ v hpre ?_
    unfold Machine.run
    rw [List.foldlM_append]
    exact Option.bind_eq_some_iff.mpr ⟨u, hu, Option.bind_eq_some_iff.mpr ⟨w, hw, hv⟩⟩
  cases hproving.run hsearch hregsearch hreach hrun hkeeps' with
  | running hn _ =>
    obtain ⟨r, hr, -⟩ := Control.exists_of_verdict hv
    exact absurd hr (hn _)
  | done hc hfalse =>
    rw [hc] at hv
    exact hfalse (Option.some.inj hv)

def certified (clauses : List (List CNFLit)) (assumedFacts : List CNFLit) : List Event :=
  [.setDRATCertificate, .addProblem clauses] ++ .solve assumedFacts ::
    [.trySimplify, .tryReduceClauseDB [] false, .propagateHardFacts, .propagateAssumedFacts]

theorem eq_of_certified {clauses : List (List CNFLit)} {assumedFacts : List CNFLit} {es : List Event}
    (h : es ++ [.trySimplify] <+: certified clauses assumedFacts) :
    es = [.setDRATCertificate, .addProblem clauses, .solve assumedFacts] := by
  obtain ⟨rest, h⟩ := h
  rw [List.append_assoc] at h
  have hsplit : [.setDRATCertificate, .addProblem clauses, .solve assumedFacts] ++ Event.trySimplify ::
      [.tryReduceClauseDB [] false, .propagateHardFacts, .propagateAssumedFacts] = es ++ .trySimplify :: rest :=
        h.symm
  exact ((List.append_cons_inj_of_notMem (by simp) (by simp)).mp hsplit).1.symm

def shortened : List Event :=
  certified [[⟨0, .positive⟩], [⟨0, .negative⟩, ⟨1, .positive⟩, ⟨2, .positive⟩]] [⟨1, .negative⟩, ⟨2, .negative⟩]

def beforeShortened : Machine := (new.run (shortened.take 3)).get (by decide +kernel)

theorem beforeShortened_keepsFacts : beforeShortened.KeepsFacts := by
  have hfacts : beforeShortened.solver.facts = [⟨0, .positive⟩] := by decide +kernel
  have hdb : beforeShortened.solver.clauseDB = [0] := by decide +kernel
  have hmem : (beforeShortened.solver.mem 0).litSet = {⟨0, .negative⟩, ⟨1, .positive⟩, ⟨2, .positive⟩} := by
    decide +kernel
  have hunit : {⟨0, .positive⟩} ∈
      beforeShortened.solver.proofClauses beforeShortened.premises - beforeShortened.solver.live := by
    decide +kernel
  have hclosed : PropagationClosed beforeShortened.solver.database {⟨0, .positive⟩} := by
    refine ⟨fun C hC l ho => ?_, fun l hl hn => ?_⟩
    · cases hC with
      | inl hC =>
        obtain ⟨x, hx, rfl⟩ := hC
        obtain rfl := List.mem_singleton.mp (hfacts ▸ hx)
        by_cases he : ⟨0, .positive⟩ = l
        · exact he ▸ ⟨Finset.mem_singleton_self _, rfl⟩
        · exact absurd (ho _ (Finset.mem_singleton_self _) he) (by decide)
      | inr hC =>
        -- two literals of the clause are not false
        obtain ⟨c, hc, rfl⟩ := hC
        obtain rfl := List.mem_singleton.mp (hdb ▸ hc)
        rw [hmem] at ho
        by_cases he : ⟨1, .positive⟩ = l
        · exact absurd (ho ⟨2, .positive⟩ (by decide) (he ▸ by decide)) (by decide)
        · exact absurd (ho ⟨1, .positive⟩ (by decide) he) (by decide)
    · cases hl
      exact absurd hn (by decide)
  intro _ _ _
  refine .of_units fun l hl => .inl ?_
  obtain rfl := hclosed.mem_of_derives (Set.empty_subset _) hl
  exact hunit

def afterShortened : Machine := (new.run shortened).get (by decide +kernel)

theorem afterShortened_refuting : afterShortened.control.verdict = some .FALSE ∧ afterShortened.Refuting := by
  have hrun : new.run shortened = some afterShortened := (Option.some_get _).symm
  have hv : afterShortened.control.verdict = some .FALSE := by decide +kernel
  refine ⟨hv, ?_⟩
  refine proof_refutes (by simp [Event.IsSetup]) (by simp) (by simp [Event.IsSearch]) (by decide) hrun hv ?_
  intro es u hp hu
  obtain rfl := eq_of_certified hp
  have hm : beforeShortened = u := Option.get_of_eq_some _ hu
  exact hm ▸ beforeShortened_keepsFacts

def lost : List Event :=
  certified [[⟨0, .positive⟩], [⟨0, .negative⟩, ⟨1, .positive⟩], [⟨1, .negative⟩, ⟨2, .positive⟩, ⟨3, .positive⟩]]
    [⟨2, .negative⟩, ⟨3, .negative⟩]

def afterLost : Machine := (new.run lost).get (by decide +kernel)

/-- The clause that makes `1` a fact is deleted before `1` shortens another. -/
theorem afterLost_not_refuting : afterLost.Reachable ∧ afterLost.control.verdict = some .FALSE ∧
    afterLost.solver.finalizedProof = some [.deleteClause [⟨0, .negative⟩, ⟨1, .positive⟩],
      .addATClause [⟨3, .positive⟩, ⟨2, .positive⟩],
      .deleteClause [⟨3, .positive⟩, ⟨2, .positive⟩, ⟨1, .negative⟩], .addATClause []] ∧
    ¬ afterLost.Refuting := by
  have hproof : afterLost.solver.finalizedProof = some [.deleteClause [⟨0, .negative⟩, ⟨1, .positive⟩],
      .addATClause [⟨3, .positive⟩, ⟨2, .positive⟩],
      .deleteClause [⟨3, .positive⟩, ⟨2, .positive⟩, ⟨1, .negative⟩], .addATClause []] := by decide +kernel
  refine ⟨Reachable.run_get (.init rfl) (by decide) _, by decide +kernel, hproof, fun h => ?_⟩
  obtain ⟨steps, hsteps, hvalid, -⟩ := h
  obtain rfl := Option.some.inj (hproof.symm.trans hsteps)
  have hrup :
    RUP {C | C ∈ afterLost.premises.erase {⟨0, .negative⟩, ⟨1, .positive⟩}} {⟨3, .positive⟩, ⟨2, .positive⟩} :=
    hvalid.2.1
  have hmodel : ∀ C ∈ afterLost.premises.erase {⟨0, .negative⟩, ⟨1, .positive⟩},
      ∃ x ∈ C, x.sign = if x.var = 0 then .positive else .negative := by decide +kernel
  obtain ⟨x, hx, hholds⟩ := hrup.entails (valuationOfSigns fun v => if v = 0 then .positive else .negative) hmodel
  have hfalse : ∀ x ∈ ({⟨3, .positive⟩, ⟨2, .positive⟩} : Finset CNFLit),
      x.sign ≠ if x.var = 0 then .positive else .negative := by decide
  exact hfalse x hx hholds

end Machine

end JamSAT
