import JamSAT.EquippedRuns
import Mathlib.Tactic.Ring

/-!
# Which lemmas are deleted

The reduction of the clause database deletes the worse half of the lemmas, by their LBDs.
LBDs never exceed the number of the literals a lemma was learnt with, so that short lemmas
are never among them.
-/

namespace JamSAT

open UnitLogic CDCLSatSolver

namespace LBDs

variable {lbds : LBDs} {mem : ClauseRef → Clause} {sorted : List ClauseRef} {lowLBD : Bool} {n : Nat}
  {c d : ClauseRef}

/-- What is deleted comes behind what stays, and its LBD is greater than 3. -/
theorem Sorted.marked (h : lbds.Sorted mem sorted) (hlow : lowLBD = lbds.lowMidLBD sorted n)
    (hc : c ∈ ClauseDBReductionPolicy.getClausesMarkedForDeletion sorted lowLBD n) :
    3 < lbds c ∧ ∀ d ∈ sorted, d ∉ ClauseDBReductionPolicy.getClausesMarkedForDeletion sorted lowLBD n →
      lbds d < lbds c ∨ lbds d = lbds c ∧ (mem d).size ≤ (mem c).size := by
  unfold ClauseDBReductionPolicy.getClausesMarkedForDeletion at hc ⊢
  dsimp only at hc ⊢
  split at hc
  · cases hc
  · rename_i hmid
    have hlt : (n + sorted.length) / 2 < sorted.length := Nat.lt_of_not_le hmid
    split at hc
    · cases hc
    · rename_i hhigh
      rw [if_neg hmid, if_neg hhigh]
      obtain ⟨hbefore, hbehind, hacross⟩ := List.pairwise_append.mp
        ((List.take_append_drop ((n + sorted.length) / 2) sorted).symm ▸ h)
      refine ⟨?_, fun d hd hnot => ?_⟩
      · have hmiddle : 3 < lbds sorted[(n + sorted.length) / 2] := by
          rw [hlow, lowMidLBD, List.getElem?_eq_getElem hlt] at hhigh
          simpa using hhigh
        rw [List.drop_eq_getElem_cons hlt] at hc hbehind
        cases List.mem_cons.mp hc with
        | inl he =>
          rw [he]
          exact hmiddle
        | inr hc =>
          have hle := lessThan_eq_false.mp ((List.pairwise_cons.mp hbehind).1 c hc)
          omega
      · rw [← List.take_append_drop ((n + sorted.length) / 2) sorted, List.mem_append] at hd
        exact lessThan_eq_false.mp (hacross d (hd.resolve_right hnot) c hc)

theorem length_marked (sorted : List ClauseRef) (lowLBD : Bool) (n : Nat) :
    (ClauseDBReductionPolicy.getClausesMarkedForDeletion sorted lowLBD n).length = 0 ∨
      2 * (ClauseDBReductionPolicy.getClausesMarkedForDeletion sorted lowLBD n).length + n ≤ sorted.length + 1 := by
  unfold ClauseDBReductionPolicy.getClausesMarkedForDeletion
  dsimp only
  split
  · exact .inl rfl
  · split
    · exact .inl rfl
    · rw [List.length_drop]
      omega

end LBDs

namespace EquippedMachine

variable {D : Type} [OfScientific D] [LT D] [DecidableLT D] [Add D] [Mul D] [Div D] [Min D] [LE D] [DecidableLE D]
  [NatCast D] {p q : EquippedMachine D} {e : Event} {c : ClauseRef} {lits : List CNFLit}

/-! ## Reductions -/

/-- A step deletes lemmas with great LBDs, and no better ones stay. -/
theorem Stepped.reduced (h : Stepped p e q) (hc : c ∈ p.machine.reduced e) :
    3 < p.lbds c ∧ ∀ d ∈ p.machine.solver.lemmas, d ∉ p.machine.reduced e →
      p.lbds d < p.lbds c ∨ p.lbds d = p.lbds c ∧ (p.machine.solver.mem d).size ≤ (p.machine.solver.mem c).size := by
  cases e with
  | tryReduceClauseDB sorted lowLBD =>
    obtain ⟨hshould, hmarked⟩ := hc
    obtain ⟨hsorted, hlow⟩ := (Bool.and_eq_true _ _).mp h.chooses
    have hp : sorted.Perm p.machine.solver.lemmas := Machine.perm_of_reduce h.machine
    obtain ⟨hgreat, hbetter⟩ := (of_decide_eq_true hsorted).marked (beq_iff_eq.mp hlow) hmarked
    exact ⟨hgreat, fun d hd hnot => hbetter d (hp.mem_iff.mpr hd) fun hin => hnot ⟨hshould, hin⟩⟩
  | _ => exact hc.elim

theorem Stepped.mem_reduced (h : Stepped p e q) (hinv : p.machine.Inv) (hc : c ∈ p.machine.solver.clauseDB)
    (hn : c ∉ q.machine.solver.clauseDB) (ha : (p.machine.solver.mem c).scheduledForDeletion = false) :
    c ∈ p.machine.reduced e := by
  cases (hinv.evolves h.machine).kept c hc with
  | inl hin => exact absurd hin hn
  | inr hgone => exact hgone.resolve_right fun hd => Bool.false_ne_true (ha.symm.trans hd)

/-- A reduction deletes no more than half of the lemmas, the worse half, and only when enough conflicts have
passed. -/
theorem reduction_spares (h : p.Reachable) {sorted : List ClauseRef} {lowLBD : Bool}
    (hs : p.step (.tryReduceClauseDB sorted lowLBD) = some q) :
    (∀ c ∈ p.machine.solver.clauseDB, c ∉ q.machine.solver.clauseDB →
      (p.machine.solver.mem c).scheduledForDeletion = false →
      c ∈ p.machine.solver.lemmas ∧ p.machine.solver.clauseDBReductionPolicy.conflictsRemaining = 0 ∧ 3 < p.lbds c ∧
        ∀ d ∈ p.machine.solver.lemmas, d ∈ q.machine.solver.clauseDB →
          p.lbds d < p.lbds c ∨
            p.lbds d = p.lbds c ∧ (p.machine.solver.mem d).size ≤ (p.machine.solver.mem c).size) ∧
    ∀ deleted : Finset ClauseRef, (∀ c ∈ deleted, c ∈ p.machine.solver.clauseDB ∧ c ∉ q.machine.solver.clauseDB ∧
      (p.machine.solver.mem c).scheduledForDeletion = false) →
      deleted = ∅ ∨ 2 * deleted.card + p.machine.solver.amntBinariesLearnt ≤ p.machine.solver.lemmas.length + 1 := by
  have hinv := Machine.Inv.of_reachable (Inv.of_reachable h).reachable
  have hstepped := step_eq_some.mp hs
  have hp : sorted.Perm p.machine.solver.lemmas := Machine.perm_of_reduce hstepped.machine
  refine ⟨fun c hc hn ha => ?_, fun deleted hdeleted => ?_⟩
  · have hin := hstepped.mem_reduced hinv hc hn ha
    obtain ⟨hgreat, hbetter⟩ := hstepped.reduced hin
    refine ⟨(hinv.redundant_of_reduced hstepped.machine hin).1, ?_, hgreat, fun d hd hstays => ?_⟩
    · have hshould := ((Bool.and_eq_true _ _).mp hin.1).1
      exact beq_iff_eq.mp hshould
    · exact hbetter d hd (Machine.not_mem_reduced hstepped.machine hstays)
  · have hsub : deleted ⊆ (ClauseDBReductionPolicy.getClausesMarkedForDeletion sorted lowLBD
        p.machine.solver.amntBinariesLearnt).toFinset := by
      intro c hc
      obtain ⟨hin, hn, ha⟩ := hdeleted c hc
      exact List.mem_toFinset.mpr (hstepped.mem_reduced hinv hin hn ha).2
    have hcard := (Finset.card_le_card hsub).trans (List.toFinset_card_le _)
    cases LBDs.length_marked sorted lowLBD p.machine.solver.amntBinariesLearnt with
    | inl hzero => exact .inl (Finset.card_eq_zero.mp (Nat.le_zero.mp (hcard.trans_eq hzero)))
    | inr hhalf =>
      rw [hp.length_eq] at hhalf
      omega

/-! ## Lemmas -/

structure Aging (lits : List CNFLit) (c : ClauseRef) (p : EquippedMachine D) : Prop where
  inv : Inv p
  booked : Machine.Booked p.machine
  created : c < p.machine.solver.nextClause
  lbd : c ∈ p.machine.solver.clauseDB → 0 < p.lbds c ∧ p.lbds c ≤ LBDs.maxLBD ∧ p.lbds c ≤ lits.length ∧
    (p.machine.solver.mem c).lits.Subperm lits
  short : lits.length ≤ 3 → Satisfied lits p.machine.solver ∨ Remains lits c p.machine.solver

theorem Aging.step (h : Aging lits c p) (hreg : e.Regular) (hs : p.step e = some q) : Aging lits c q := by
  have hstepped := step_eq_some.mp hs
  have hm := hstepped.machine
  have hinv := h.booked.inv
  have hfacts := h.booked.step_facts hm
  have hevolves := hinv.evolves hm
  have hsmall : lits.length ≤ 3 → c ∈ p.machine.solver.clauseDB → c ∉ p.machine.reduced e := by
    intro hlen hin hgone
    have hle := (h.lbd hin).2.2.1
    have hgreat := (hstepped.reduced hgone).1
    omega
  refine ⟨h.inv.step hreg hs, h.booked.step hreg hm, h.created.trans_le hevolves.nextClause_le, fun hin => ?_,
    fun hlen => ?_⟩
  · obtain ⟨hold, hsub, -, -⟩ := hevolves.shrinks c hin h.created
    obtain ⟨hpos, hmax, hle, hsub'⟩ := h.lbd hold
    obtain ⟨lbds', hl, hup⟩ := hinv.lbds_step p.lbds hm
    obtain rfl := Option.some.inj (hl.symm.trans hstepped.lbds)
    have hsubperm := hsub.trans hsub'
    cases hup c with
    | inl he =>
      rw [he]
      exact ⟨hpos, hmax, hle, hsubperm⟩
    | inr hnew => exact ⟨hnew.1, hnew.2.1, hnew.2.2.trans hsubperm.length_le, hsubperm⟩
  · cases h.short hlen with
    | inl hsat => exact .inl (hsat.mono hfacts)
    | inr hleft => exact (hleft.evolve hinv.data hevolves hfacts (hsmall hlen hleft.mem)).imp_right And.left

theorem Aging.run {es : List Event} : ∀ {p : EquippedMachine D}, Aging lits c p → (∀ e ∈ es, e.Regular) →
    es.foldlM EquippedMachine.step p = some q → Aging lits c q := by
  induction es with
  | nil =>
    intro p h hreg hrun
    obtain rfl := Option.some.inj hrun
    exact h
  | cons e es ih =>
    intro p h hreg hrun
    obtain ⟨he, hes⟩ := List.forall_mem_cons.mp hreg
    obtain ⟨p', hs, hrun⟩ := Option.bind_eq_some_iff.mp hrun
    exact ih (h.step he hs) hes hrun

theorem Aging.learnt (h : p.Reachable) {lowLBD : Bool} (hs : p.step (.resolve lowLBD) = some q)
    (hnew : p.machine.solver.nextClause ∈ q.machine.solver.clauseDB) :
    Aging (q.machine.solver.mem p.machine.solver.nextClause).lits p.machine.solver.nextClause q := by
  have hp := Inv.of_reachable h
  have hbooked := Machine.Booked.of_reachable hp.reachable
  have hreg : (Event.resolve lowLBD).Regular := trivial
  have hstepped := step_eq_some.mp hs
  have hm := hstepped.machine
  have hq := hbooked.step hreg hm
  obtain ⟨hpos, hmax, hle⟩ := hbooked.inv.lbds_learnt p.lbds hm hnew hstepped.lbds
  refine ⟨hp.step hreg hs, hq, hq.inv.data.fresh _ hnew, fun _ => ?_, fun _ => ?_⟩
  · exact ⟨hpos, hmax, hle, .refl _⟩
  · exact .inr (.of_mem_iff hnew fun _ => Iff.rfl)

/-- From the conflict on in which it is learnt, whatever happens: a lemma that is not deleted has an
LBD between 1 and the number of the literals it was learnt with; one of at most three literals is
deleted only when a fact satisfies it. -/
theorem lemma_kept (h : p.Reachable) {lowLBD : Bool} (hs : p.step (.resolve lowLBD) = some q)
    (hnew : p.machine.solver.nextClause ∈ q.machine.solver.clauseDB)
    (hlits : (q.machine.solver.mem p.machine.solver.nextClause).lits = lits) {es : List Event}
    (hreg : ∀ e ∈ es, e.Regular) {r : EquippedMachine D} (hrun : es.foldlM step q = some r) :
    (p.machine.solver.nextClause ∈ r.machine.solver.clauseDB → 0 < r.lbds p.machine.solver.nextClause ∧
      r.lbds p.machine.solver.nextClause ≤ LBDs.maxLBD ∧ r.lbds p.machine.solver.nextClause ≤ lits.length ∧
      (r.machine.solver.mem p.machine.solver.nextClause).lits.Subperm lits) ∧
    (lits.length ≤ 3 → Satisfied lits r.machine.solver ∨
      Remains lits p.machine.solver.nextClause r.machine.solver) := by
  have hlearnt := Aging.learnt h hs hnew
  rw [hlits] at hlearnt
  have haging := hlearnt.run hreg hrun
  exact ⟨haging.lbd, haging.short⟩

/-! ## Two runs -/

def runOf (es : List Event) : Option (EquippedMachine Rat) := new.bind fun p => es.foldlM step p

theorem runOf_reachable {es : List Event} (hreg : ∀ e ∈ es, e.Regular) {p : EquippedMachine Rat}
    (h : runOf es = some p) : p.Reachable := by
  obtain ⟨p₀, hp₀, hrun⟩ := Option.bind_eq_some_iff.mp h
  exact Runs.Reachable.foldlM (.init hp₀) (fun e he _ _ hs => ⟨e, hreg e he, hs⟩) hrun

def thirdDecision : List Event :=
  [.addProblem [[⟨0, .positive⟩, ⟨1, .positive⟩, ⟨3, .positive⟩, ⟨2, .positive⟩],
      [⟨0, .positive⟩, ⟨1, .positive⟩, ⟨3, .positive⟩, ⟨2, .negative⟩]], .solve [], .trySimplify,
    .tryReduceClauseDB [] false, .propagateHardFacts, .propagateAssumedFacts, .decide ⟨3, .negative⟩,
    .continue false false, .decide ⟨0, .negative⟩, .continue false false, .decide ⟨1, .negative⟩]

def afterwards : List Event := [.continue false false, .decide ⟨2, .positive⟩, .continue false false, .finish, .solve [],
  .trySimplify, .tryReduceClauseDB [2] true]

theorem thirdDecision_kept : ∃ p q r : EquippedMachine Rat, runOf thirdDecision = some p ∧
    p.step (.resolve true) = some q ∧ afterwards.foldlM step q = some r ∧
    (p.machine.solver.nextClause ∈ r.machine.solver.clauseDB → 0 < r.lbds p.machine.solver.nextClause ∧
      r.lbds p.machine.solver.nextClause ≤ LBDs.maxLBD ∧
      r.lbds p.machine.solver.nextClause ≤ (q.machine.solver.mem p.machine.solver.nextClause).lits.length ∧
      (r.machine.solver.mem p.machine.solver.nextClause).lits.Subperm
        (q.machine.solver.mem p.machine.solver.nextClause).lits) ∧
    (Satisfied (q.machine.solver.mem p.machine.solver.nextClause).lits r.machine.solver ∨
      Remains (q.machine.solver.mem p.machine.solver.nextClause).lits p.machine.solver.nextClause
        r.machine.solver) := by
  have hrun : ((runOf thirdDecision).bind fun p => (p.step (.resolve true)).bind fun q =>
      (afterwards.foldlM step q).map fun _ =>
        decide (p.machine.solver.nextClause ∈ q.machine.solver.clauseDB ∧
          (q.machine.solver.mem p.machine.solver.nextClause).lits.length ≤ 3)) = some true := by decide +kernel
  obtain ⟨p, hp, hrun⟩ := Option.bind_eq_some_iff.mp hrun
  obtain ⟨q, hq, hrun⟩ := Option.bind_eq_some_iff.mp hrun
  obtain ⟨r, hr, hfacts⟩ := Option.map_eq_some_iff.mp hrun
  obtain ⟨hnew, hlen⟩ := of_decide_eq_true hfacts
  have hregular : ∀ e ∈ afterwards, e.Regular := by decide
  have hreachable := runOf_reachable (by decide) hp
  obtain ⟨hlbd, hshort⟩ := lemma_kept hreachable hq hnew rfl hregular hr
  exact ⟨p, q, r, hp, hq, hr, hlbd, hshort hlen⟩

def fourthDecision : List Event :=
  [.addProblem [[⟨0, .positive⟩, ⟨1, .positive⟩, ⟨2, .positive⟩, ⟨3, .positive⟩, ⟨4, .positive⟩],
      [⟨0, .positive⟩, ⟨1, .positive⟩, ⟨2, .positive⟩, ⟨4, .positive⟩, ⟨3, .negative⟩]], .solve [], .trySimplify,
    .tryReduceClauseDB [] false, .propagateHardFacts, .propagateAssumedFacts, .decide ⟨4, .negative⟩,
    .continue false false, .decide ⟨2, .negative⟩, .continue false false, .decide ⟨0, .negative⟩,
    .continue false false, .decide ⟨1, .negative⟩, .resolve true, .continue false false, .decide ⟨3, .positive⟩,
    .continue false false, .finish, .solve [], .trySimplify]

theorem fourthDecision_spares : ∃ p q : EquippedMachine Rat, runOf fourthDecision = some p ∧
    p.step (.tryReduceClauseDB [2] false) = some q ∧ 2 ∈ p.machine.solver.lemmas ∧
    p.machine.solver.clauseDBReductionPolicy.conflictsRemaining = 0 ∧ 3 < p.lbds 2 ∧
    2 + p.machine.solver.amntBinariesLearnt ≤ p.machine.solver.lemmas.length + 1 := by
  have hrun : ((runOf fourthDecision).bind fun p => (p.step (.tryReduceClauseDB [2] false)).map fun q =>
      decide (2 ∈ p.machine.solver.clauseDB ∧ 2 ∉ q.machine.solver.clauseDB ∧
        (p.machine.solver.mem 2).scheduledForDeletion = false)) = some true := by decide +kernel
  obtain ⟨p, hp, hrun⟩ := Option.bind_eq_some_iff.mp hrun
  obtain ⟨q, hq, hgone⟩ := Option.map_eq_some_iff.mp hrun
  obtain ⟨hin, hn, ha⟩ := of_decide_eq_true hgone
  obtain ⟨hspares, hcount⟩ := reduction_spares (runOf_reachable (by decide) hp) hq
  obtain ⟨hlemma, hremaining, hgreat, -⟩ := hspares 2 hin hn ha
  have hdeleted := hcount {2} fun c hc => by
    rw [Finset.mem_singleton.mp hc]
    exact ⟨hin, hn, ha⟩
  exact ⟨p, q, hp, hq, hlemma, hremaining, hgreat, hdeleted.resolve_left (Finset.singleton_ne_empty 2)⟩

end EquippedMachine

/-! ## The schedule of the reductions -/

namespace CDCLSatSolver

variable {s t : CDCLSatSolver}

def schedule (s : CDCLSatSolver) : ClauseDBReductionPolicy × Nat := (s.clauseDBReductionPolicy, s.conflictCount)

theorem schedule_addClause (s : CDCLSatSolver) (clause : List CNFLit) :
    (s.addClause clause).schedule = s.schedule := by
  unfold addClause
  split
  · rfl
  · cases compressClause clause with
    | none => rfl
    | some compressed =>
      dsimp only
      split
      · rfl
      · rfl

theorem schedule_addProblem (clauses : List (List CNFLit)) :
    ∀ s : CDCLSatSolver, (s.addProblem clauses).schedule = s.schedule := by
  induction clauses with
  | nil => exact fun s => rfl
  | cons clause clauses ih => exact fun s => (ih _).trans (schedule_addClause s clause)

theorem schedule_finalizeProofOnUnsat (s : CDCLSatSolver) : s.finalizeProofOnUnsat.schedule = s.schedule := by
  unfold finalizeProofOnUnsat
  split
  · rfl
  · rfl

theorem schedule_concludeSolve (s : CDCLSatSolver) (result : TBool) (failedAssumptions : List CNFLit) :
    (s.concludeSolve result failedAssumptions).2.schedule = s.schedule := by
  unfold concludeSolve
  dsimp only
  split
  · exact schedule_finalizeProofOnUnsat s
  · rfl

theorem schedule_trySimplify (s : CDCLSatSolver) : s.trySimplify.2.schedule = s.schedule := by
  unfold trySimplify
  split
  · rfl
  · rfl

theorem schedule_propagateHardFacts (s : CDCLSatSolver) : s.propagateHardFacts.2.schedule = s.schedule := by
  unfold propagateHardFacts propagateFactsOnSystemLevels
  generalize s.assignment.appendFacts s.facts = r
  obtain ⟨_ | fact, t⟩ := r
  · dsimp only
    split
    · rfl
    · rfl
  · rfl

theorem schedule_propagateFacts {assumedFacts : List CNFLit} {r : Option CNFLit × CDCLSatSolver}
    (h : s.propagateFactsOnSystemLevels assumedFacts = r) : r.2.schedule = s.schedule := by
  rw [← h]
  rfl

theorem schedule_append {l : CNFLit} {r : Option ClauseRef × CDCLSatSolver} (h : s.newLevel.append l = r) :
    r.2.schedule = s.schedule := by
  rw [← h]
  rfl

theorem schedule_tryReduceClauseDB (s : CDCLSatSolver) (sorted : List ClauseRef) (lowLBD : Bool) :
    (s.tryReduceClauseDB sorted lowLBD).schedule =
      if s.clauseDBReductionPolicy.shouldReduceDB s.lemmas then
        (s.clauseDBReductionPolicy.nextInterval, s.conflictCount)
      else s.schedule := by
  unfold tryReduceClauseDB
  cases s.clauseDBReductionPolicy.shouldReduceDB s.lemmas with
  | false => rfl
  | true =>
    obtain ⟨mem, he, -, -⟩ := foldl_scheduleForDeletion
      (ClauseDBReductionPolicy.getClausesMarkedForDeletion sorted lowLBD s.amntBinariesLearnt)
      { s with clauseDBReductionPolicy := s.clauseDBReductionPolicy.nextInterval }
    rw [Bool.not_true, if_neg Bool.false_ne_true, if_pos rfl]
    dsimp only
    rw [he]
    rfl

theorem schedule_learn (s : CDCLSatSolver) (result : LemmaDerivationResult) :
    (s.learn result).2.schedule = s.schedule := by
  cases result with
  | fact l => rfl
  | clause c k =>
    have hregister : ∀ t : CDCLSatSolver, ((t.backtrackToLevel k).registerLemma c).2.schedule = t.schedule :=
      fun _ => rfl
    rw [learn, afterLemma_snd, hregister]
    unfold recordLemma
    dsimp only
    split
    · rfl
    · rfl

theorem schedule_resolveConflict {lowLBD : Bool} {c : ClauseRef} {r : ResolveResult × CDCLSatSolver}
    (h : s.resolveConflict lowLBD c = some r) :
    r.2.schedule = (s.clauseDBReductionPolicy.registerConflict, s.conflictCount + 1) := by
  obtain ⟨d, hd, rfl⟩ := Option.map_eq_some_iff.mp h
  obtain ⟨lits, -, rfl⟩ := Option.map_eq_some_iff.mp hd
  rw [schedule_learn]
  split
  · rfl
  · dsimp only
    unfold addLemma
    dsimp only
    split
    · rfl
    · rfl

end CDCLSatSolver

namespace Machine

open ClauseDBReductionPolicy

variable {m m' : Machine} {e : Event} {k : Nat}

def reduces (m : Machine) : Event → Bool
  | .tryReduceClauseDB _ _ => m.solver.clauseDBReductionPolicy.shouldReduceDB m.solver.lemmas
  | _ => false

def reductions (m : Machine) : List Event → Nat
  | [] => 0
  | e :: es =>
    match m.step e with
    | none => 0
    | some m' => (if m.reduces e then 1 else 0) + m'.reductions es

inductive Scheduled (m : Machine) (e : Event) (m' : Machine) : Prop
  | same (hr : m.reduces e = false) (h : m'.solver.schedule = m.solver.schedule)
  | conflict (hr : m.reduces e = false) (h : m'.solver.schedule =
    (m.solver.clauseDBReductionPolicy.registerConflict, m.solver.conflictCount + 1))
  | reduction (hr : m.reduces e = true) (hz : m.solver.clauseDBReductionPolicy.conflictsRemaining = 0)
    (h : m'.solver.schedule = (m.solver.clauseDBReductionPolicy.nextInterval, m.solver.conflictCount))

theorem scheduled (hs : m.step e = some m') : Scheduled m e m' := by
  cases transition_of_step hs with
  | addClause hc => exact .same rfl (schedule_addClause _ _)
  | addProblem hc => exact .same rfl (schedule_addProblem _ _)
  | solveDetected hc hd => exact .same rfl (schedule_finalizeProofOnUnsat _)
  | stop hc => exact .same rfl (schedule_concludeSolve _ _ [])
  | simplifyRefuted hc he =>
    have hsame := m.solver.schedule_trySimplify
    rw [he] at hsame
    exact .same rfl ((schedule_concludeSolve _ _ []).trans hsame)
  | simplify hc he =>
    have hsame := m.solver.schedule_trySimplify
    rw [he] at hsame
    exact .same rfl hsame
  | @reduce sorted lowLBD hc hp =>
    have hreduce := m.solver.schedule_tryReduceClauseDB sorted lowLBD
    cases hshould : m.solver.clauseDBReductionPolicy.shouldReduceDB m.solver.lemmas with
    | false =>
      rw [hshould, if_neg Bool.false_ne_true] at hreduce
      exact .same hshould hreduce
    | true =>
      rw [hshould, if_pos rfl] at hreduce
      exact .reduction hshould (beq_iff_eq.mp ((Bool.and_eq_true _ _).mp hshould).1) hreduce
  | factsRefuted hc he =>
    have hsame := m.solver.schedule_propagateHardFacts
    rw [he] at hsame
    exact .same rfl ((schedule_concludeSolve _ _ []).trans hsame)
  | facts hc he =>
    have hsame := m.solver.schedule_propagateHardFacts
    rw [he] at hsame
    exact .same rfl hsame
  | @assumptionsRefuted _ _ failedAssumptions hc he ha =>
    exact .same rfl ((schedule_concludeSolve _ _ failedAssumptions).trans (schedule_propagateFacts he))
  | assumptions hc he => exact .same rfl (schedule_propagateFacts he)
  | decide hc hl he => exact .same rfl (schedule_append he)
  | decideConflict hc hl he => exact .same rfl (schedule_append he)
  | resolve hc he => exact .conflict rfl (schedule_resolveConflict he)
  | resolveRestart hc he => exact .conflict rfl (schedule_resolveConflict he)
  | resolveConflict hc he => exact .conflict rfl (schedule_resolveConflict he)
  | stopped hc hn => exact .same rfl (schedule_concludeSolve _ _ [])
  | finish hc hcomplete => exact .same rfl (schedule_concludeSolve _ _ [])
  | _ => exact .same rfl rfl

/-- After `k` reductions: the length of the intervals, and what they have cost. -/
structure Paced (k : Nat) (s : CDCLSatSolver) : Prop where
  intervalSize : s.clauseDBReductionPolicy.intervalSize = k * intervalIncrease
  remaining_le : s.clauseDBReductionPolicy.conflictsRemaining ≤ k * intervalIncrease
  conflicts : k * (k + 1) * intervalIncrease ≤ 2 * (s.conflictCount + s.clauseDBReductionPolicy.conflictsRemaining)

theorem Paced.congr {s t : CDCLSatSolver} (h : Paced k s) (he : t.schedule = s.schedule) : Paced k t := by
  obtain ⟨hpolicy, hcount⟩ := Prod.mk.inj he
  obtain ⟨hsize, hle, hconflicts⟩ := h
  rw [← hpolicy] at hsize hle hconflicts
  rw [← hcount] at hconflicts
  exact ⟨hsize, hle, hconflicts⟩

theorem Paced.step (h : Paced k m.solver) (hs : m.step e = some m') :
    Paced (k + if m.reduces e then 1 else 0) m'.solver := by
  cases scheduled hs with
  | same hr he =>
    rw [hr]
    exact h.congr he
  | conflict hr he =>
    rw [hr, if_neg Bool.false_ne_true, Nat.add_zero]
    obtain ⟨hpolicy, hcount⟩ := Prod.mk.inj he
    obtain ⟨hsize, hle, hconflicts⟩ := h
    unfold ClauseDBReductionPolicy.registerConflict at hpolicy
    split at hpolicy
    · refine ⟨by rw [hpolicy]; exact hsize, ?_, ?_⟩
      · rw [hpolicy]
        exact (Nat.sub_le _ _).trans hle
      · rw [hpolicy, hcount]
        dsimp only
        omega
    · refine ⟨by rw [hpolicy]; exact hsize, by rw [hpolicy]; exact hle, ?_⟩
      rw [hpolicy, hcount]
      omega
  | reduction hr hz he =>
    rw [hr, if_pos rfl]
    obtain ⟨hpolicy, hcount⟩ := Prod.mk.inj he
    obtain ⟨hsize, hle, hconflicts⟩ := h
    have hnext : m'.solver.clauseDBReductionPolicy = ⟨(k + 1) * intervalIncrease, (k + 1) * intervalIncrease⟩ := by
      rw [hpolicy, Nat.succ_mul, ← hsize]
      rfl
    have hcost : (k + 1) * (k + 1 + 1) * intervalIncrease =
        k * (k + 1) * intervalIncrease + 2 * ((k + 1) * intervalIncrease) := by ring
    rw [hz] at hconflicts
    refine ⟨by rw [hnext], by rw [hnext], ?_⟩
    rw [hnext, hcount, hcost]
    dsimp only
    omega

theorem Paced.run {es : List Event} : ∀ {k : Nat} {m : Machine}, Paced k m.solver → m.run es = some m' →
    Paced (k + m.reductions es) m'.solver := by
  induction es with
  | nil =>
    intro k m h hrun
    obtain rfl := Option.some.inj hrun
    exact h
  | cons e es ih =>
    intro k m h hrun
    obtain ⟨m₁, hs, hrun⟩ := Option.bind_eq_some_iff.mp hrun
    have hpaced := ih (h.step hs) hrun
    unfold reductions
    rw [hs]
    rwa [← Nat.add_assoc]

/-- The intervals between the reductions grow: `k` reductions take at least `650 * k * (k - 1)` conflicts. -/
theorem reductions_spaced {es : List Event} (h : new.run es = some m) :
    new.reductions es * (new.reductions es - 1) * intervalIncrease ≤ 2 * m.solver.conflictCount := by
  have hstart : Paced 0 new.solver := ⟨rfl, Nat.le_refl _, Nat.le_refl _⟩
  obtain ⟨-, hle, hconflicts⟩ := hstart.run h
  rw [Nat.zero_add] at hle hconflicts
  generalize new.reductions es = n at hle hconflicts ⊢
  cases n with
  | zero => exact Nat.zero_le _
  | succ k =>
    have hcost : (k + 1) * (k + 1 + 1) * intervalIncrease =
        (k + 1) * k * intervalIncrease + 2 * ((k + 1) * intervalIncrease) := by ring
    rw [hcost] at hconflicts
    rw [Nat.add_sub_cancel]
    omega

def reducing : List Event := EquippedMachine.fourthDecision ++ [.tryReduceClauseDB [2] false]

theorem reducing_spaced : ∃ m, new.run reducing = some m ∧ new.reductions reducing = 1 ∧ m.solver.conflictCount = 1 ∧
    new.reductions reducing * (new.reductions reducing - 1) * intervalIncrease ≤ 2 * m.solver.conflictCount := by
  have hrun : (new.run reducing).map (fun m => m.solver.conflictCount) = some 1 := by decide +kernel
  obtain ⟨m, hm, hcount⟩ := Option.map_eq_some_iff.mp hrun
  exact ⟨m, hm, by decide +kernel, hcount, reductions_spaced hm⟩

end Machine

end JamSAT
