import JamSAT.AbstractCDCL
import JamSAT.SolverCalls

/-!
# The solver refines conflict-driven clause learning

Between two steps of a `solve` call the trail and the clauses of the solver, with its
facts and the assumptions as unit clauses, are a state of the abstract system. Each
step of the call is a short path there.
-/

namespace JamSAT

open UnitLogic AbstractCDCL

namespace Assignment

variable {R K Z : Set ClauseRef} {dead : Set CNFLit} {clauses : Set (Finset CNFLit)} {s t : Assignment}
  {pre rest lits facts : List CNFLit} {fact : CNFLit}

/-- The levels of the facts and of the assumptions are opened without a decision. -/
def isDecision (s : Assignment) (l : CNFLit) : Bool := s.getReason l.var == none && decide (2 ≤ s.getLevel l.var)

def marked (s : Assignment) (lits : List CNFLit) : List (CNFLit × Bool) := lits.map fun l => (l, s.isDecision l)

theorem literals_marked (s : Assignment) (lits : List CNFLit) : literals (s.marked lits) = lits := by
  unfold literals marked
  rw [List.map_map]
  exact List.map_id lits

theorem marked_append (s : Assignment) (lits lits' : List CNFLit) :
    s.marked (lits ++ lits') = s.marked lits ++ s.marked lits' := List.map_append

theorem marked_congr (h : ∀ l ∈ lits, t.reasonsAndALs l.var = s.reasonsAndALs l.var) :
    t.marked lits = s.marked lits :=
  List.map_congr_left fun l hl => by rw [isDecision, isDecision, getReason, getLevel, h l hl]; rfl

theorem marked_of_forced (h : ∀ l ∈ lits, s.isDecision l = false) : s.marked lits = lits.map (·, false) :=
  List.map_congr_left fun l hl => by rw [h l hl]

theorem isDecision_of_level {l : CNFLit} (h : s.getLevel l.var ≤ 1) : s.isDecision l = false := by
  unfold isDecision
  rw [decide_eq_false (Nat.not_le.mpr (Nat.lt_succ_of_le h)), Bool.and_false]

theorem isDecision_of_reason {l : CNFLit} (h : s.getReason l.var ≠ none) : s.isDecision l = false := by
  unfold isDecision
  rw [beq_eq_false_iff_ne.mpr h, Bool.false_and]

theorem isDecision_eq {l : CNFLit} (hr : s.getReason l.var = none) (h₂ : 2 ≤ s.getLevel l.var) :
    s.isDecision l = true := by
  unfold isDecision
  rw [hr, decide_eq_true h₂]
  rfl

theorem no_decision (h : ∀ l ∈ lits, s.isDecision l = false) (d : CNFLit) : d ∉ decisions (s.marked lits) := by
  intro hd
  obtain ⟨l, hl, he⟩ := List.mem_map.mp hd
  obtain ⟨rfl, hmark⟩ := Prod.mk.inj he
  exact Bool.false_ne_true ((h l hl).symm.trans hmark)

/-! ## Paths along the trail -/

theorem unassigned_before (h : s.TrailInv) {l : CNFLit} (hp : pre ++ [l] <+: s.trail) : l ∉ pre ∧ -l ∉ pre := by
  have hn : ((pre ++ [l]).map CNFLit.var).Nodup := h.nodup_vars.sublist (hp.sublist.map _)
  rw [List.map_append, List.nodup_append] at hn
  have hvar : ∀ x ∈ pre, x.var ≠ l.var := fun x hx => hn.2.2 _ (List.mem_map_of_mem hx) _ (List.mem_singleton_self _)
  exact ⟨fun hl => hvar l hl rfl, fun hl => hvar (-l) hl l.var_neg⟩

/-- What has been forced since `pre` are propagations. -/
theorem Core.path (h : Core R K Z dead t) (hR : ∀ c ∈ R, (t.mem c).litSet ∈ clauses) (ht : t.trail = pre ++ rest)
    (hroot : ∀ x ∈ rest, t.getReason x.var = none → {x} ∈ clauses)
    (hforced : ∀ x ∈ rest, t.isDecision x = false) :
    Path ⟨t.marked pre, clauses⟩ (List.replicate rest.length .propagate) ⟨t.marked t.trail, clauses⟩ := by
  rw [ht, marked_append, marked_of_forced hforced]
  apply path_propagate
  intro mid l hm
  have hp : (pre ++ mid) ++ [l] <+: t.trail := by
    rw [ht, List.append_assoc]
    exact (List.prefix_append_right_inj pre).mpr hm
  have hl : l ∈ rest := hm.subset (List.mem_append_right _ (List.mem_singleton_self l))
  have hbefore : literals (t.marked pre ++ mid.map (·, false)) = pre ++ mid := by
    rw [← marked_of_forced fun x hx => hforced x (hm.subset (List.mem_append_left _ hx)), ← marked_append,
      literals_marked]
  have hfree := unassigned_before h.trail hp
  cases hr : t.getReason l.var with
  | none =>
    refine ⟨{l}, hroot l hl hr, Finset.mem_singleton_self l, fun x hx hne => ?_, hbefore.symm ▸ hfree⟩
    exact absurd (Finset.mem_singleton.mp hx) hne
  | some c =>
    have hlt : l ∈ t.trail := hp.subset (List.mem_append_right _ (List.mem_singleton_self l))
    have hcR : c ∈ R := h.reasons.registered l hlt c hr
    obtain ⟨⟨i, hi⟩, hothers⟩ := h.reasons.explained.reason _ l hp c hr
    have hmem : l ∈ (t.mem c).lits := by
      have hlt : i.val < (t.mem c).size := by have := (h.wf c hcR).two_le_size; omega
      exact hi ▸ Clause.lit_mem hlt
    refine ⟨(t.mem c).litSet, hR c hcR, Clause.mem_litSet.mpr hmem, fun x hx hne => ?_, hbefore.symm ▸ hfree⟩
    rw [hbefore]
    exact hothers x (Clause.mem_litSet.mp hx) hne

/-- The propagation of the literals of unit clauses ends in a conflict that no decision is behind. -/
theorem Stopped.path (h : Stopped R K Z dead fact t) (hR : ∀ c ∈ R, (t.mem c).litSet ∈ clauses)
    (ht : t.trail = pre ++ rest) (hroot : ∀ x ∈ rest, t.getReason x.var = none → {x} ∈ clauses)
    (hforced : ∀ x ∈ t.trail, t.isDecision x = false) (hfact : {fact} ∈ clauses) :
    Path ⟨t.marked pre, clauses⟩ (List.replicate rest.length .propagate ++ [.fail]) ⟨[], clauses⟩ := by
  have hpath := h.core.path hR ht hroot fun x hx => hforced x (ht ▸ List.mem_append_right _ hx)
  refine hpath.append (.single ?_)
  cases h with
  | isFalse _ hf =>
    refine .fail hfact (fun x hx => ?_) (no_decision hforced)
    rw [Finset.mem_singleton.mp hx, literals_marked]
    exact hf
  | clash hc _ _ =>
    refine .fail (hR _ hc.registered) (fun x hx => ?_) (no_decision hforced)
    rw [literals_marked, hc.core.trail.neg_mem_trail]
    exact hc.isFalse x (Clause.mem_litSet.mp hx)

theorem TrailInv.exists_rest (h : t.TrailInv) (hp : pre <+: t.trail) :
    ∃ rest, t.trail = pre ++ rest ∧ ∀ x ∈ rest, x ∉ pre := by
  obtain ⟨rest, hr⟩ := hp
  have hn : t.trail.Nodup := h.nodup_vars.of_map _
  rw [← hr, List.nodup_append] at hn
  exact ⟨rest, hr.symm, fun x hx hs => hn.2.2 x hs x hx rfl⟩

theorem Grows.marked (h : Grows s t) : t.marked s.trail = s.marked s.trail := marked_congr h.kept

theorem Grows.litSet (h : Grows s t) (hR : ∀ c ∈ R, (s.mem c).litSet ∈ clauses) :
    ∀ c ∈ R, (t.mem c).litSet ∈ clauses := fun c hc => by
  have he : (t.mem c).litSet = (s.mem c).litSet := List.toFinset_eq_of_perm _ _ (h.lits c)
  rw [he]
  exact hR c hc

/-- Facts and assumptions become propagations with their unit clauses. -/
theorem FactsEnd.path {failed : Option CNFLit} (h : FactsEnd R K Z dead facts s (failed, t))
    (hR : ∀ c ∈ R, (s.mem c).litSet ∈ clauses) (hfacts : ∀ l ∈ facts, {l} ∈ clauses) (h₁ : s.currentLevel ≤ 1) :
    ∃ n, (failed = none →
        Path ⟨s.marked s.trail, clauses⟩ (List.replicate n .propagate) ⟨t.marked t.trail, clauses⟩) ∧
      (failed ≠ none →
        Path ⟨s.marked s.trail, clauses⟩ (List.replicate n .propagate ++ [.fail]) ⟨[], clauses⟩) := by
  have hrest : t.TrailInv → Grown facts s t → ∃ rest, t.trail = s.trail ++ rest ∧
      (∀ x ∈ rest, t.getReason x.var = none → {x} ∈ clauses) ∧ ∀ x ∈ t.trail, t.isDecision x = false := by
    intro ht hg
    obtain ⟨rest, hr, hnew⟩ := ht.exists_rest hg.grows.trail
    refine ⟨rest, hr, fun x hx hn => ?_, fun x hx => isDecision_of_level ?_⟩
    · cases hg.forced x (hr ▸ List.mem_append_right _ hx) with
      | inl hs => exact absurd hs (hnew x hx)
      | inr hx =>
        cases hx with
        | inl hf => exact hfacts x hf
        | inr hf => exact absurd hn hf
    · exact (ht.level_le x hx).trans (hg.grows.currentLevel.trans_le h₁)
  cases failed with
  | none =>
    obtain ⟨hsteady, hg, -⟩ := h
    obtain ⟨rest, hr, hroot, hforced⟩ := hrest hsteady.trailInv hg
    refine ⟨rest.length, fun _ => ?_, fun hf => absurd rfl hf⟩
    rw [← hg.grows.marked]
    cases hsteady with
    | idle hi =>
      have hnil : s.trail ++ rest = [] := hr.symm.trans hi.nil
      rw [hi.nil, List.append_eq_nil_iff.mp hnil |>.1, List.append_eq_nil_iff.mp hnil |>.2]
      exact .nil _
    | ready hready =>
      exact hready.core.path (hg.grows.litSet hR) hr hroot fun x hx => hforced x (hr ▸ List.mem_append_right _ hx)
  | some fact =>
    obtain ⟨hstop, hg, hf⟩ := h
    obtain ⟨rest, hr, hroot, hforced⟩ := hrest hstop.core.trail hg
    refine ⟨rest.length, fun hn => absurd hn (Option.some_ne_none fact), fun _ => ?_⟩
    rw [← hg.grows.marked]
    exact hstop.path (hg.grows.litSet hR) hr hroot hforced (hfacts fact hf)

/-- The first entry above a level that is not undone is a decision. -/
theorem Core.first_decision (h : Core R K Z dead s) {k : Nat} (h₁ : 1 ≤ k) (hk : k < s.currentLevel) {d : CNFLit}
    (hp : (s.undoToLevel k).trail ++ [d] <+: s.trail) : s.isDecision d = true := by
  have hd : d ∈ s.trail := hp.subset (List.mem_append_right _ (List.mem_singleton_self d))
  have hkept : ∀ l, l ∈ (s.undoToLevel k).trail ↔ l ∈ s.trail ∧ s.getLevel l.var < k + 1 := fun l => by
    rw [undoToLevel_trail]
    exact h.trail.mem_take_limit hk
  have hlevel : k + 1 ≤ s.getLevel d.var := Nat.le_of_not_lt fun hlt =>
    (unassigned_before h.trail hp).1 ((hkept d).mpr ⟨hd, hlt⟩)
  apply isDecision_eq
  · cases hr : s.getReason d.var with
    | none => rfl
    | some c =>
      have hforced := h.reasons.forced _ d hp c hr
      obtain ⟨x, hx, hne, hx'⟩ := hforced.level (by omega)
      have hlt := ((hkept (-x)).mp (hforced.others x hx hne)).2
      rw [CNFLit.var_neg, hx'] at hlt
      omega
  · omega

theorem Core.path_backjump (h : Core R K Z dead s) {k : Nat} (h₁ : 1 ≤ k) (hk : k < s.currentLevel)
    {u l : CNFLit} (hu : u ∈ s.trail) (hlevel : s.getLevel u.var = s.currentLevel) {C : Finset CNFLit}
    (hC : C ∈ clauses) (hfalse : ∀ x ∈ C, -x ∈ s.trail) (hf : Forces (s.marked (s.undoToLevel k).trail) C l) :
    Path ⟨s.marked s.trail, clauses⟩ [.backjump] ⟨s.marked (s.undoToLevel k).trail ++ [(l, false)], clauses⟩ := by
  have htrail : (s.undoToLevel k).trail <+: s.trail := undoToLevel_trail s k ▸ List.take_prefix _ _
  obtain ⟨rest, hr⟩ := htrail
  cases rest with
  | nil =>
    rw [List.append_nil] at hr
    rw [← hr, undoToLevel_trail, h.trail.mem_take_limit hk, hlevel] at hu
    omega
  | cons d rest =>
    have hp : (s.undoToLevel k).trail ++ [d] <+: s.trail := ⟨rest, by rw [← hr, List.append_assoc]; rfl⟩
    have hmark : s.marked s.trail = s.marked (s.undoToLevel k).trail ++ (d, true) :: s.marked rest := by
      rw [← h.first_decision h₁ hk hp]
      exact (congrArg s.marked hr).symm.trans (marked_append s _ _)
    refine .single (.backjump hmark hC ?_ hf)
    rw [literals_marked]
    exact hfalse

/-- What one literal on a new entry of the trail forces. -/
theorem Appended.path {l : CNFLit} {r : Option ClauseRef} (h : Appended l r s t) (hc : Core R K Z dead t)
    (hR : ∀ c ∈ R, (t.mem c).litSet ∈ clauses) :
    ∃ n, Path ⟨s.marked s.trail ++ [(l, t.isDecision l)], clauses⟩ (List.replicate n .propagate)
      ⟨t.marked t.trail, clauses⟩ := by
  obtain ⟨rest, hr, hnew⟩ := hc.trail.exists_rest h.next
  have hreason : ∀ x ∈ rest, t.getReason x.var ≠ none := by
    intro x hx
    cases h.forced x (hr ▸ List.mem_append_right _ hx) with
    | inl hs => exact absurd (List.mem_append_left _ hs) (hnew x hx)
    | inr hf =>
      cases hf with
      | inl he => exact absurd (List.mem_append_right _ (List.mem_singleton.mpr he)) (hnew x hx)
      | inr hf => exact hf
  have hpath := hc.path hR hr (fun x hx hn => absurd hn (hreason x hx)) fun x hx => isDecision_of_reason (hreason x hx)
  rw [marked_append, h.grows.marked] at hpath
  exact ⟨rest.length, hpath⟩

end Assignment

namespace CDCLSatSolver

open Assignment

variable {Φ : Set (Finset CNFLit)} {K Z : Set ClauseRef} {dead : Set CNFLit} {s t : CDCLSatSolver}
  {assumedFacts : List CNFLit}

/-- The trail with its decisions, and the clauses, the facts and the assumptions. -/
def abstraction (s : CDCLSatSolver) (assumedFacts : List CNFLit) : State CNFLit :=
  ⟨s.assignment.marked s.assignment.trail, s.database ∪ units {l | l ∈ assumedFacts}⟩

theorem abstraction_of_nil (h : s.assignment.trail = []) :
    s.abstraction assumedFacts = ⟨[], s.database ∪ units {l | l ∈ assumedFacts}⟩ := by
  unfold abstraction
  rw [h]
  rfl

theorem backtrackAll_abstraction (s : CDCLSatSolver) (assumedFacts : List CNFLit) :
    s.backtrackAll.abstraction assumedFacts = ⟨[], s.database ∪ units {l | l ∈ assumedFacts}⟩ := by
  have hsim : Similar s s.backtrackAll := .undoAll s
  rw [abstraction_of_nil (undoAll_trail _), hsim.database]

theorem litSet_mem_database {c : ClauseRef} (hc : c ∈ s.clauses) :
    (s.mem c).litSet ∈ s.database ∪ units {l | l ∈ assumedFacts} := .inl (.inr (mem_clauseSets hc))

theorem Data.models_database (h : Data Φ s) (hu : s.detectedUNSAT = false) (σ : Valuation CNFLit) :
    σ.Models s.database ↔ σ.Models Φ := by
  refine ⟨fun hσ => h.complete hu σ (hσ.mono ?_), h.implied σ⟩
  apply Set.union_subset_union_right
  rintro _ ⟨c, hc, rfl⟩
  exact mem_clauseSets hc.1

theorem Data.models_abstraction (h : Data Φ s) (hu : s.detectedUNSAT = false) (σ : Valuation CNFLit) :
    σ.Models (s.abstraction assumedFacts).clauses ↔ σ.Models (Φ ∪ units {l | l ∈ assumedFacts}) := by
  show σ.Models (s.database ∪ _) ↔ _
  rw [models_union, models_union, h.models_database hu]

theorem Data.path_learn (h : Data Φ s) (hu : s.detectedUNSAT = false) (h' : Data Φ t) (hu' : t.detectedUNSAT = false)
    (hsub : s.database ⊆ t.database) {trail : List (CNFLit × Bool)} :
    Path ⟨trail, (s.abstraction assumedFacts).clauses⟩ [.learn] ⟨trail, (t.abstraction assumedFacts).clauses⟩ := by
  refine AbstractCDCL.path_learn (Set.union_subset_union_left _ hsub) fun C hC σ hσ => ?_
  exact (h'.models_abstraction hu' σ).mpr ((h.models_abstraction hu σ).mp hσ) C hC

theorem path_appendFacts {facts : List CNFLit} {failed : Option CNFLit} {t : Assignment}
    (h : FactsEnd s.clauses K Z dead facts s.assignment (failed, t)) (h₁ : s.assignment.currentLevel ≤ 1)
    (hfacts : ∀ l ∈ facts, {l} ∈ (s.abstraction assumedFacts).clauses) :
    ∃ n, (failed = none → Path (s.abstraction assumedFacts) (List.replicate n .propagate)
        ⟨t.marked t.trail, (s.abstraction assumedFacts).clauses⟩) ∧
      (failed ≠ none → Path (s.abstraction assumedFacts) (List.replicate n .propagate ++ [.fail])
        ⟨[], (s.abstraction assumedFacts).clauses⟩) :=
  h.path (fun _ hc => litSet_mem_database hc) hfacts h₁

theorem fact_mem_abstraction : ∀ l ∈ s.facts, {l} ∈ (s.abstraction assumedFacts).clauses := fun _ hl =>
  .inl (.inl (mem_units hl))

/-! ## Steps between decisions -/

theorem Restarted.abstraction_eq (h : Restarted K Z dead s) :
    s.abstraction assumedFacts = ⟨[], s.database ∪ units {l | l ∈ assumedFacts}⟩ := abstraction_of_nil h.idle.nil

theorem Restarted.inv_abstraction (h : Restarted K Z dead s) (hdata : Data Φ s) (hu : s.detectedUNSAT = false) :
    AbstractCDCL.Inv (Φ ∪ units {l | l ∈ assumedFacts}) (s.abstraction assumedFacts) := by
  have hmodels : ∀ σ : Valuation CNFLit, σ.Models (s.abstraction assumedFacts).clauses ↔
      σ.Models (Φ ∪ units {l | l ∈ assumedFacts}) := hdata.models_abstraction hu
  rw [h.abstraction_eq] at hmodels ⊢
  exact .init hmodels

theorem Restarted.path_simplify (h : Restarted K Z dead s) (hdata : Data Φ s) (hu : s.detectedUNSAT = false)
    (he : s.trySimplify.1 = false) :
    Path (s.abstraction assumedFacts) [.learn, .forget] (s.trySimplify.2.abstraction assumedFacts) := by
  obtain ⟨hdata', -, hok⟩ := h.trySimplify hdata
  obtain ⟨K', Z', dead', h'⟩ := hok he
  have hu' : s.trySimplify.2.detectedUNSAT = false := (SameProblem.trySimplify s).detectedUNSAT.trans hu
  have hmodels : ∀ σ : Valuation CNFLit, σ.Models (s.abstraction assumedFacts).clauses ↔
      σ.Models (s.trySimplify.2.abstraction assumedFacts).clauses := fun σ =>
    (hdata.models_abstraction hu σ).trans (hdata'.models_abstraction hu' σ).symm
  rw [h.abstraction_eq, h'.abstraction_eq] at hmodels ⊢
  exact path_rewrite hmodels

/-- Where the fact cleaner finds the facts inconsistent, appending them stops. -/
theorem Restarted.stops (h : Restarted K Z dead s) (hdata : Data Φ s)
    (hc : Conflict (units {l | l ∈ s.facts} ∪ clauseSets s.mem s.clauses) ∅) :
    ∃ fact t, FactsEnd s.clauses K Z dead s.facts s.assignment.undoAll (some fact, t) := by
  have hend : FactsEnd s.clauses K Z dead s.facts s.assignment.undoAll (s.assignment.undoAll.appendFacts s.facts) :=
    (Steady.idle h.idle.undoAll).appendFacts fun l hl => by
      rw [undoAll_size, h.size_eq]
      exact Nat.lt_succ_of_le (hdata.fact_vars l hl)
  generalize s.assignment.undoAll.appendFacts s.facts = r at hend
  obtain ⟨failed, t⟩ := r
  cases failed with
  | some fact => exact ⟨fact, t, hend⟩
  | none =>
    obtain ⟨hsteady, hg, hall⟩ := hend
    have hlits : ∀ c, (t.mem c).lits.Perm (s.mem c).lits := fun c => by
      have := hg.grows.lits c
      rwa [undoAll_mem] at this
    have hdel : ∀ c, (t.mem c).scheduledForDeletion = (s.mem c).scheduledForDeletion := fun c => by
      have := hg.grows.scheduledForDeletion c
      rwa [undoAll_mem] at this
    have hclosed := hsteady.closed hall h.dead_false (fun c hc ha => h.kept c hc ((hdel c).symm.trans ha))
      fun c hc hd => by
        obtain ⟨x, hx, hf⟩ := hdata.satisfied c hc ((hdel c).symm.trans hd)
        exact ⟨x, (hlits c).mem_iff.mpr hx, hf⟩
    rw [clauseSets_congr hlits] at hclosed
    exact absurd hc (hclosed.not_conflict (Set.empty_subset _))

theorem Restarted.path_simplifyRefuted (h : Restarted K Z dead s) (hdata : Data Φ s) (he : s.trySimplify.1 = true) :
    ∃ n, Path (s.abstraction assumedFacts) (List.replicate n .propagate ++ [.fail])
      ⟨[], s.trySimplify.2.database ∪ units {l | l ∈ assumedFacts}⟩ := by
  unfold CDCLSatSolver.trySimplify at he ⊢
  split at he
  · rw [if_pos ‹_›]
    dsimp only at he ⊢
    cases FactCleaner.optimize_cases (h.registered hdata) s.optimizer s.unitLemmas with
    | inl hr =>
      rw [hr.2] at he
      exact absurd he Bool.false_ne_true
    | inr hr =>
      cases hr with
      | inl hr =>
        obtain ⟨t, hr, ht⟩ := hr
        obtain ⟨fact, u, hend⟩ := h.stops hdata ht.conflict
        have hR : ∀ c ∈ s.clauses, (s.assignment.undoAll.mem c).litSet ∈
            s.database ∪ units {l | l ∈ assumedFacts} := fun c hc => by
          rw [undoAll_mem]
          exact litSet_mem_database hc
        obtain ⟨n, -, hpath⟩ := hend.path hR fact_mem_abstraction (Nat.zero_le 1)
        have hsim : Similar s (s.takeBack (s.optimizer.optimize s.sharedOptimizerState s.unitLemmas).1
            { s.sharedOptimizerState.precomputeOccurrenceMap with
              assignment := t.undoAll, detectedUnsat := true }) :=
          similar_takeBack_undone _ ht.grown.grows rfl rfl rfl
        rw [hr, hsim.database, h.abstraction_eq]
        have hpath := hpath (Option.some_ne_none fact)
        rw [undoAll_trail] at hpath
        exact ⟨n, hpath⟩
      | inr hr =>
        obtain ⟨F, v, -, hc⟩ := hr
        rw [hc.progress.cleaning.sane] at he
        exact absurd he Bool.false_ne_true
  · exact absurd he Bool.false_ne_true

theorem Restarted.path_reduce (h : Restarted K Z dead s) (hdata : Data Φ s) (hu : s.detectedUNSAT = false)
    {sorted : List ClauseRef} (hp : sorted.Perm s.lemmas) (lowLBD : Bool) :
    Path (s.abstraction assumedFacts) [.forget] ((s.tryReduceClauseDB sorted lowLBD).abstraction assumedFacts) := by
  obtain ⟨hdata', K', Z', dead', h'⟩ := h.tryReduceClauseDB hdata hp lowLBD
  have hu' : (s.tryReduceClauseDB sorted lowLBD).detectedUNSAT = false :=
    (SameProblem.tryReduceClauseDB s sorted lowLBD).detectedUNSAT.trans hu
  have hsub : (s.tryReduceClauseDB sorted lowLBD).database ⊆ s.database := by
    unfold CDCLSatSolver.tryReduceClauseDB
    split
    · exact subset_rfl
    · have hsub :=
        List.Subset.trans (getClausesMarkedForDeletion_subset sorted lowLBD s.amntBinariesLearnt) hp.subset
      obtain ⟨mem, he, -, hleft⟩ := hdata.reduced hsub s.clauseDBReductionPolicy.nextInterval
      dsimp only
      rw [he]
      apply Set.union_subset_union_right
      rintro _ ⟨c, hc, rfl⟩
      rw [synchronize_mem]
      obtain ⟨hdb, hm, -⟩ := hleft c hc
      show (mem c).litSet ∈ _
      rw [hm]
      exact mem_clauseSets hdb
  have hmodels : ∀ σ : Valuation CNFLit, σ.Models ((s.tryReduceClauseDB sorted lowLBD).abstraction assumedFacts).clauses ↔
      σ.Models (s.abstraction assumedFacts).clauses := fun σ =>
    (hdata'.models_abstraction hu' σ).trans (hdata.models_abstraction hu σ).symm
  rw [h.abstraction_eq, h'.abstraction_eq] at hmodels ⊢
  exact .single (.forget (Set.union_subset_union_left _ hsub) fun C hC σ hσ => (hmodels σ).mp hσ C hC)

theorem Restarted.path_facts (h : Restarted K Z dead s) (hdata : Data Φ s) (hu : s.detectedUNSAT = false)
    (he : s.propagateHardFacts.1 = false) :
    ∃ n, Path (s.abstraction assumedFacts) (List.replicate n .propagate ++ [.learn])
      (s.propagateHardFacts.2.abstraction assumedFacts) := by
  have hend := h.appendFacts hdata
  obtain ⟨hdata', -⟩ := h.propagateHardFacts hdata assumedFacts
  have hu' : s.propagateHardFacts.2.detectedUNSAT = false := (SameProblem.propagateHardFacts s).detectedUNSAT.trans hu
  have hsub : s.facts ⊆ s.propagateHardFacts.2.facts := (h.facts_propagateHardFacts hdata).2.2
  have hlearn : ∀ {t : Assignment}, s.propagateHardFacts.2.assignment = t → Grown s.facts s.assignment t →
      s.propagateHardFacts.2.clauseDB = s.clauseDB →
      Path ⟨t.marked t.trail, (s.abstraction assumedFacts).clauses⟩ [.learn]
        (s.propagateHardFacts.2.abstraction assumedFacts) := by
    intro t ht hg hdb
    subst ht
    refine hdata.path_learn hu hdata' hu' ?_
    rintro C (⟨l, hl, rfl⟩ | ⟨c, hc, rfl⟩)
    · exact .inl (mem_units (hsub hl))
    · refine .inr ⟨c, ?_, (List.toFinset_eq_of_perm _ _ (hg.grows.lits c)).symm⟩
      show c ∈ s.propagateHardFacts.2.clauseDB
      exact hdb.symm ▸ hc
  unfold CDCLSatSolver.propagateHardFacts propagateFactsOnSystemLevels at he hlearn ⊢
  generalize s.assignment.appendFacts s.facts = r at hend he hlearn
  obtain ⟨failed, t⟩ := r
  obtain ⟨n, hgo, -⟩ := path_appendFacts hend (h.level_zero.le.trans (Nat.zero_le 1)) fact_mem_abstraction
  cases failed with
  | some fact => exact absurd he.symm Bool.false_ne_true
  | none =>
    refine ⟨n, (hgo rfl).append (hlearn ?_ hend.2.1 ?_)⟩
    · dsimp only
      split
      · rfl
      · rfl
    · dsimp only
      split
      · rfl
      · rfl

theorem Restarted.path_factsRefuted (h : Restarted K Z dead s) (hdata : Data Φ s) (he : s.propagateHardFacts.1 = true) :
    ∃ n, Path (s.abstraction assumedFacts) (List.replicate n .propagate ++ [.fail])
      ⟨[], s.propagateHardFacts.2.database ∪ units {l | l ∈ assumedFacts}⟩ := by
  have hend := h.appendFacts hdata
  unfold CDCLSatSolver.propagateHardFacts propagateFactsOnSystemLevels at he ⊢
  generalize s.assignment.appendFacts s.facts = r at hend he
  obtain ⟨failed, t⟩ := r
  obtain ⟨n, -, hstop⟩ := path_appendFacts hend (h.level_zero.le.trans (Nat.zero_le 1)) fact_mem_abstraction
  cases failed with
  | none =>
    dsimp only at he
    split at he
    · exact absurd he Bool.false_ne_true
    · exact absurd he Bool.false_ne_true
  | some fact =>
    have hsim : Similar s { s with assignment := t } := .of_grows hend.2.1.grows
    rw [hsim.database]
    exact ⟨n, hstop (Option.some_ne_none fact)⟩

theorem Searching.path_assumptions (h : Searching K dead assumedFacts s) (hdata : Data Φ s)
    (hs : Steady s.clauses K Z dead s.assignment) (h₁ : s.assignment.currentLevel = 1)
    (hv : ∀ l ∈ assumedFacts, l.var ≤ s.maxVar) {failed : Option CNFLit}
    (he : s.propagateFactsOnSystemLevels assumedFacts = (failed, t)) :
    ∃ n, (failed = none →
        Path (s.abstraction assumedFacts) (List.replicate n .propagate) (t.abstraction assumedFacts)) ∧
      (failed ≠ none → Path (s.abstraction assumedFacts) (List.replicate n .propagate ++ [.fail])
        ⟨[], t.database ∪ units {l | l ∈ assumedFacts}⟩) := by
  obtain ⟨hend, hsim, -⟩ := h.propagated hdata hs h₁ hv he
  have hclauses : t.clauses = s.clauses := congrArg (fun cs => {c | c ∈ cs}) hsim.clauseDB
  rw [hclauses] at hend
  rw [hsim.database]
  obtain ⟨n, hgo, hstop⟩ := path_appendFacts hend h₁.le fun l hl => .inr (mem_units hl)
  refine ⟨n, fun hf => ?_, hstop⟩
  unfold abstraction
  rw [hsim.database]
  exact hgo hf

/-! ## Decisions and conflicts -/

theorem Assumed.path_decide (h : Assumed K dead assumedFacts s)
    (hs : Steady s.clauses K Z dead s.assignment) {l : CNFLit} (hl : s.assignment.getAssignment l = .INDETERMINATE)
    (hv : l.var ≤ s.maxVar) :
    ∃ n, Path (s.abstraction assumedFacts) (.decide l :: List.replicate n .propagate)
      ((s.newLevel.append l).2.abstraction assumedFacts) := by
  obtain ⟨ht, ha⟩ := appended_newLevel hs h.size_eq hl hv
  have hcore : Core s.clauses K Z dead (s.newLevel.append l).2.assignment := by
    have hend := hs.newLevel.append hl ((Nat.lt_succ_of_le hv).trans_eq h.size_eq.symm)
    exact hend.both (fun _ h => h.1.core) fun _ _ h => h.1.core
  have hsim : Similar s (s.newLevel.append l).2 :=
    (show Similar s s.newLevel from .of_mem rfl rfl rfl rfl rfl rfl rfl).trans (.of_grows ha.grows)
  have hn : l ∉ s.assignment.trail := (hs.trailInv.indet_iff.mp hl).1
  have hlevel : (s.newLevel.append l).2.assignment.getLevel l.var = s.assignment.currentLevel + 1 :=
    ha.grows.level_new hs.newLevel.trailInv ht ha.mem hn
  have hmark : (s.newLevel.append l).2.assignment.isDecision l = true :=
    isDecision_eq ha.reason (hlevel ▸ Nat.succ_le_succ h.one_le)
  have hR : ∀ c ∈ s.clauses, (s.newLevel.assignment.mem c).litSet ∈ (s.abstraction assumedFacts).clauses :=
    fun c hc => litSet_mem_database hc
  obtain ⟨n, hpath⟩ := ha.path hcore (ha.grows.litSet hR)
  refine ⟨n, .cons (.decide ?_ ?_) ?_⟩
  · rw [abstraction, literals_marked]
    exact hn
  · rw [abstraction, literals_marked]
    exact (hs.trailInv.indet_iff.mp hl).2
  · rw [hmark] at hpath
    have hclauses : ((s.newLevel.append l).2.abstraction assumedFacts).clauses = (s.abstraction assumedFacts).clauses :=
      congrArg (· ∪ units {l | l ∈ assumedFacts}) hsim.database
    rw [← hclauses] at hpath ⊢
    exact hpath

theorem Data.database_resumed (h : Data Φ s) (lits : List CNFLit) (k : Nat) :
    s.database ⊆ (s.resumed lits k).database := by
  have hmem : ∀ c ∈ s.clauses, (s.resumed lits k).mem c = s.mem c := fun c hc => by
    rw [mem, resumed_assignment, undoToLevel_mem]
    exact writeClause_mem_of_ne (h.ne_nextClause hc)
  rintro C (⟨l, hl, rfl⟩ | ⟨c, hc, rfl⟩)
  · exact .inl (mem_units (resumed_facts s lits k ▸ hl))
  · have hc' : c ∈ (s.resumed lits k).clauses := resumed_clauses s lits k ▸ .inr hc
    rw [← hmem c hc]
    exact .inr (mem_clauseSets hc')

section
variable {lits : List CNFLit} {k : Nat} {c : ClauseRef} (h : Assumed K dead assumedFacts s) (hdata : Data Φ s)
  (hc : Clash s.clauses K Z dead c s.assignment) (hl : SoundLemma s lits k)

theorem resumed_kept (s : CDCLSatSolver) (lits : List CNFLit) (k : Nat) :
    (s.resumed lits k).assignment.trail = (s.assignment.undoToLevel k).trail ∧
      (s.resumed lits k).assignment.reasonsAndALs = s.assignment.reasonsAndALs := by
  rw [resumed_assignment, undoToLevel_trail, undoToLevel_trail, undoToLevel_reasonsAndALs]
  exact ⟨rfl, rfl⟩

include hc hl in
theorem SoundLemma.isFalse : ∀ x ∈ lits.toFinset, -x ∈ s.assignment.trail := by
  intro x hx
  obtain ⟨u, hu, hut, -⟩ := hl.first
  have hx := List.mem_toFinset.mp hx
  cases lits with
  | nil => cases hu
  | cons v tail =>
    obtain rfl : v = -u := Option.some.inj hu
    cases hx with
    | head _ =>
      rw [neg_neg]
      exact hut
    | tail _ hx => exact hc.core.trail.neg_mem_trail.mpr (hl.others x hx).1

include hdata hc hl

/-- The lemma forces its first literal where the solver has jumped back to. -/
theorem SoundLemma.forces (hlen : 2 ≤ lits.length) :
    Forces (s.assignment.marked (s.assignment.undoToLevel k).trail) lits.toFinset ((lemmaClause lits).lit 0) := by
  have ht := trailInv_resumed hdata hc hl
  have ha := hl.asserting_resumed hc.core.trail hlen
  have hfirst : (lemmaClause lits).lit 0 ∈ lits := Clause.lit_mem (c := lemmaClause lits) (by
    show 0 < lits.length
    omega)
  rw [← (resumed_kept s lits k).1]
  refine ⟨List.mem_toFinset.mpr hfirst, fun x hx hne => ?_, ?_⟩
  · rw [literals_marked, ht.neg_mem_trail]
    exact ha.others x (List.mem_toFinset.mp hx) hne
  · rw [literals_marked]
    exact ht.indet_iff.mp ha.first

/-- The lemma is registered on its level. -/
theorem SoundLemma.path (hu : s.detectedUNSAT = false) (hlen : 2 ≤ lits.length) (hk : 1 ≤ k) {r : CDCLSatSolver}
    (hr : r = s.resumed lits k) {t : Assignment} (hcore : Core r.clauses (insert s.nextClause K) Z dead t)
    (ha : Appended ((lemmaClause lits).lit 0) (some s.nextClause) r.assignment t)
    (hdata' : Data Φ { r with assignment := t }) (hu' : r.detectedUNSAT = false) :
    ∃ n, Path (s.abstraction assumedFacts) (.learn :: .backjump :: List.replicate n .propagate)
      (CDCLSatSolver.abstraction { r with assignment := t } assumedFacts) := by
  have hsim : Similar r { r with assignment := t } := .of_grows ha.grows
  have hsub : s.database ⊆ CDCLSatSolver.database { r with assignment := t } :=
    hsim.database ▸ hr ▸ hdata.database_resumed lits k
  have hR : ∀ c ∈ r.clauses, (r.assignment.mem c).litSet ∈
      (CDCLSatSolver.abstraction { r with assignment := t } assumedFacts).clauses := fun c hc => by
    have hin : (r.mem c).litSet ∈ r.database ∪ units {l | l ∈ assumedFacts} := litSet_mem_database hc
    rw [← hsim.database] at hin
    exact hin
  have hmem : r.assignment.mem s.nextClause = lemmaClause lits := hr ▸ resumed_mem s lits k
  have hlemma : lits.toFinset ∈ (CDCLSatSolver.abstraction { r with assignment := t } assumedFacts).clauses := by
    have hin := hR s.nextClause (hr ▸ resumed_clauses s lits k ▸ .inl rfl)
    rw [hmem] at hin
    exact hin
  obtain ⟨u, -, hut, hlevel⟩ := hl.first
  obtain ⟨htrail, hreasons⟩ := resumed_kept s lits k
  rw [← hr] at htrail hreasons
  have hjump := hc.core.path_backjump hk hl.lt hut hlevel hlemma (hl.isFalse hc) (hl.forces hdata hc hlen)
  obtain ⟨n, hpath⟩ := ha.path hcore (ha.grows.litSet hR)
  have hmark : t.isDecision ((lemmaClause lits).lit 0) = false :=
    isDecision_of_reason (ha.reason ▸ Option.some_ne_none _)
  rw [hmark, marked_congr fun l _ => congrFun hreasons l.var, htrail] at hpath
  exact ⟨n, (hdata.path_learn hu hdata' hu' hsub).append (hjump.append hpath)⟩

end

theorem Resolved.data {e : ResolveResult × CDCLSatSolver} (h : Resolved Φ assumedFacts e) : Data Φ e.2 := by
  cases h with
  | restart hdata _ _ => exact hdata
  | «continue» hdata _ _ => exact hdata
  | conflict hdata _ _ _ => exact hdata

theorem registerLemma_snd (s : CDCLSatSolver) (c : ClauseRef) :
    (s.registerLemma c).2 = { s with assignment := (s.assignment.registerLemma c).2 } := rfl

theorem afterLemma_restart {k : Nat} {e : Option ClauseRef × CDCLSatSolver} (h : (afterLemma k e).1 ≠ .restart) :
    1 ≤ k := by
  by_contra hk
  have hk : k = 0 := by omega
  obtain ⟨conflicting, t⟩ := e
  cases conflicting with
  | none => exact h (if_pos hk)
  | some c => exact h (if_pos (.inl hk))

section
variable {c : ClauseRef} (h : Assumed K dead assumedFacts s) (hdata : Data Φ s)
  (hc : Clash s.clauses K Z dead c s.assignment) (h₂ : 2 ≤ s.assignment.currentLevel)
include h hdata hc h₂

theorem Assumed.database_resolved {lowLBD : Bool} {e : ResolveResult × CDCLSatSolver}
    (he : s.resolveConflict lowLBD c = some e) : s.database ⊆ e.2.database := by
  obtain ⟨lits, k, e', hl, he', hcase⟩ := h.toSearching.resolveConflict hdata hc h₂ lowLBD
  obtain rfl := Option.some.inj (he'.symm.trans he)
  cases hcase with
  | inl hfact =>
    obtain ⟨l, -, -, rfl⟩ := hfact
    apply Set.union_subset_union_left
    rintro _ ⟨x, hx, rfl⟩
    exact mem_units (List.mem_append_left _ hx)
  | inr hclause =>
    obtain ⟨hlen, hafter⟩ := hclause
    obtain ⟨r, hr⟩ : ∃ r, r = s.resumed lits k := ⟨_, rfl⟩
    have hgrow := (grows_registerLemma_resumed hdata hc hl hlen hr).2
    rw [hafter, afterLemma_snd, ← hr, registerLemma_snd, (Similar.of_grows hgrow).database, hr]
    exact hdata.database_resumed lits k

theorem Assumed.path_resolveRestart (hu : s.detectedUNSAT = false) {lowLBD : Bool}
    (he : s.resolveConflict lowLBD c = some (.restart, t)) :
    Path (s.abstraction assumedFacts) [.learn, .restart] (t.backtrackAll.abstraction assumedFacts) := by
  have hdata' : Data Φ t := (h.resolved hdata hc h₂ he).data
  have hu' : t.detectedUNSAT = false := (SameProblem.resolveConflict he).detectedUNSAT.trans hu
  rw [backtrackAll_abstraction]
  exact (hdata.path_learn hu hdata' hu' (h.database_resolved hdata hc h₂ he)).append (.single .restart)

theorem Assumed.path_resolve (hu : s.detectedUNSAT = false) {lowLBD : Bool} {result : ResolveResult}
    (he : s.resolveConflict lowLBD c = some (result, t)) (hn : result ≠ .restart) :
    ∃ n, Path (s.abstraction assumedFacts) (.learn :: .backjump :: List.replicate n .propagate)
      (t.abstraction assumedFacts) := by
  have hdata' : Data Φ t := (h.resolved hdata hc h₂ he).data
  obtain ⟨lits, k, e, hl, he', hcase⟩ := h.toSearching.resolveConflict hdata hc h₂ lowLBD
  obtain rfl := Option.some.inj (he'.symm.trans he)
  cases hcase with
  | inl hfact =>
    obtain ⟨l, -, -, hrestart⟩ := hfact
    exact absurd (congrArg Prod.fst hrestart) hn
  | inr hclause =>
    obtain ⟨hlen, hafter⟩ := hclause
    have hk : 1 ≤ k := afterLemma_restart fun hr => hn ((congrArg Prod.fst hafter).trans hr)
    have ht : t = ((s.resumed lits k).registerLemma s.nextClause).2 :=
      (congrArg Prod.snd hafter).trans (afterLemma_snd k _)
    obtain ⟨r, hr⟩ : ∃ r, r = s.resumed lits k := ⟨_, rfl⟩
    rw [← hr] at ht
    have hend := registerLemma_resumed hdata hc hl hlen hr
    have hcore := hend.both (fun _ h => h.1.core) fun _ _ h => h.1.core
    have ha := hend.both (fun _ h => h.2) fun _ _ h => h.2
    have hsane : r.detectedUNSAT = false := by
      rw [hr, resumed, recordLemma_eq]
      exact hu
    rw [registerLemma_snd] at ht
    generalize (r.assignment.registerLemma s.nextClause).2 = u at hcore ha ht
    rw [ht] at hdata' ⊢
    exact hl.path hdata hc hu hlen hk hr hcore ha hdata' hsane

end

theorem Assumed.satisfied (h : Assumed K dead assumedFacts s) (hdata : Data Φ s)
    (hs : Steady s.clauses K Z dead s.assignment) (hc : s.assignment.isComplete = true) :
    ∀ C ∈ (s.abstraction assumedFacts).clauses, ∃ l ∈ C, l ∈ literals (s.abstraction assumedFacts).trail := by
  have ht := hs.trailInv
  show ∀ C ∈ _, ∃ l ∈ C, l ∈ literals (s.assignment.marked s.assignment.trail)
  rw [literals_marked]
  rintro C ((⟨l, hl, rfl⟩ | ⟨c, hcd, rfl⟩) | ⟨l, hl, rfl⟩)
  · exact ⟨l, Finset.mem_singleton_self l, (h.rooted.facts_mem l hl).1⟩
  · by_cases hd : (s.mem c).scheduledForDeletion = true
    · obtain ⟨x, hx, hf⟩ := hdata.satisfied c hcd hd
      exact ⟨x, Clause.mem_litSet.mpr hx, (h.rooted.facts_mem x hf).1⟩
    · have hkept : c ∈ K := h.kept c hcd (Bool.eq_false_of_not_eq_true hd)
      by_contra hn
      refine (hs.notUnit (h.toSearching.dead_not_true ht) hkept).not_falsified fun x hx => ?_
      have hlt : x.var < s.assignment.size := (Nat.lt_succ_of_le (hdata.vars c hcd x hx)).trans_eq h.size_eq.symm
      cases hval : s.assignment.getAssignment x with
      | FALSE => rfl
      | INDETERMINATE => exact absurd hval (getAssignment_ne_indet ht hc hlt)
      | TRUE => exact absurd ⟨x, Clause.mem_litSet.mpr hx, (ht.mem_trail x).mpr hval⟩ hn
  · exact ⟨l, Finset.mem_singleton_self l, (h.held l hl).1⟩

end CDCLSatSolver

def Event.decided : Event → Option CNFLit
  | .decide l => some l
  | _ => none

namespace Machine

open CDCLSatSolver

variable {m m' : Machine} {s : CDCLSatSolver} {e : Event}

def abstraction (m : Machine) : State CNFLit := m.solver.abstraction m.assumedFacts

/-- The rules that a step of a `solve` call takes, where it returns `verdict` if it returns. -/
inductive Plays : Event → Option TBool → List (Rule CNFLit) → Prop
  | stop : Plays .stop (some .INDETERMINATE) [.restart]
  | simplify : Plays .trySimplify none [.learn, .forget]
  | simplifyRefuted (n : Nat) : Plays .trySimplify (some .FALSE) (List.replicate n .propagate ++ [.fail])
  | reduce {sorted : List ClauseRef} {lowLBD : Bool} : Plays (.tryReduceClauseDB sorted lowLBD) none [.forget]
  | facts (n : Nat) : Plays .propagateHardFacts none (List.replicate n .propagate ++ [.learn])
  | factsRefuted (n : Nat) : Plays .propagateHardFacts (some .FALSE) (List.replicate n .propagate ++ [.fail])
  | assumptions (n : Nat) : Plays .propagateAssumedFacts none (List.replicate n .propagate)
  | assumptionsRefuted (n : Nat) : Plays .propagateAssumedFacts (some .FALSE) (List.replicate n .propagate ++ [.fail])
  | decide {l : CNFLit} (n : Nat) : Plays (.decide l) none (.decide l :: List.replicate n .propagate)
  | resolve {lowLBD : Bool} (n : Nat) : Plays (.resolve lowLBD) none (.learn :: .backjump :: List.replicate n .propagate)
  | resolveRestart {lowLBD : Bool} : Plays (.resolve lowLBD) none [.learn, .restart]
  | restart {stopRequested : Bool} : Plays (.continue true stopRequested) none [.restart]
  | stopped : Plays (.continue false true) (some .INDETERMINATE) [.restart]
  | continue {stopRequested : Bool} : Plays (.continue false stopRequested) none []
  | finish : Plays .finish (some .TRUE) [.succeed]

theorem conclude_abstraction (m : Machine) (s : CDCLSatSolver) (result : TBool) (failedAssumptions : List CNFLit) :
    (m.conclude s result failedAssumptions).abstraction = ⟨[], s.database ∪ units {l | l ∈ m.assumedFacts}⟩ := by
  unfold Machine.conclude concludeSolve Machine.abstraction
  dsimp only
  split
  · rw [backtrackAll_abstraction, (Similar.finalizeProofOnUnsat s).database]
  · exact backtrackAll_abstraction s m.assumedFacts

def Refines (m : Machine) (e : Event) (m' : Machine) : Prop :=
  ∃ rules, Plays e m'.control.verdict rules ∧ Path m.abstraction rules m'.abstraction

theorem Refines.concluded {result : TBool} {failedAssumptions : List CNFLit} {rules : List (Rule CNFLit)}
    (hp : Plays e (some result) rules)
    (h : Path m.abstraction rules ⟨[], s.database ∪ units {l | l ∈ m.assumedFacts}⟩) :
    Refines m e (m.conclude s result failedAssumptions) := by
  rw [← conclude_abstraction m s result failedAssumptions] at h
  exact ⟨rules, hp, h⟩

theorem refines_continue {shouldRestart stopRequested : Bool}
    (hs : m.step (.continue shouldRestart stopRequested) = some m') :
    Refines m (.continue shouldRestart stopRequested) m' := by
  have hrestart : Path (m.solver.abstraction m.assumedFacts) [.restart]
      ⟨[], m.solver.database ∪ units {l | l ∈ m.assumedFacts}⟩ := .single .restart
  cases transition_of_step hs with
  | restart _ =>
    rw [← backtrackAll_abstraction] at hrestart
    exact ⟨_, .restart, hrestart⟩
  | stopped _ _ => exact .concluded .stopped hrestart
  | «continue» _ _ => exact ⟨_, .continue, .nil _⟩

section
variable (h : Inv m)
include h

theorem Inv.refines_stop (hs : m.step .stop = some m') : Refines m .stop m' := by
  obtain ⟨-, hat, -⟩ := h
  cases transition_of_step hs with
  | stop hc =>
    rw [hc] at hat
    cases hat with
    | restarting hr hres hclean =>
      have hpath : Path (m.solver.abstraction m.assumedFacts) [.restart]
          ⟨[], m.solver.database ∪ units {l | l ∈ m.assumedFacts}⟩ := .single .restart
      exact .concluded .stop hpath

theorem Inv.refines_trySimplify (hs : m.step .trySimplify = some m') : Refines m .trySimplify m' := by
  obtain ⟨hdata, hat, -⟩ := h
  cases transition_of_step hs with
  | simplifyRefuted hc he =>
    rw [hc] at hat
    cases hat with
    | restarting hr hres hclean =>
      obtain ⟨n, hpath⟩ := hres.path_simplifyRefuted hdata (congrArg Prod.fst he)
      rw [he] at hpath
      exact .concluded (.simplifyRefuted n) hpath
  | simplify hc he =>
    rw [hc] at hat
    cases hat with
    | restarting hr hres hclean =>
      have hpath : Path (m.solver.abstraction m.assumedFacts) _ _ :=
        hres.path_simplify hdata hr.sane (congrArg Prod.fst he)
      rw [he] at hpath
      exact ⟨_, .simplify, hpath⟩

theorem Inv.refines_tryReduceClauseDB {sorted : List ClauseRef} {lowLBD : Bool}
    (hs : m.step (.tryReduceClauseDB sorted lowLBD) = some m') : Refines m (.tryReduceClauseDB sorted lowLBD) m' := by
  obtain ⟨hdata, hat, -⟩ := h
  cases transition_of_step hs with
  | reduce hc hp =>
    rw [hc] at hat
    cases hat with
    | simplified hr hres => exact ⟨_, .reduce, hres.path_reduce hdata hr.sane hp lowLBD⟩

theorem Inv.refines_propagateHardFacts (hs : m.step .propagateHardFacts = some m') :
    Refines m .propagateHardFacts m' := by
  obtain ⟨hdata, hat, -⟩ := h
  cases transition_of_step hs with
  | factsRefuted hc he =>
    rw [hc] at hat
    cases hat with
    | reduced hr hres =>
      obtain ⟨n, hpath⟩ := hres.path_factsRefuted hdata (congrArg Prod.fst he)
      rw [he] at hpath
      exact .concluded (.factsRefuted n) hpath
  | facts hc he =>
    rw [hc] at hat
    cases hat with
    | reduced hr hres =>
      have hpath : ∃ n, Path (m.solver.abstraction m.assumedFacts) (List.replicate n .propagate ++ [.learn]) _ :=
        hres.path_facts hdata hr.sane (congrArg Prod.fst he)
      rw [he] at hpath
      exact hpath.elim fun n hpath => ⟨_, .facts n, hpath⟩

theorem Inv.refines_propagateAssumedFacts (hs : m.step .propagateAssumedFacts = some m') :
    Refines m .propagateAssumedFacts m' := by
  obtain ⟨hdata, hat, -⟩ := h
  cases transition_of_step hs with
  | @assumptionsRefuted _ fact _ hc he ha =>
    rw [hc] at hat
    cases hat with
    | assuming hr hsearch hsteady h₁ =>
      obtain ⟨n, -, hpath⟩ := hsearch.path_assumptions hdata hsteady h₁ hr.vars he
      exact .concluded (.assumptionsRefuted n) (hpath (Option.some_ne_none fact))
  | assumptions hc he =>
    rw [hc] at hat
    cases hat with
    | assuming hr hsearch hsteady h₁ =>
      obtain ⟨n, hpath, -⟩ := hsearch.path_assumptions hdata hsteady h₁ hr.vars he
      exact ⟨_, .assumptions n, hpath rfl⟩

theorem Inv.refines_decide {l : CNFLit} (hs : m.step (.decide l) = some m') : Refines m (.decide l) m' := by
  obtain ⟨-, hat, -⟩ := h
  cases transition_of_step hs with
  | decide hc hl he =>
    rw [hc] at hat
    cases hat with
    | deciding hr hassumed hsteady =>
      obtain ⟨n, hpath⟩ := hassumed.path_decide hsteady hl.2.1 hl.2.2
      rw [he] at hpath
      exact ⟨_, .decide n, hpath⟩
  | decideConflict hc hl he =>
    rw [hc] at hat
    cases hat with
    | deciding hr hassumed hsteady =>
      obtain ⟨n, hpath⟩ := hassumed.path_decide hsteady hl.2.1 hl.2.2
      rw [he] at hpath
      exact ⟨_, .decide n, hpath⟩

theorem Inv.refines_resolve {lowLBD : Bool} (hs : m.step (.resolve lowLBD) = some m') :
    Refines m (.resolve lowLBD) m' := by
  obtain ⟨hdata, hat, -⟩ := h
  cases transition_of_step hs with
  | resolve hc he =>
    rw [hc] at hat
    cases hat with
    | conflict hr hassumed hclash h₂ =>
      obtain ⟨n, hpath⟩ := hassumed.path_resolve hdata hclash h₂ hr.sane he ResolveResult.noConfusion
      exact ⟨_, .resolve n, hpath⟩
  | resolveRestart hc he =>
    rw [hc] at hat
    cases hat with
    | conflict hr hassumed hclash h₂ =>
      exact ⟨_, .resolveRestart, hassumed.path_resolveRestart hdata hclash h₂ hr.sane he⟩
  | resolveConflict hc he =>
    rw [hc] at hat
    cases hat with
    | conflict hr hassumed hclash h₂ =>
      obtain ⟨n, hpath⟩ := hassumed.path_resolve hdata hclash h₂ hr.sane he ResolveResult.noConfusion
      exact ⟨_, .resolve n, hpath⟩

theorem Inv.refines_finish (hs : m.step .finish = some m') : Refines m .finish m' := by
  obtain ⟨hdata, hat, -⟩ := h
  cases transition_of_step hs with
  | finish hc hcomplete =>
    rw [hc] at hat
    cases hat with
    | deciding hr hassumed hsteady =>
      have hpath : Path (m.solver.abstraction m.assumedFacts) [.succeed]
          ⟨[], m.solver.database ∪ units {l | l ∈ m.assumedFacts}⟩ :=
        .single (.succeed (hassumed.satisfied hdata hsteady hcomplete))
      exact .concluded .finish hpath

theorem Inv.refines (hi : e.internal = true) (hs : m.step e = some m') : Refines m e m' := by
  cases e with
  | addClause clause => cases hi
  | addProblem clauses => cases hi
  | setDRATCertificate => cases hi
  | solve assumedFacts => cases hi
  | stop => exact h.refines_stop hs
  | trySimplify => exact h.refines_trySimplify hs
  | tryReduceClauseDB sorted lowLBD => exact h.refines_tryReduceClauseDB hs
  | propagateHardFacts => exact h.refines_propagateHardFacts hs
  | propagateAssumedFacts => exact h.refines_propagateAssumedFacts hs
  | decide l => exact h.refines_decide hs
  | resolve lowLBD => exact h.refines_resolve hs
  | «continue» shouldRestart stopRequested => exact refines_continue hs
  | finish => exact h.refines_finish hs

end

theorem Plays.rules {verdict : Option TBool} {rules : List (Rule CNFLit)} (h : Plays e verdict rules) :
    (.fail ∈ rules ↔ verdict = some .FALSE) ∧ (.succeed ∈ rules ↔ verdict = some .TRUE) ∧
      rules.filterMap Rule.decided = e.decided.toList := by
  cases h <;> simp [Rule.decided, Event.decided, List.filterMap_replicate]

/-- Each step of a `solve` call is a path of the abstract system. -/
theorem step_refines (h : m.Reachable) (hi : e.internal = true) (hs : m.step e = some m') :
    ∃ rules, Plays e m'.control.verdict rules ∧ Path m.abstraction rules m'.abstraction :=
  (Inv.of_reachable h).refines hi hs

theorem inConflict_refines : ∃ m', inConflict.step (.resolve false) = some m' ∧
    ∃ rules, Plays (.resolve false) m'.control.verdict rules ∧ Path inConflict.abstraction rules m'.abstraction := by
  have hm : inConflict.Reachable := .run_get (.init rfl) (by decide) _
  obtain ⟨m', hs⟩ : ∃ m', inConflict.step (.resolve false) = some m' := Option.isSome_iff_exists.mp (by decide +kernel)
  exact ⟨m', hs, step_refines hm rfl hs⟩

/-! ## The trail during a call -/

theorem busy_of_internal (hi : e.internal = true) (hs : m.step e = some m') (r : Option SolvingResult) :
    m.control ≠ .ready r := by
  intro hr
  unfold Machine.step at hs
  cases e with
  | addClause clause => cases hi
  | addProblem clauses => cases hi
  | setDRATCertificate => cases hi
  | solve assumedFacts => cases hi
  | _ =>
    rw [hr] at hs
    cases hs

def problem (m : Machine) : Set (Finset CNFLit) := addedSets m.added ∪ units {l | l ∈ m.assumedFacts}

/-- `solve` starts with an empty trail and with clauses that are equivalent to the problem. -/
theorem Inv.abstraction_solve (h : Inv m) {assumedFacts : List CNFLit} (hreg : (Event.solve assumedFacts).Regular)
    (hd : m.solver.detectedUNSAT = false) (hs : m.step (.solve assumedFacts) = some m') :
    m'.abstraction.trail = [] ∧ AbstractCDCL.Inv m'.problem m'.abstraction ∧ m'.control.verdict = none := by
  have hinv := h.solve hreg hs
  cases transition_of_step hs with
  | solveDetected hc hd' => exact absurd (hd'.symm.trans hd) Bool.noConfusion
  | solve hc _ =>
    obtain ⟨hdata, hat, -⟩ := hinv
    cases hat with
    | restarting hr hres hclean =>
      exact ⟨congrArg State.trail hres.abstraction_eq, hres.inv_abstraction hdata hr.sane, rfl⟩

theorem problem_of_internal (hi : e.internal = true) (hs : m.step e = some m') : m'.problem = m.problem := by
  obtain ⟨hadded, hassumed⟩ := frame_of_internal hi hs
  rw [problem, problem, hadded, hassumed]

/-- The invariants of the solver and, during a call, of the abstract system. -/
theorem abstraction_inv (h : m.Reachable) :
    Inv m ∧ ((∀ r, m.control ≠ .ready r) → AbstractCDCL.Inv m.problem m.abstraction) := by
  refine Runs.Reachable.invariant
    (I := fun m => Inv m ∧ ((∀ r, m.control ≠ .ready r) → AbstractCDCL.Inv m.problem m.abstraction)) h ?_ ?_
  · rintro m rfl
    exact ⟨.new, fun hb => absurd rfl (hb none)⟩
  · rintro m m' ⟨hinv, habs⟩ ⟨e, hreg, hs⟩
    refine ⟨hinv.step hreg hs, fun hb => ?_⟩
    by_cases hi : e.internal = true
    · obtain ⟨rules, -, hpath⟩ := hinv.refines hi hs
      rw [problem_of_internal hi hs]
      exact (habs (busy_of_internal hi hs)).path hpath
    · cases e with
      | solve assumedFacts =>
        have hd : m.solver.detectedUNSAT = false := by
          cases transition_of_step hs with
          | solveDetected _ _ => exact absurd rfl (hb _)
          | solve _ hd => exact hd
        exact (hinv.abstraction_solve hreg hd hs).2.1
      | addClause clause =>
        cases transition_of_step hs with
        | addClause _ => exact absurd rfl (hb _)
      | addProblem clauses =>
        cases transition_of_step hs with
        | addProblem _ => exact absurd rfl (hb _)
      | setDRATCertificate =>
        cases transition_of_step hs with
        | setDRATCertificate _ => exact absurd rfl (hb _)
      | _ => exact absurd rfl hi

/-- During a call every literal of the trail that is not a decision follows from the
problem and the decisions before it. -/
theorem trail_implied (h : m.Reachable) (hb : ∀ r, m.control ≠ .ready r) {pre : List CNFLit} {l : CNFLit}
    (hp : pre ++ [l] <+: m.solver.assignment.trail) (hl : m.solver.assignment.isDecision l = false) :
    Entails (m.problem ∪ units {d | d ∈ pre ∧ m.solver.assignment.isDecision d = true}) {l} := by
  intro σ hσ
  obtain ⟨hproblem, hdecisions⟩ := models_union.mp hσ
  have hmarked : m.solver.assignment.marked pre ++ [(l, false)] <+: m.abstraction.trail := by
    rw [← hl]
    obtain ⟨rest, hr⟩ := hp
    refine ⟨m.solver.assignment.marked rest, ?_⟩
    show _ = m.solver.assignment.marked m.solver.assignment.trail
    rw [← hr, Assignment.marked_append, Assignment.marked_append]
    rfl
  refine ⟨l, Finset.mem_singleton_self l, ((abstraction_inv h).2 hb).implied _ l hmarked σ hproblem fun d hd => ?_⟩
  obtain ⟨x, hx, he⟩ := List.mem_map.mp hd
  obtain ⟨rfl, hmark⟩ := Prod.mk.inj he
  exact models_units.mp hdecisions x ⟨hx, hmark⟩

theorem inConflict_implied :
    Entails (inConflict.problem ∪ units {d | d ∈ [⟨0, .negative⟩] ∧ inConflict.solver.assignment.isDecision d = true})
      {⟨1, .positive⟩} := by
  have hm : inConflict.Reachable := .run_get (.init rfl) (by decide) _
  have hc : inConflict.control = .conflict 1 := Control.eq_of_conflictingClause (by decide +kernel)
  exact trail_implied hm (fun r hr => Control.noConfusion (hc.symm.trans hr)) (by decide +kernel) (by decide +kernel)

/-! ## Whole calls -/

theorem verdict_of_busy (hb : ∀ r, m.control ≠ .ready r) : m.control.verdict = none := by
  cases hv : m.control.verdict with
  | none => rfl
  | some b =>
    obtain ⟨r, hr, -⟩ := Control.exists_of_verdict hv
    exact absurd hr (hb _)

theorem filterMap_decided (e : Event) (run : List Event) :
    (e :: run).filterMap Event.decided = e.decided.toList ++ run.filterMap Event.decided := by
  cases e <;> rfl

theorem Inv.run_refines {run : List Event} (h : Inv m) (hv : m.control.verdict = none)
    (hi : ∀ e ∈ run, e.internal = true) (hs : m.run run = some m') :
    ∃ rules, Path m.abstraction rules m'.abstraction ∧
      (.fail ∈ rules ↔ m'.control.verdict = some .FALSE) ∧ (.succeed ∈ rules ↔ m'.control.verdict = some .TRUE) ∧
      rules.filterMap Rule.decided = run.filterMap Event.decided := by
  induction run generalizing m with
  | nil =>
    cases hs
    rw [hv]
    exact ⟨[], .nil _, by simp⟩
  | cons e run ih =>
    obtain ⟨he, hrun⟩ := List.forall_mem_cons.mp hi
    obtain ⟨u, hu, hs⟩ := Option.bind_eq_some_iff.mp hs
    obtain ⟨rules, hplays, hpath⟩ := h.refines he hu
    obtain ⟨hfail, hsucceed, hdecided⟩ := hplays.rules
    cases run with
    | nil =>
      cases hs
      refine ⟨rules, hpath, hfail, hsucceed, ?_⟩
      rw [hdecided, filterMap_decided, List.filterMap_nil, List.append_nil]
    | cons e' run =>
      -- the call goes on: `u` has not returned
      have hvu : u.control.verdict = none := by
        obtain ⟨v, hv, -⟩ := Option.bind_eq_some_iff.mp hs
        exact verdict_of_busy (busy_of_internal (hrun e' List.mem_cons_self) hv)
      obtain ⟨rules', hpath', hfail', hsucceed', hdecided'⟩ := ih (h.step (regular_of_internal he) hu) hvu hrun hs
      rw [hvu] at hfail hsucceed
      refine ⟨rules ++ rules', hpath.append hpath', ?_, ?_, ?_⟩
      · rw [List.mem_append, ← hfail', hfail]
        exact or_iff_right fun hn => absurd hn.symm (Option.some_ne_none _)
      · rw [List.mem_append, ← hsucceed', hsucceed]
        exact or_iff_right fun hn => absurd hn.symm (Option.some_ne_none _)
      · rw [List.filterMap_append, hdecided, hdecided', filterMap_decided e]

/-- A whole call of `solve` is a run of the abstract system on the clauses and the
assumptions, with the decisions of the call, which ends in failure or success
exactly where the call says so. A failure refutes them. -/
theorem solve_refines {assumedFacts : List CNFLit} {run : List Event} {r : SolvingResult} (h : m.Reachable)
    (ha : ∀ l ∈ assumedFacts, l.var < CNFVar.undefinedVariable) (hd : m.solver.detectedUNSAT = false)
    (hs : m.solve assumedFacts run = some (r, m')) :
    ∃ clauses rules, (∀ σ : Valuation CNFLit, σ.Models clauses ↔
        σ.Models (addedSets m.added ∪ units {l | l ∈ assumedFacts})) ∧
      Path ⟨[], clauses⟩ rules m'.abstraction ∧ (.fail ∈ rules ↔ r.isProblemSatisfiable = .FALSE) ∧
      (.succeed ∈ rules ↔ r.isProblemSatisfiable = .TRUE) ∧
      rules.filterMap Rule.decided = run.filterMap Event.decided ∧
      (.fail ∈ rules → Unsat (addedSets m.added ∪ units {l | l ∈ assumedFacts})) := by
  have hinv := Inv.of_reachable h
  unfold Machine.solve at hs
  split at hs
  · rename_i hi
    have hi := List.all_eq_true.mp hi
    obtain ⟨u, hu, hs⟩ := Option.bind_eq_some_iff.mp hs
    obtain ⟨v, hv, hu⟩ := Option.bind_eq_some_iff.mp hu
    obtain ⟨hnil, habs, hvv⟩ := hinv.abstraction_solve ha hd hv
    obtain ⟨hadded, hassumed⟩ := added_of_solve hv
    obtain ⟨rules, hpath, hfail, hsucceed, hdecided⟩ := (hinv.solve ha hv).run_refines hvv hi hu
    split at hs
    · rename_i r' hc
      obtain ⟨rfl, rfl⟩ := Prod.mk.inj (Option.some.inj hs)
      rw [hc] at hfail hsucceed
      have hmodels : ∀ σ : Valuation CNFLit, σ.Models v.abstraction.clauses ↔
          σ.Models (addedSets m.added ∪ units {l | l ∈ assumedFacts}) := fun σ => by
        rw [habs.models σ, problem, hadded, hassumed]
      have hstart : v.abstraction = ⟨[], v.abstraction.clauses⟩ := by
        rw [← hnil]
      rw [hstart] at hpath
      exact ⟨v.abstraction.clauses, rules, hmodels, hpath, hfail.trans Option.some_inj, hsucceed.trans Option.some_inj,
        hdecided, (AbstractCDCL.Inv.init hmodels).unsat_of_path hpath⟩
    · cases hs
  · cases hs

def beforeCall : Machine := (new.run (firstConflict.take 2)).get (by decide +kernel)

def wholeCall : List Event :=
  firstConflict.drop 3 ++ [.resolve false, .trySimplify, .tryReduceClauseDB [] false, .propagateHardFacts,
    .propagateAssumedFacts, .decide ⟨1, .negative⟩, .continue false false, .finish]

theorem wholeCall_refines : ∃ r m', beforeCall.solve [] wholeCall = some (r, m') ∧
    ∃ clauses rules, (∀ σ : Valuation CNFLit, σ.Models clauses ↔
        σ.Models (addedSets beforeCall.added ∪ units {l | l ∈ []})) ∧
      Path ⟨[], clauses⟩ rules m'.abstraction ∧ (.fail ∈ rules ↔ r.isProblemSatisfiable = .FALSE) ∧
      (.succeed ∈ rules ↔ r.isProblemSatisfiable = .TRUE) ∧
      rules.filterMap Rule.decided = wholeCall.filterMap Event.decided ∧
      (.fail ∈ rules → Unsat (addedSets beforeCall.added ∪ units {l | l ∈ []})) := by
  have hm : beforeCall.Reachable := .run_get (.init rfl) (by decide) _
  obtain ⟨⟨r, m'⟩, hs⟩ : ∃ e, beforeCall.solve [] wholeCall = some e := Option.isSome_iff_exists.mp (by decide +kernel)
  exact ⟨r, m', hs, solve_refines hm (List.forall_mem_nil _) (by decide +kernel) hs⟩

end Machine

end JamSAT
