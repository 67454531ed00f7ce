import JamSAT.AssignmentAnalysisSound
import JamSAT.SolverRuns

/-!
# Failed assumptions

On level 1 the trail holds exactly what unit propagation derives from the
assumptions so far. The list that a `solve` call returns is a core if the
assumption at which it stops is false because of a clause. If its negation is an
assumption itself, or if its own propagation fails, the list has no other entry.
-/

namespace JamSAT

open UnitLogic

namespace Assignment

variable {facts pre rest : List CNFLit} {fact : CNFLit} {s t u : Assignment}

inductive Passes (s : Assignment) (fact : CNFLit) : Assignment → Prop
  | held (h : s.getAssignment fact = .TRUE) : Passes s fact s
  | appended {t : Assignment} (h : s.getAssignment fact = .INDETERMINATE)
    (ha : s.append fact .includeLemmas = (none, t)) : Passes s fact t

inductive Stops (s : Assignment) (fact : CNFLit) : Assignment → Prop
  | isFalse (h : s.getAssignment fact = .FALSE) : Stops s fact s
  | clash {c : ClauseRef} {t : Assignment} (h : s.getAssignment fact = .INDETERMINATE)
    (ha : s.append fact .includeLemmas = (some c, t)) : Stops s fact t

theorem appendFacts_cons (s : Assignment) (fact : CNFLit) :
    (∃ t, Passes s fact t ∧ ∀ facts, s.appendFacts (fact :: facts) = t.appendFacts facts) ∨
      ∃ t, Stops s fact t ∧ ∀ facts, s.appendFacts (fact :: facts) = (some fact, t) := by
  cases hval : s.getAssignment fact with
  | TRUE =>
    refine .inl ⟨s, .held hval, fun facts => ?_⟩
    conv_lhs => unfold appendFacts
    rw [hval]
  | FALSE =>
    refine .inr ⟨s, .isFalse hval, fun facts => ?_⟩
    conv_lhs => unfold appendFacts
    rw [hval]
  | INDETERMINATE =>
    cases happ : s.append fact .includeLemmas with
    | mk r t =>
      cases r with
      | none =>
        refine .inl ⟨t, .appended hval happ, fun facts => ?_⟩
        conv_lhs => unfold appendFacts
        rw [hval]
        dsimp only
        rw [happ]
      | some c =>
        refine .inr ⟨t, .clash hval happ, fun facts => ?_⟩
        conv_lhs => unfold appendFacts
        rw [hval]
        dsimp only
        rw [happ]

theorem exists_of_appendFacts_none (h : s.appendFacts (pre ++ rest) = (none, t)) :
    ∃ u, s.appendFacts pre = (none, u) ∧ u.appendFacts rest = (none, t) := by
  induction pre generalizing s with
  | nil => exact ⟨s, rfl, h⟩
  | cons fact pre ih =>
    rw [List.cons_append] at h
    cases appendFacts_cons s fact with
    | inl hp =>
      obtain ⟨u, -, hu⟩ := hp
      rw [hu] at h ⊢
      exact ih h
    | inr hs =>
      obtain ⟨u, -, hu⟩ := hs
      rw [hu] at h
      cases h

theorem exists_of_appendFacts_some (h : s.appendFacts facts = (some fact, t)) :
    ∃ pre post u, facts = pre ++ fact :: post ∧ s.appendFacts pre = (none, u) ∧ Stops u fact t ∧
      s.appendFacts (pre ++ [fact]) = (some fact, t) := by
  induction facts generalizing s with
  | nil => cases h
  | cons l facts ih =>
    cases appendFacts_cons s l with
    | inl hp =>
      obtain ⟨v, -, hv⟩ := hp
      rw [hv] at h
      obtain ⟨pre, post, u, he, hpre, hu, hfact⟩ := ih h
      refine ⟨l :: pre, post, u, ?_, ?_, hu, ?_⟩
      · rw [he, List.cons_append]
      · rw [hv, hpre]
      · rw [List.cons_append, hv, hfact]
    | inr hs =>
      obtain ⟨v, hstop, hv⟩ := hs
      rw [hv] at h
      cases h
      exact ⟨[], facts, s, rfl, rfl, hstop, hv []⟩

section
variable {R K Z : Set ClauseRef} {dead : Set CNFLit}

theorem Steady.grows (h : Steady R K Z dead s) (hv : ∀ l ∈ facts, l.var < s.size)
    (he : s.appendFacts facts = (none, t)) : Grows s t := by
  have hend := h.appendFacts hv
  rw [he] at hend
  exact hend.2.1.grows

theorem Steady.appended (h : Steady R K Z dead s) (hv : ∀ l ∈ fact :: facts, l.var < s.size)
    (he : s.appendFacts (fact :: facts) = (none, t)) :
    fact ∈ s.trail ∨ t.getReason fact.var = none ∧ t.getLevel fact.var = s.currentLevel := by
  obtain ⟨hvf, hv⟩ := List.forall_mem_cons.mp hv
  cases appendFacts_cons s fact with
  | inr hs =>
    obtain ⟨u, -, hu⟩ := hs
    rw [hu] at he
    cases he
  | inl hp =>
    obtain ⟨u, hu, hrest⟩ := hp
    rw [hrest] at he
    cases hu with
    | held hval => exact .inl ((h.trailInv.mem_trail fact).mpr hval)
    | appended hval happ =>
      have hend := h.append hval hvf
      rw [happ] at hend
      obtain ⟨hready, ha⟩ := hend
      have hg : Grows u t := (Steady.ready hready).grows (fun l hl => (hv l hl).trans_eq ha.grows.size.symm) he
      have hnew : fact ∉ s.trail := fun hm => by
        rw [(h.trailInv.mem_trail fact).mp hm] at hval
        cases hval
      refine .inr ⟨(hg.getReason ha.mem).trans ha.reason, (hg.getLevel ha.mem).trans ?_⟩
      exact ha.grows.level_new h.trailInv hready.core.trail ha.mem hnew

end

theorem Rooted.mono {assumedFacts assumedFacts' : List CNFLit} (h : Rooted facts assumedFacts s)
    (hs : assumedFacts ⊆ assumedFacts') : Rooted facts assumedFacts' s :=
  ⟨h.facts_mem, h.root, fun l hl h₁ hr => hs (h.assumed l hl h₁ hr), h.decision⟩

end Assignment

/-! ## The assumption at which the propagation stops -/

/-- `D` is what is propagated and `Φ` what has been added. The first assumption
that fails has been refuted by the assumptions before its negation, or `Φ` refutes
it alone. -/
def Explained (D Φ : Set (Finset CNFLit)) (assumedFacts : List CNFLit) : Prop :=
  ∀ pre fact, pre ++ [fact] <+: assumedFacts → ¬ Conflict D {l | l ∈ pre} → Conflict D {l | l ∈ pre ++ [fact]} →
    (∃ p, p <+: pre ∧ -fact ∉ p ∧ Derives D {l | l ∈ p} (-fact)) ∨ Unsat (insert {fact} Φ)

section
variable {D Φ : Set (Finset CNFLit)} {assumedFacts pre pre' : List CNFLit} {fact : CNFLit}

theorem conflict_mono (hp : pre <+: pre') (h : Conflict D {l | l ∈ pre}) : Conflict D {l | l ∈ pre'} :=
  h.cut subset_rfl fun _ hl => .given (hp.subset hl)

theorem explained_of_consistent (h : ¬ Conflict D {l | l ∈ assumedFacts}) : Explained D Φ assumedFacts :=
  fun _ _ hp _ hc => absurd (conflict_mono hp hc) h

/-- There is only one assumption at which the propagation may stop. -/
theorem explained_iff (hp : pre ++ [fact] <+: assumedFacts) (hn : ¬ Conflict D {l | l ∈ pre})
    (hc : Conflict D {l | l ∈ pre ++ [fact]}) : Explained D Φ assumedFacts ↔
      (∃ p, p <+: pre ∧ -fact ∉ p ∧ Derives D {l | l ∈ p} (-fact)) ∨ Unsat (insert {fact} Φ) := by
  refine ⟨fun h => h pre fact hp hn hc, fun h pre' fact' hp' hn' hc' => ?_⟩
  have he : pre ++ [fact] = pre' ++ [fact'] := by
    cases List.prefix_or_prefix_of_prefix hp hp' with
    | inl hle =>
      apply (List.prefix_concat_iff.mp hle).resolve_right
      intro hin
      exact hn' (conflict_mono hin hc)
    | inr hle =>
      apply Eq.symm
      apply (List.prefix_concat_iff.mp hle).resolve_right
      intro hin
      exact hn (conflict_mono hin hc')
  obtain ⟨rfl, hfact⟩ := List.append_inj' he rfl
  obtain rfl := List.singleton_inj.mp hfact
  exact h

end

namespace CDCLSatSolver

open Assignment

variable {Φ : Set (Finset CNFLit)} {K Z : Set ClauseRef} {dead : Set CNFLit} {s : CDCLSatSolver}
  {assumedFacts pre : List CNFLit} {fact : CNFLit} {t u : Assignment}

/-! ## Completeness of unit propagation -/

theorem Searching.closed (h : Searching K dead assumedFacts s) (hdata : Data Φ s)
    (hs : Steady s.clauses K Z dead s.assignment) : PropagationClosed s.database {l | l ∈ s.assignment.trail} :=
  hs.closed (fun l hl => (h.rooted.facts_mem l hl).1) h.dead_false h.kept hdata.satisfied

section
variable (h : Assumed K dead assumedFacts s) (hdata : Data Φ s) (hs : Steady s.clauses K Z dead s.assignment)
include h hdata hs

theorem Assumed.consistent : ¬ Conflict s.database {l | l ∈ assumedFacts} :=
  (h.closed hdata hs).not_conflict fun l hl => (h.held l hl).1

theorem Assumed.mem_trail_iff (h₁ : s.assignment.currentLevel = 1) {l : CNFLit} :
    l ∈ s.assignment.trail ↔ Derives s.database {l | l ∈ assumedFacts} l := by
  refine ⟨fun hl => ?_, (h.closed hdata hs).mem_of_derives fun l hl => (h.held l hl).1⟩
  cases hs with
  | idle hi =>
    rw [hi.nil] at hl
    cases hl
  | ready hr => exact h.derives hr.core l hl ((hr.core.trail.level_le l hl).trans_eq h₁)

end

/-! ## The propagation of the assumptions -/

structure Unassumed (K Z : Set ClauseRef) (dead : Set CNFLit) (s : CDCLSatSolver) : Prop
    extends Searching K dead [] s where
  steady : Steady s.clauses K Z dead s.assignment
  level_one : s.assignment.currentLevel = 1

structure Propagated (Φ : Set (Finset CNFLit)) (K Z : Set ClauseRef) (dead : Set CNFLit) (pre : List CNFLit)
    (s : CDCLSatSolver) (t : Assignment) : Prop where
  grown : Grown pre s.assignment t
  searching : Searching K dead pre { s with assignment := t }
  data : Data Φ { s with assignment := t }
  level_one : t.currentLevel = 1

section
variable (h : Unassumed K Z dead s) (hdata : Data Φ s)
include h hdata

theorem Unassumed.propagateFacts (hv : ∀ l ∈ assumedFacts, l.var ≤ s.maxVar) :
    FactsEnd s.clauses K Z dead assumedFacts s.assignment (s.assignment.appendFacts assumedFacts) ∧
      Propagated Φ K Z dead assumedFacts s (s.assignment.appendFacts assumedFacts).2 := by
  have hsearch : Searching K dead assumedFacts s :=
    ⟨h.toLinked, h.rooted.mono (List.nil_subset _), h.one_le⟩
  obtain ⟨hend, hsearch', hdata', h₁⟩ := hsearch.propagateFacts hdata h.steady h.level_one hv
  have hgrown : Grown assumedFacts s.assignment (s.assignment.appendFacts assumedFacts).2 := by
    revert hend
    cases s.assignment.appendFacts assumedFacts with
    | mk r t =>
      intro hend
      cases r with
      | none => exact hend.2.1
      | some fact => exact hend.2.1
  exact ⟨hend, hgrown, hsearch', hdata', h₁⟩

theorem Unassumed.passed (hv : ∀ l ∈ pre, l.var ≤ s.maxVar) (hp : s.assignment.appendFacts pre = (none, t)) :
    Propagated Φ K Z dead pre s t ∧ Assumed K dead pre { s with assignment := t } ∧
      Steady s.clauses K Z dead t := by
  obtain ⟨hend, hprop⟩ := h.propagateFacts hdata hv
  rw [hp] at hend hprop
  obtain ⟨hsteady, -, hheld⟩ := hend
  refine ⟨hprop, ⟨hprop.searching, fun l hl => ⟨hheld l hl, ?_⟩⟩, hsteady⟩
  exact (hsteady.trailInv.level_le l (hheld l hl)).trans_eq hprop.level_one

omit h hdata in
theorem Propagated.database (hp : Propagated Φ K Z dead pre s t) :
    CDCLSatSolver.database { s with assignment := t } = s.database := (Similar.of_grows hp.grown.grows).database

omit h hdata in
theorem Propagated.lt_size (hp : Propagated Φ K Z dead pre s t) (hv : ∀ l ∈ assumedFacts, l.var ≤ s.maxVar) :
    ∀ l ∈ assumedFacts, l.var < t.size := fun l hl =>
  (Nat.lt_succ_of_le (hv l hl)).trans_eq hp.searching.size_eq.symm

theorem Unassumed.mem_trail_iff (hv : ∀ l ∈ pre, l.var ≤ s.maxVar) (hp : s.assignment.appendFacts pre = (none, t))
    {l : CNFLit} : l ∈ t.trail ↔ Derives s.database {l | l ∈ pre} l := by
  obtain ⟨hprop, hassumed, hsteady⟩ := h.passed hdata hv hp
  rw [← hprop.database]
  exact hassumed.mem_trail_iff hprop.data hsteady hprop.level_one

theorem Unassumed.consistent (hv : ∀ l ∈ pre, l.var ≤ s.maxVar) (hp : s.assignment.appendFacts pre = (none, t)) :
    ¬ Conflict s.database {l | l ∈ pre} := by
  obtain ⟨hprop, hassumed, hsteady⟩ := h.passed hdata hv hp
  rw [← hprop.database]
  exact hassumed.consistent hprop.data hsteady

theorem Unassumed.conflict (hv : ∀ l ∈ assumedFacts, l.var ≤ s.maxVar)
    (hp : s.assignment.appendFacts assumedFacts = (some fact, t)) : Conflict s.database {l | l ∈ assumedFacts} := by
  obtain ⟨hend, hprop⟩ := h.propagateFacts hdata hv
  rw [hp] at hend hprop
  obtain ⟨hstop, -, hf⟩ := hend
  rw [← hprop.database]
  exact hprop.searching.conflict_of_stopped hstop hf hprop.level_one

/-- An entry is a fact or has a reason exactly if assumptions that come before it imply it. -/
theorem Unassumed.implied_iff (hv : ∀ l ∈ pre, l.var ≤ s.maxVar) (hp : s.assignment.appendFacts pre = (none, t))
    {x : CNFLit} (hx : x ∈ t.trail) : (t.getReason x.var ≠ none ∨ t.getLevel x.var = 0) ↔
      ∃ p, p <+: pre ∧ x ∉ p ∧ Derives s.database {l | l ∈ p} x := by
  have hsplit : ∀ {p rest}, pre = p ++ rest → ∃ u, u.appendFacts rest = (none, t) ∧ Propagated Φ K Z dead p s u ∧
      Steady s.clauses K Z dead u ∧ (∀ l ∈ rest, l.var < u.size) ∧
      ∀ l, l ∈ u.trail ↔ Derives s.database {l | l ∈ p} l := by
    intro p rest he
    subst he
    obtain ⟨hvp, hvr⟩ := List.forall_mem_append.mp hv
    obtain ⟨u, hu, hrest⟩ := exists_of_appendFacts_none hp
    obtain ⟨hprop, -, hsteady⟩ := h.passed hdata hvp hu
    exact ⟨u, hrest, hprop, hsteady, hprop.lt_size hvr, fun l => h.mem_trail_iff hdata hvp hu⟩
  constructor
  · intro hr
    by_cases hmem : x ∈ pre
    · obtain ⟨p, rest, he, hnp⟩ := List.eq_append_cons_of_mem hmem
      obtain ⟨u, hrest, hprop, hsteady, hvr, hu⟩ := hsplit he
      refine ⟨p, he ▸ List.prefix_append _ _, hnp, (hu x).mp ?_⟩
      apply (hsteady.appended hvr hrest).resolve_right
      intro hn
      rw [hn.1, hn.2, hprop.level_one] at hr
      cases hr with
      | inl hr => exact hr rfl
      | inr hr => cases hr
    · exact ⟨pre, List.prefix_refl _, hmem, (h.mem_trail_iff hdata hv hp).mp hx⟩
  · intro hd
    obtain ⟨p, ⟨rest, he⟩, hnp, hd⟩ := hd
    obtain ⟨u, hrest, hprop, hsteady, hvr, hu⟩ := hsplit he.symm
    have hxu : x ∈ u.trail := (hu x).mpr hd
    have hg : Grows u t := hsteady.grows hvr hrest
    rw [hg.getReason hxu, hg.getLevel hxu]
    by_contra hn
    obtain ⟨hr, h₀⟩ := not_or.mp hn
    have hle : u.getLevel x.var ≤ 1 := (hsteady.trailInv.level_le x hxu).trans_eq hprop.level_one
    exact hnp (hprop.searching.rooted.assumed x hxu (hle.antisymm (Nat.pos_of_ne_zero h₀)) (not_not.mp hr))

/-! ## The analysis of a false assumption -/

structure UnsatCore (Φ : Set (Finset CNFLit)) (assumedFacts failedAssumptions : List CNFLit) : Prop where
  assumed : ∀ l ∈ failedAssumptions, l ∈ assumedFacts
  unsat : Unsat (Φ ∪ units {l | l ∈ failedAssumptions})

omit h in
theorem Searching.unsatCore_of_reason (h : Searching K dead assumedFacts s)
    (hc : Core s.clauses K Z dead s.assignment) (h₁ : s.assignment.currentLevel = 1)
    (hf : -fact ∈ s.assignment.trail)
    (hr : s.assignment.getReason fact.var ≠ none) (hfact : fact ∈ assumedFacts) {failed : List CNFLit}
    (he : AssignmentAnalysis.analyzeAssignment s.assignment.provider s.fuel fact = some failed) :
    UnsatCore Φ assumedFacts failed := by
  have ht := hc.trail
  have hgraph := h.graph hdata hc
  have hv : fact.var ∈ s.assignment.trail.map CNFLit.var := List.mem_map.mpr ⟨-fact, hf, rfl⟩
  have hfuel : s.assignment.trail.length + 1 < s.fuel := Nat.succ_lt_succ (Nat.lt_succ_of_le ht.length_le)
  have hr' : s.assignment.provider.reason fact.var ≠ none := fun hn => hr (Option.map_eq_none_iff.mp hn)
  obtain ⟨tail, he', -, htail⟩ := AssignmentAnalysis.analyzeAssignment_exact hgraph.reasons hfuel hv
  obtain rfl := Option.some.inj (he.symm.trans he')
  have hderives :=
    AssignmentAnalysis.analyzeAssignment_derives hgraph.reasons (Φ := s.database) (fun l hl C hC => ?_)
    hfuel hf hr' he
  · refine ⟨List.forall_mem_cons.mpr ⟨hfact, fun l hl => ?_⟩, fun σ hσ => ?_⟩
    · obtain ⟨hlT, hlev, hreason, -⟩ := (htail l).mp hl
      exact h.rooted.assumed l hlT (hlev.trans h₁) (Option.map_eq_none_iff.mp hreason)
    · obtain ⟨hΦ, hfailed⟩ := models_union.mp hσ
      have hholds := List.forall_mem_cons.mp (models_units.mp hfailed)
      have hD := hdata.implied σ hΦ
      have hn : σ.holds (-fact) := by
        apply hderives.holds hD
        intro a ha
        cases ha with
        | inl ha =>
          have hle : s.assignment.getLevel a.var ≤ 1 := (ht.level_le a ha.1).trans_eq h₁
          have hne : s.assignment.getLevel a.var ≠ 1 := fun he => ha.2 (he.trans h₁.symm)
          have h₀ : s.assignment.getLevel a.var = 0 := by omega
          exact (hgraph.fact a ha.1 h₀).holds hD fun _ hx => hx.elim
        | inr ha => exact hholds.2 a ha
      exact (σ.holds_neg fact).mp hn hholds.1
  · obtain ⟨pre, rest, heq⟩ := List.append_of_mem hl
    have hp : pre ++ [l] <+: s.assignment.trail := ⟨rest, by rw [heq, List.append_assoc, List.singleton_append]⟩
    exact (hgraph.reason pre l hp C hC).2.1

omit h hdata in
theorem unsatCore_singleton (hf : fact ∈ assumedFacts) :
    UnsatCore Φ assumedFacts [fact] ↔ Unsat (insert {fact} Φ) := by
  have he : Φ ∪ units {l | l ∈ [fact]} = insert {fact} Φ := by
    ext C
    simp only [units, Set.mem_union, Set.mem_ofPred_eq, List.mem_singleton, exists_eq_left, Set.mem_insert_iff]
    exact or_comm
  rw [← he]
  exact ⟨fun hc => hc.unsat, fun hu => ⟨List.forall_mem_singleton.mpr hf, hu⟩⟩

omit h hdata in
theorem failed_of_reason_none {failed : List CNFLit} (hr : s.assignment.getReason fact.var = none)
    (he : AssignmentAnalysis.analyzeAssignment s.assignment.provider s.fuel fact = some failed) :
    failed = [fact] := by
  have hr' : s.assignment.provider.reason fact.var = none := Option.map_eq_none_iff.mpr hr
  unfold AssignmentAnalysis.analyzeAssignment at he
  rw [hr'] at he
  exact (Option.some.inj he).symm

/-- The failed assumptions are a core exactly if the one that failed is explained. -/
theorem Unassumed.unsatCore_iff (hv : ∀ l ∈ assumedFacts, l.var ≤ s.maxVar)
    (hp : s.assignment.appendFacts assumedFacts = (some fact, t)) {s' : CDCLSatSolver}
    (hs' : s' = { s with assignment := t }) {failed : List CNFLit}
    (he : AssignmentAnalysis.analyzeAssignment s'.assignment.provider s'.fuel fact = some failed) :
    UnsatCore Φ assumedFacts failed ↔ Explained s.database Φ assumedFacts := by
  obtain ⟨pre, post, u, heq, hu, hstop, hlast⟩ := exists_of_appendFacts_some hp
  have hpre : pre ++ [fact] <+: assumedFacts := ⟨post, by rw [heq, List.append_assoc, List.singleton_append]⟩
  have hf : fact ∈ assumedFacts := hpre.subset (List.mem_append_right _ (List.mem_singleton_self fact))
  have hv' : ∀ l ∈ pre ++ [fact], l.var ≤ s.maxVar := fun l hl => hv l (hpre.subset hl)
  have hvp : ∀ l ∈ pre, l.var ≤ s.maxVar := fun l hl => hv' l (List.mem_append_left _ hl)
  rw [explained_iff hpre (h.consistent hdata hvp hu) (h.conflict hdata hv' hlast)]
  obtain ⟨hprop, hassumed, hsteady⟩ := h.passed hdata hvp hu
  have htrail : ∀ l, l ∈ u.trail ↔ Derives s.database {l | l ∈ pre} l := fun l => h.mem_trail_iff hdata hvp hu
  cases hstop with
  | isFalse hval =>
    have hn : -fact ∈ t.trail := hsteady.trailInv.neg_mem_trail.mpr hval
    have hcore : Core s.clauses K Z dead t := by
      cases hsteady with
      | idle hi =>
        rw [hi.nil] at hn
        cases hn
      | ready hr => exact hr.core
    have hsearch : Searching K dead assumedFacts s' := by
      obtain ⟨hlink, hroot, hle⟩ := hprop.searching
      exact hs' ▸ ⟨hlink, hroot.mono fun l hl => hpre.subset (List.mem_append_left _ hl), hle⟩
    have hdata' : Data Φ s' := hs' ▸ hprop.data
    have hcore' : Core s'.clauses K Z dead s'.assignment := hs' ▸ hcore
    have hn' : -fact ∈ s'.assignment.trail := hs' ▸ hn
    have himplied := h.implied_iff hdata hvp hu hn
    rw [← himplied]
    by_cases hr : t.getReason fact.var = none
    · have hr' : s'.assignment.getReason fact.var = none := hs' ▸ hr
      rw [failed_of_reason_none hr' he, unsatCore_singleton hf]
      refine ⟨.inr, fun hex => ?_⟩
      rcases hex with (hne | h₀) | hunsat
      · exact absurd hr hne
      · -- a fact refutes the assumption
        intro σ hσ
        obtain ⟨hsat, hΦ⟩ := models_insert.mp hσ
        obtain ⟨x, hx, hholds⟩ := hsat
        rw [Finset.mem_singleton.mp hx] at hholds
        have h₀' : s'.assignment.getLevel (-fact).var = 0 := hs' ▸ h₀
        have hneg :=
          ((hsearch.graph hdata' hcore').fact (-fact) hn' h₀').holds (hdata'.implied σ hΦ) fun _ hx => hx.elim
        exact (σ.holds_neg fact).mp hneg hholds
      · exact hunsat
    · have h₁ : s'.assignment.currentLevel = 1 := hs' ▸ hprop.level_one
      have hr' : s'.assignment.getReason fact.var ≠ none := hs' ▸ hr
      exact iff_of_true (hsearch.unsatCore_of_reason hdata' hcore' h₁ hn' hr' hf he) (.inl (.inl hr))
  | clash hval happ =>
    have hend := hsteady.append hval (hprop.lt_size hv fact hf)
    rw [happ] at hend
    have hr : s'.assignment.getReason fact.var = none := hs' ▸ hend.2.reason
    rw [failed_of_reason_none hr he, unsatCore_singleton hf]
    refine ⟨.inr, fun hex => hex.resolve_left fun hd => ?_⟩
    obtain ⟨p, hpp, -, hd⟩ := hd
    have hn : -fact ∈ u.trail := (htrail _).mpr (hd.mono subset_rfl fun _ hl => hpp.subset hl)
    rw [hsteady.trailInv.neg_mem_trail.mp hn] at hval
    cases hval

end

end CDCLSatSolver

namespace Machine

open CDCLSatSolver Assignment

variable {m m' : Machine} {e : Event}

/-! ## The results of `solve` -/

inductive Fails (m : Machine) : Machine → Prop
  | detected (assumedFacts : List CNFLit) (h : m.solver.detectedUNSAT = true) :
    Fails m { m with
      solver := m.solver.finalizeProofOnUnsat
      assumedFacts := assumedFacts
      control := .ready (some ⟨.FALSE, none, []⟩) }
  | simplifying (hc : m.control = .restarting) {s : CDCLSatSolver} (h : m.solver.trySimplify = (true, s)) :
    Fails m (m.conclude s .FALSE [])
  | facts (hc : m.control = .reduced) {s : CDCLSatSolver} (h : m.solver.propagateHardFacts = (true, s)) :
    Fails m (m.conclude s .FALSE [])
  | assumptions (hc : m.control = .assuming) {failed : List CNFLit} {s : CDCLSatSolver}
    (h : m.solver.propagateAssumedFacts m.assumedFacts = some (some failed, s)) :
    Fails m (m.conclude s .FALSE failed)

theorem fails_of_verdict (hs : m.step e = some m') (hv : m'.control.verdict = some .FALSE) : Fails m m' := by
  cases transition_of_step hs with
  | solveDetected hc hd => exact .detected _ hd
  | simplifyRefuted hc he => exact .simplifying hc he
  | factsRefuted hc he => exact .facts hc he
  | assumptionsRefuted hc he ha =>
    refine .assumptions hc ?_
    unfold CDCLSatSolver.propagateAssumedFacts
    rw [he]
    dsimp only
    rw [ha]
    rfl
  -- every other result is not `FALSE`
  | _ => cases hv

theorem step_assuming (hs : m.step e = some m') (hc : m.control = .assuming) : e = .propagateAssumedFacts := by
  unfold step at hs
  rw [hc] at hs
  cases e with
  | propagateAssumedFacts => rfl
  | _ => cases hs

theorem assuming_of_step (hs : m.step e = some m') (hc : m'.control = .assuming) : m.control = .reduced ∧
    ∃ s, m.solver.propagateHardFacts = (false, s) ∧ m' = { m with solver := s.newLevel, control := .assuming } := by
  cases transition_of_step hs with
  | facts hcontrol he => exact ⟨hcontrol, _, he, rfl⟩
  -- no other step begins with the assumptions
  | _ => cases hc

/-- The propagation of the assumptions begins with none of them. -/
theorem unassumed_of_reachable (h : m.Reachable) (hc : m.control = .assuming) :
    ∃ K Z dead, Unassumed K Z dead m.solver ∧ ∀ l ∈ m.assumedFacts, l.var ≤ m.solver.maxVar := by
  cases h with
  | init h =>
    subst h
    cases hc
  | @step u _ hm hs =>
    obtain ⟨e, -, hs⟩ := hs
    obtain ⟨hcontrol, s, hp, rfl⟩ := assuming_of_step hs hc
    obtain ⟨hdata, hat, -⟩ := Inv.of_reachable hm
    rw [hcontrol] at hat
    cases hat with
    | reduced hr hres =>
      obtain ⟨-, hclauses, -, hok⟩ := hres.propagateHardFacts hdata []
      have hsame := SameProblem.propagateHardFacts u.solver
      rw [hp] at hclauses hok hsame
      obtain ⟨hsearch, hsteady, h₁⟩ := hok rfl
      have hclauses : s.newLevel.clauses = u.solver.clauses := hclauses
      exact ⟨_, _, _, ⟨hsearch, hclauses ▸ hsteady, h₁⟩, fun l hl => (hr.vars l hl).trans_eq hsame.maxVar.symm⟩

def FailsWithCore (m : Machine) : Prop :=
  ∀ r, m.control = .ready (some r) → r.isProblemSatisfiable = .FALSE →
    UnsatCore (addedSets m.added) m.assumedFacts r.getFailedAssumptions

def Explains (m : Machine) : Prop := Explained m.solver.database (addedSets m.added) m.assumedFacts

theorem failsWithCore_conclude {s : CDCLSatSolver} {failed : List CNFLit} :
    FailsWithCore (m.conclude s .FALSE failed) ↔ UnsatCore (addedSets m.added) m.assumedFacts failed := by
  refine ⟨fun h => h _ rfl rfl, fun h r hr _ => ?_⟩
  obtain rfl := Option.some.inj (Control.ready.inj hr)
  exact h

theorem FailsWithCore.of_unsat (h : Inv m) (hs : m.step e = some m') (hc : m.control ≠ .assuming) :
    FailsWithCore m' := by
  intro r hr hf
  have hv : m'.control.verdict = some .FALSE := by
    rw [hr]
    exact congrArg some hf
  have hnil : ∀ {Φ A}, Unsat Φ → UnsatCore Φ A [] := fun hu => ⟨List.forall_mem_nil _, unsat_union hu⟩
  obtain ⟨hdata, hat, -⟩ := h
  cases fails_of_verdict hs hv with
  | detected assumedFacts hd =>
    obtain rfl := Option.some.inj (Control.ready.inj hr)
    refine hnil fun σ hσ => ?_
    obtain ⟨x, hx, -⟩ := hσ ∅ (hdata.detected hd)
    exact absurd hx (Finset.notMem_empty x)
  | simplifying hcontrol hstep =>
    rw [hcontrol] at hat
    cases hat with
    | restarting _ hres _ =>
      obtain ⟨-, hunsat, -⟩ := hres.trySimplify hdata
      rw [hstep] at hunsat
      exact failsWithCore_conclude.mpr (hnil (hunsat rfl).1) r hr hf
  | facts hcontrol hstep =>
    rw [hcontrol] at hat
    cases hat with
    | reduced _ hres =>
      obtain ⟨-, -, hunsat, -⟩ := hres.propagateHardFacts hdata []
      rw [hstep] at hunsat
      exact failsWithCore_conclude.mpr (hnil (hunsat rfl).1) r hr hf
  | assumptions hcontrol _ => exact absurd hcontrol hc

/-- A step that returns `FALSE` does so with a core exactly if it explains the assumption that fails. -/
theorem failsWithCore_iff (h : m.Reachable) (hs : m.step e = some m') :
    FailsWithCore m' ↔ (m.control = .assuming → m.Explains) := by
  have hinv := Inv.of_reachable h
  by_cases hc : m.control = .assuming
  · obtain rfl := step_assuming hs hc
    obtain ⟨K, Z, dead, hun, hv⟩ := unassumed_of_reachable h hc
    cases transition_of_step hs with
    | @assumptions s _ he =>
      have happ : m.solver.assignment.appendFacts m.assumedFacts = (none, s.assignment) :=
        congrArg (fun r => (r.1, r.2.assignment)) he
      refine iff_of_true (fun r hr => by cases hr) fun _ => ?_
      exact explained_of_consistent (hun.consistent hinv.data hv happ)
    | @assumptionsRefuted s fact failed _ he ha =>
      have happ : m.solver.assignment.appendFacts m.assumedFacts = (some fact, s.assignment) :=
        congrArg (fun r => (r.1, r.2.assignment)) he
      obtain rfl : (m.solver.propagateFactsOnSystemLevels m.assumedFacts).2 = s := congrArg Prod.snd he
      rw [failsWithCore_conclude, hun.unsatCore_iff hinv.data hv happ rfl ha]
      exact ⟨fun hex _ => hex, fun hex => hex hc⟩
  · exact iff_of_true (.of_unsat hinv hs hc) fun hc' => absurd hc' hc

theorem run_append {as bs : List Event} (h : m.run (as ++ bs) = some m') :
    ∃ u, m.run as = some u ∧ u.run bs = some m' := by
  unfold run at h
  rw [List.foldlM_append] at h
  exact Option.bind_eq_some_iff.mp h

/-- In a run, every call that returns `FALSE` does so with a core exactly if all
propagations of assumptions explain the one that fails. -/
theorem failedAssumptions_iff {es : List Event} (hreg : ∀ e ∈ es, e.Regular) (h : new.run es = some m) :
    (∀ es' m', es' <+: es → new.run es' = some m' → m'.FailsWithCore) ↔
      ∀ es' m', es' ++ [.propagateAssumedFacts] <+: es → new.run es' = some m' → m'.Explains := by
  have hreach : ∀ {es' m'}, es' <+: es → new.run es' = some m' → m'.Reachable := fun hp hr =>
    Reachable.run (.init rfl) (fun e he => hreg e (hp.subset he)) hr
  have hlast : ∀ {es' e m'}, es' ++ [e] <+: es → new.run es' = some m' →
      ∃ m'', m'.step e = some m'' ∧ new.run (es' ++ [e]) = some m'' := by
    intro es' e m' hp hr
    obtain ⟨rest, rfl⟩ := hp
    obtain ⟨u, hu, -⟩ := run_append h
    obtain ⟨v, hv, hstep⟩ := run_append hu
    obtain rfl := Option.some.inj (hr.symm.trans hv)
    obtain ⟨w, hw, hnil⟩ := Option.bind_eq_some_iff.mp hstep
    cases hnil
    exact ⟨u, hw, hu⟩
  constructor
  · intro hcore es' m' hp hr
    obtain ⟨m'', hs, hr'⟩ := hlast hp hr
    have hc : m'.control = .assuming := by
      cases hcontrol : m'.control with
      | assuming => rfl
      | _ =>
        unfold step at hs
        rw [hcontrol] at hs
        cases hs
    exact (failsWithCore_iff (hreach ((List.prefix_append _ _).trans hp) hr) hs).mp (hcore _ m'' hp hr') hc
  · intro hexplains es' m' hp hr
    cases List.eq_nil_or_concat' es' with
    | inl hnil =>
      subst hnil
      cases hr
      intro r hready
      cases hready
    | inr hcat =>
      obtain ⟨before, e, rfl⟩ := hcat
      obtain ⟨u, hu, hstep⟩ := run_append hr
      obtain ⟨m'', hs, hr'⟩ := hlast hp hu
      obtain rfl := Option.some.inj (hr.symm.trans hr')
      refine (failsWithCore_iff (hreach ((List.prefix_append _ _).trans hp) hu) hs).mpr fun hc => ?_
      obtain rfl := step_assuming hs hc
      exact hexplains before u hp hu

end Machine

/-! ## Examples -/

def Control.failedAssumptions : Control → Option (List CNFLit)
  | .ready (some r) => some r.getFailedAssumptions
  | _ => none

namespace Machine

open CDCLSatSolver

def assuming (clauses : List (List CNFLit)) (assumedFacts : List CNFLit) : List Event :=
  [.addProblem clauses, .solve assumedFacts, .trySimplify, .tryReduceClauseDB [] false, .propagateHardFacts]

theorem eq_assuming {clauses : List (List CNFLit)} {assumedFacts : List CNFLit} {es : List Event}
    (h : es ++ [.propagateAssumedFacts] <+: assuming clauses assumedFacts ++ [.propagateAssumedFacts]) :
    es = assuming clauses assumedFacts := by
  cases List.prefix_concat_iff.mp h with
  | inl he => exact (List.append_inj' he rfl).1
  | inr hin =>
    have hmem := hin.subset (List.mem_append_right es (List.mem_singleton_self _))
    simp [assuming] at hmem

def refuting : List Event := assuming [[⟨0, .negative⟩, ⟨1, .negative⟩]] [⟨0, .positive⟩, ⟨1, .positive⟩]

def beforeRefuted : Machine := (new.run refuting).get (by decide +kernel)

def refuted : Machine := (new.run (refuting ++ [.propagateAssumedFacts])).get (by decide +kernel)

theorem beforeRefuted_explains : beforeRefuted.Explains := by
  have hassumed : beforeRefuted.assumedFacts = [⟨0, .positive⟩] ++ [⟨1, .positive⟩] := by decide +kernel
  have hdb : 0 ∈ beforeRefuted.solver.clauseDB := by decide +kernel
  have hmem : (beforeRefuted.solver.mem 0).litSet = {⟨0, .negative⟩, ⟨1, .negative⟩} := by decide +kernel
  have hD : {⟨0, .negative⟩, ⟨1, .negative⟩} ∈ beforeRefuted.solver.database := .inr (hmem ▸ mem_clauseSets hdb)
  intro pre fact hp hn hc
  rw [hassumed] at hp
  cases List.prefix_concat_iff.mp hp with
  | inl he =>
    -- the clause has made the second assumption false
    obtain ⟨rfl, hfact⟩ := List.append_inj' he rfl
    obtain rfl := List.singleton_inj.mp hfact
    refine .inl ⟨_, List.prefix_refl _, by decide, .unit hD (by decide) fun x hx hne => .given ?_⟩
    revert x
    decide
  | inr hin =>
    -- the first assumption would contradict the clauses alone
    have hlen := hin.length_le
    rw [List.length_append] at hlen
    obtain rfl : pre = [] := List.eq_nil_of_length_eq_zero (Nat.le_zero.mp (Nat.le_of_succ_le_succ hlen))
    refine .inr ((unsatCore_singleton (List.mem_singleton_self fact)).mp ⟨fun _ hl => hl, ?_⟩)
    exact (Inv.of_reachable (Reachable.run_get (.init rfl) (by decide) _)).data.unsat_assuming hc

theorem refuted_failsWithCore : refuted.control.verdict = some .FALSE ∧ refuted.FailsWithCore := by
  have hrun : new.run (refuting ++ [.propagateAssumedFacts]) = some refuted := (Option.some_get _).symm
  refine ⟨by decide +kernel, (failedAssumptions_iff (by decide) hrun).mpr ?_ _ _ (List.prefix_refl _) hrun⟩
  intro es' m' hp hr
  obtain rfl := eq_assuming hp
  have hm : beforeRefuted = m' := Option.get_of_eq_some _ hr
  exact hm ▸ beforeRefuted_explains

def clashing : List Event :=
  assuming [[⟨0, .negative⟩, ⟨1, .negative⟩, ⟨2, .positive⟩], [⟨0, .negative⟩, ⟨1, .negative⟩, ⟨2, .negative⟩]]
    [⟨0, .positive⟩, ⟨1, .positive⟩]

def clashed : Machine := (new.run (clashing ++ [.propagateAssumedFacts])).get (by decide +kernel)

/-- The assumption `0` is missing. -/
theorem clashed_failedAssumptions : clashed.Reachable ∧ clashed.control.verdict = some .FALSE ∧
    clashed.control.failedAssumptions = some [⟨1, .positive⟩] ∧ ¬ clashed.FailsWithCore := by
  refine ⟨Reachable.run_get (.init rfl) (by decide) _, by decide +kernel, by decide +kernel, fun h => ?_⟩
  have hv : clashed.control.verdict = some .FALSE := by decide +kernel
  have hfailed : clashed.control.failedAssumptions = some [⟨1, .positive⟩] := by decide +kernel
  have hadded : clashed.added = [[⟨0, .negative⟩, ⟨1, .negative⟩, ⟨2, .positive⟩],
      [⟨0, .negative⟩, ⟨1, .negative⟩, ⟨2, .negative⟩]] := by decide +kernel
  obtain ⟨r, hr, hfalse⟩ := Control.exists_of_verdict hv
  rw [hr] at hfailed
  have hunsat := (h r hr hfalse).unsat
  rw [Option.some.inj hfailed, hadded] at hunsat
  apply hunsat (valuationOfSigns fun v => if v = 0 then .negative else .positive)
  refine models_union.mpr ⟨?_, models_units.mpr fun l hl => ?_⟩
  · intro C hC
    obtain ⟨clause, hclause, rfl⟩ := hC
    refine ⟨⟨0, .negative⟩, ?_, rfl⟩
    revert clause
    decide
  · obtain rfl := List.mem_singleton.mp hl
    rfl

end Machine

end JamSAT
