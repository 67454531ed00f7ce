import JamSAT.SearchSound
import JamSAT.MinimizationSound

/-!
# Lemmas

In a conflict above the assumptions `deriveLemma` succeeds. Its lemma is a
reverse unit propagation consequence of what the solver keeps, is asserting on
the backtrack level and is new.
-/

namespace JamSAT

open UnitLogic Assignment VecEdit

namespace CDCLSatSolver

variable {Φ : Set (Finset CNFLit)} {K Z : Set ClauseRef} {dead : Set CNFLit} {s t : CDCLSatSolver}
  {assumedFacts : List CNFLit} {c : ClauseRef}

/-! ## The implication graph -/

theorem Data.subsumes (h : Data Φ s) : ∀ C ∈ s.database, ∃ D ∈ s.formula, D ⊆ C := by
  rintro C (hC | ⟨c, hc, rfl⟩)
  · exact ⟨C, .inl hC, subset_rfl⟩
  · by_cases hd : (s.mem c).scheduledForDeletion = true
    · obtain ⟨x, hx, hf⟩ := h.satisfied c hc hd
      exact ⟨{x}, .inl (mem_units hf), Finset.singleton_subset_iff.mpr (Clause.mem_litSet.mpr hx)⟩
    · exact ⟨_, mem_formulaOf hc (Bool.eq_false_of_not_eq_true hd), subset_rfl⟩

theorem getLevelAssignments_currentLevel {s : Assignment} (ht : s.TrailInv) :
    s.getLevelAssignments s.currentLevel = s.trail.drop (s.levelLimit s.currentLevel) := by
  unfold getLevelAssignments
  rw [if_neg (by rw [ht.limits_length]; omega)]
  exact if_pos ht.limits_length.symm

theorem Searching.graph (h : Searching K dead assumedFacts s) (hdata : Data Φ s)
    (hc : Core s.clauses K Z dead s.assignment) :
    s.assignment.provider.Graph s.database s.assignment.trail where
  nodup_vars := hc.trail.nodup_vars
  regular l hl := by
    have hlt := (hc.trail.lt_size l hl).trans_eq h.size_eq
    exact (Nat.lt_succ_iff.mp hlt).trans_lt hdata.regular
  split := by
    refine ⟨s.assignment.trail.take (s.assignment.levelLimit s.assignment.currentLevel), ?_, fun l hl => ?_⟩
    · show _ = _ ++ s.assignment.getLevelAssignments s.assignment.currentLevel
      rw [getLevelAssignments_currentLevel hc.trail, List.take_append_drop]
    · exact ((hc.trail.mem_take_limit le_rfl).mp hl).2
  level_eq l hl := ((hc.trail.mem_getLevelAssignments le_rfl).mp hl).2
  reason pre l hp C hC := by
    obtain ⟨hmem, ho⟩ := (hc.reasons.reasons hc.trail hc.wf).reason pre l hp C hC
    obtain ⟨d, hd, rfl⟩ := Option.map_eq_some_iff.mp hC
    have hl : l ∈ s.assignment.trail := hp.subset (List.mem_append_right _ (List.mem_singleton_self l))
    exact ⟨hmem, .inr (mem_clauseSets (hc.reasons.registered l hl d hd)), ho⟩
  fact l hl h₀ := by
    refine hc.derives (k := 0) Set.subset_union_right (fun x hx hx₀ hr => ?_) l hl h₀.le
    exact .of_unit (.inl (mem_units (h.rooted.root x hx (Nat.le_zero.mp hx₀) hr)))

/-- A level above the assumptions begins with its only decision. -/
theorem Searching.forced (h : Searching K dead assumedFacts s) (ht : s.assignment.TrailInv)
    (h₂ : 2 ≤ s.assignment.currentLevel) : FirstUIPLearning.Forced s.assignment.provider := by
  intro pre l hp hne hr
  have hp : pre ++ [l] <+: s.assignment.getLevelAssignments s.assignment.currentLevel := hp
  have hlevel : ∀ x ∈ pre ++ [l], s.assignment.getLevel x.var = s.assignment.currentLevel := fun x hx =>
    ((ht.mem_getLevelAssignments le_rfl).mp (hp.subset hx)).2
  rw [getLevelAssignments_currentLevel ht] at hp
  have hp' : (s.assignment.trail.take (s.assignment.levelLimit s.assignment.currentLevel) ++ pre) ++ [l] <+:
      s.assignment.trail := by
    rw [List.append_assoc]
    conv_rhs => rw [← List.take_append_drop (s.assignment.levelLimit s.assignment.currentLevel) s.assignment.trail]
    exact (List.prefix_append_right_inj _).mpr hp
  have hl := hlevel l (List.mem_append_right _ (List.mem_singleton_self l))
  have hreason : s.assignment.getReason l.var = none := Option.map_eq_none_iff.mp hr
  obtain ⟨x, hx⟩ := List.exists_mem_of_ne_nil pre hne
  have hlt := h.rooted.decision _ l hp' (h₂.trans_eq hl.symm) hreason x (List.mem_append_right _ hx)
  rw [hl, hlevel x (List.mem_append_left _ hx)] at hlt
  exact lt_irrefl _ hlt

/-- A falsified clause is not scheduled for deletion: the facts are true. -/
theorem Searching.alive_of_false (h : Searching K dead assumedFacts s) (hdata : Data Φ s)
    (ht : s.assignment.TrailInv) (hc : c ∈ s.clauseDB)
    (hf : ∀ x ∈ (s.mem c).lits, s.assignment.getAssignment x = .FALSE) :
    (s.mem c).scheduledForDeletion = false := by
  by_contra hd
  obtain ⟨x, hx, hxf⟩ := hdata.satisfied c hc (Bool.eq_true_of_not_eq_false hd)
  exact ht.neg_not_mem (h.rooted.facts_mem x hxf).1 (ht.neg_mem_trail.mpr (hf x hx))

theorem Searching.conflicting (h : Searching K dead assumedFacts s) (hdata : Data Φ s)
    (hc : Clash s.clauses K Z dead c s.assignment) :
    FirstUIPLearning.Conflicting s.assignment.provider s.assignment.trail (s.mem c).lits := by
  have ht := hc.core.trail
  have hwf : (s.mem c).WellFormed := hdata.wf c hc.registered
  have hK : c ∈ K := h.kept c hc.registered (h.alive_of_false hdata ht hc.registered hc.isFalse)
  obtain ⟨q, hq⟩ := hc.prop
  have hlevel : ∀ i : Fin 2, s.assignment.getLevel ((s.mem c).lit i).var = s.assignment.currentLevel :=
    hq.conflict_level hc.core (h.dead_not_true ht) hK (fun he => absurd he Bool.false_ne_true) hc.isFalse
  have hmem : ∀ i : Fin 2, (s.mem c).lit i ∈ (s.mem c).lits := fun i => Clause.lit_mem (hwf.watch_lt i)
  refine ⟨fun x hx => ht.neg_mem_trail.mpr (hc.isFalse x hx), _, hmem 0, _, hmem 1, fun hv => ?_, hlevel 0,
    hlevel 1⟩
  exact absurd (hwf.lit_inj (hwf.watch_lt 0) (hwf.watch_lt 1) (hwf.eq_of_var_eq (hmem 0) (hmem 1) hv)) (by decide)

/-! ## The literals of the lemma -/

theorem Data.binaries (hdata : Data Φ s) (hc : Core s.clauses K Z dead s.assignment) {u l : CNFLit}
    (hl : l ∈ s.assignment.getBinariesMap u) : {u, l} ∈ s.database ∧ l.var ≠ u.var := by
  obtain ⟨w, hw, rfl⟩ := List.mem_map.mp hl
  have hR : w.clause ∈ s.clauses := hc.watch.registered (p := (true, u)) hw
  have hp : (s.mem w.clause).lits.Perm [u, w.otherWatchedLiteral] := hc.watch.binary u w hw
  have hset : ({u, w.otherWatchedLiteral} : Finset CNFLit) = (s.mem w.clause).litSet := by
    ext x
    simp [hp.mem_iff]
  refine ⟨hset ▸ .inr (mem_clauseSets hR), fun hv => ?_⟩
  have hn := (hp.map CNFLit.var).nodup_iff.mp (hdata.wf _ hR).nodup_vars
  simp [hv] at hn

/-- First-UIP learning finds a clause, and the minimization leaves one of it. -/
theorem Searching.minimized (h : Searching K dead assumedFacts s) (hdata : Data Φ s)
    (hc : Clash s.clauses K Z dead c s.assignment) (h₂ : 2 ≤ s.assignment.currentLevel) :
    ∃ u tail tail',
      FirstUIPLearning.computeConflictClause s.assignment.provider .empty (s.mem c).lits =
        some (-u :: tail, .empty) ∧
      ClauseMinimization.eraseRedundantLiterals s.assignment.provider s.fuel (-u :: tail) = some (-u :: tail') ∧
      s.assignment.provider.Learnt s.database s.assignment.trail u tail ∧
      s.assignment.provider.Learnt s.database s.assignment.trail u tail' := by
  have g := h.graph hdata hc.core
  have hfuel : s.assignment.trail.length + 1 < s.fuel := by
    have hle := hc.core.trail.length_le
    unfold fuel
    omega
  obtain ⟨u, tail, hconf, hlearnt⟩ := FirstUIPLearning.computeConflictClause_spec g
    (h.forced hc.core.trail h₂) (.inr (mem_clauseSets hc.registered)) (h.conflicting hdata hc)
  have hpos : s.assignment.provider.currentLevel ≠ 0 := by
    show s.assignment.currentLevel ≠ 0
    omega
  obtain ⟨tail', herase, hlearnt'⟩ := ClauseMinimization.eraseRedundantLiterals_spec g hfuel hpos hlearnt
  exact ⟨u, tail, tail', hconf, herase, hlearnt, hlearnt'⟩

theorem Searching.lemmaLiterals (h : Searching K dead assumedFacts s) (hdata : Data Φ s)
    (hc : Clash s.clauses K Z dead c s.assignment) (h₂ : 2 ≤ s.assignment.currentLevel) (lowLBD : Bool) :
    ∃ u tail, s.lemmaLiterals lowLBD c = some (-u :: tail) ∧
      s.assignment.provider.Learnt s.database s.assignment.trail u tail := by
  obtain ⟨u, tail, tail', hconf, herase, -, hlearnt'⟩ := h.minimized hdata hc h₂
  have hoptimize : s.lemmaLiterals lowLBD c = s.optimizeLemma lowLBD (-u :: tail) := by
    unfold CDCLSatSolver.lemmaLiterals
    rw [hconf]
  rw [hoptimize, optimizeLemma, herase, Option.map_some]
  split
  · obtain ⟨tail'', hres, hlearnt''⟩ := ClauseMinimization.resolveWithBinaries_spec
      (fun l hl => hdata.binaries hc.core hl) hlearnt'
    exact ⟨u, tail'', congrArg some hres, hlearnt''⟩
  · exact ⟨u, tail', rfl, hlearnt'⟩

/-! ## The second watch -/

theorem litWithMaxDecisionLevel_spec (level : CNFVar → Nat) (lits : List CNFLit) : ∀ i best backtrackLevel : Nat,
    (∀ x ∈ lits, level x.var ≤ (litWithMaxDecisionLevel level lits i best backtrackLevel).2) ∧
    backtrackLevel ≤ (litWithMaxDecisionLevel level lits i best backtrackLevel).2 ∧
    (litWithMaxDecisionLevel level lits i best backtrackLevel = (best, backtrackLevel) ∨
      ∃ j x, lits[j]? = some x ∧
        litWithMaxDecisionLevel level lits i best backtrackLevel = (i + j, level x.var)) := by
  induction lits with
  | nil => exact fun i best b => ⟨fun x hx => absurd hx List.not_mem_nil, le_rfl, .inl rfl⟩
  | cons a lits ih =>
    intro i best b
    rw [litWithMaxDecisionLevel]
    split
    · rename_i hlt
      have hmax : max b (level a.var) = level a.var := by omega
      rw [hmax]
      obtain ⟨hall, hle, hres⟩ := ih (i + 1) i (level a.var)
      refine ⟨fun x hx => ?_, by omega, .inr ?_⟩
      · rcases List.mem_cons.mp hx with rfl | hx
        · exact hle
        · exact hall x hx
      · rcases hres with hres | ⟨j, x, hx, hres⟩
        · exact ⟨0, a, rfl, hres⟩
        · exact ⟨j + 1, x, hx, hres.trans (by rw [Nat.add_assoc, Nat.add_comm 1 j])⟩
    · obtain ⟨hall, hle, hres⟩ := ih (i + 1) best b
      refine ⟨fun x hx => ?_, hle, ?_⟩
      · rcases List.mem_cons.mp hx with rfl | hx
        · omega
        · exact hall x hx
      · rcases hres with hres | ⟨j, x, hx, hres⟩
        · exact .inl hres
        · exact .inr ⟨j + 1, x, hx, hres.trans (by rw [Nat.add_assoc, Nat.add_comm 1 j])⟩

theorem swapAt_litWithMaxDecisionLevel (level : CNFVar → Nat) (u a : CNFLit) (rest : List CNFLit) :
    ∃ second others, swapAt (u :: a :: rest) (litWithMaxDecisionLevel level (a :: rest) 1 1 0).1 1 =
        u :: second :: others ∧ (second :: others).Perm (a :: rest) ∧
      level second.var = (litWithMaxDecisionLevel level (a :: rest) 1 1 0).2 := by
  obtain ⟨hall, -, hres⟩ := litWithMaxDecisionLevel_spec level (a :: rest) 1 1 0
  generalize litWithMaxDecisionLevel level (a :: rest) 1 1 0 = r at hall hres
  obtain ⟨best, k⟩ := r
  have hbest : ∃ x, (u :: a :: rest)[best]? = some x ∧ level x.var = k ∧ best ≠ 0 := by
    rcases hres with hres | ⟨j, x, hx, hres⟩
    · obtain ⟨rfl, rfl⟩ := Prod.mk.inj hres
      exact ⟨a, rfl, Nat.le_zero.mp (hall a List.mem_cons_self), Nat.one_ne_zero⟩
    · obtain ⟨rfl, rfl⟩ := Prod.mk.inj hres
      exact ⟨x, by rw [Nat.add_comm, List.getElem?_cons_succ]; exact hx, rfl, by omega⟩
  obtain ⟨x, hx, hk, h₀⟩ := hbest
  have hlt := (List.getElem?_eq_some_iff.mp hx).1
  have hone : 1 < (u :: a :: rest).length := by simp
  have hget₀ : (swapAt (u :: a :: rest) best 1)[0]? = some u := getElem?_swapAt_of_ne h₀.symm Nat.zero_ne_one
  have hget₁ : (swapAt (u :: a :: rest) best 1)[1]? = some x := (getElem?_swapAt_right hlt hone).trans hx
  have hperm := swapAt_perm (u :: a :: rest) best 1
  match hsw : swapAt (u :: a :: rest) best 1 with
  | [] => rw [hsw] at hget₀; cases hget₀
  | [v] => rw [hsw] at hget₁; cases hget₁
  | v :: second :: others =>
    rw [hsw] at hget₀ hget₁ hperm
    obtain rfl := Option.some.inj hget₀
    obtain rfl := Option.some.inj hget₁
    exact ⟨_, others, rfl, hperm.cons_inv, hk⟩

/-! ## What `deriveLemma` returns -/

structure SoundLemma (s : CDCLSatSolver) (lits : List CNFLit) (backtrackLevel : Nat) : Prop where
  rup : RUP s.formula lits.toFinset
  first : ∃ u, lits.head? = some (-u) ∧ u ∈ s.assignment.trail ∧
    s.assignment.getLevel u.var = s.assignment.currentLevel
  others : ∀ x ∈ lits.tail, s.assignment.getAssignment x = .FALSE ∧
    s.assignment.getLevel x.var < s.assignment.currentLevel
  level_le : ∀ x ∈ lits.tail, s.assignment.getLevel x.var ≤ backtrackLevel
  second : ∀ x, lits[1]? = some x → s.assignment.getLevel x.var = backtrackLevel
  lt : backtrackLevel < s.assignment.currentLevel
  new : ∀ d ∈ s.clauseDB, (s.mem d).litSet ≠ lits.toFinset
  nodup_vars : (lits.map CNFLit.var).Nodup

section
variable {u : CNFLit} {tail : List CNFLit} (h : Searching K dead assumedFacts s) (hdata : Data Φ s)
  (hc : Clash s.clauses K Z dead c s.assignment)
  (hl : s.assignment.provider.Learnt s.database s.assignment.trail u tail)
include hc hl

theorem uip_level : u ∈ s.assignment.trail ∧ s.assignment.getLevel u.var = s.assignment.currentLevel :=
  (hc.core.trail.mem_getLevelAssignments le_rfl).mp hl.uip

theorem tail_level {x : CNFLit} (hx : x ∈ tail) : s.assignment.getLevel x.var < s.assignment.currentLevel := by
  have hle : s.assignment.getLevel (-x).var ≤ s.assignment.currentLevel :=
    hc.core.trail.level_le _ (hl.isFalse x hx)
  exact lt_of_le_of_ne hle (hl.below x hx)

theorem lemma_nodup_vars : ((-u :: tail).map CNFLit.var).Nodup := by
  rw [List.map_cons, List.nodup_cons]
  refine ⟨fun hu => ?_, hl.nodup_vars⟩
  obtain ⟨x, hx, hv⟩ := List.mem_map.mp hu
  have hlt := tail_level hc hl hx
  rw [hv, CNFLit.var_neg, (uip_level hc hl).2] at hlt
  exact lt_irrefl _ hlt

include h hdata

/-- A registered clause with these literals would have been propagated below. -/
theorem Searching.lemma_new : ∀ d ∈ s.clauseDB, (s.mem d).litSet ≠ (-u :: tail).toFinset := by
  intro d hd he
  have ht := hc.core.trail
  have hmem : ∀ {x}, x ∈ (s.mem d).lits → x = -u ∨ x ∈ tail := fun {x} hx => by
    rw [← Clause.mem_litSet, he, List.mem_toFinset] at hx
    exact List.mem_cons.mp hx
  have hfalse : ∀ x ∈ (s.mem d).lits, s.assignment.getAssignment x = .FALSE := by
    intro x hx
    rcases hmem hx with rfl | hx
    · exact ht.neg_mem_trail.mp (by rw [neg_neg]; exact (uip_level hc hl).1)
    · exact ht.neg_mem_trail.mp (hl.isFalse x hx)
  have hK : d ∈ K := h.kept d hd (h.alive_of_false hdata ht hd hfalse)
  obtain ⟨i, hi⟩ := (hdata.wf d hd).exists_lit_ne (-u)
  have hlit := Clause.lit_mem ((hdata.wf d hd).watch_lt i)
  have htail := (hmem hlit).resolve_left hi
  obtain ⟨q, hq⟩ := hc.prop
  have htake : -(s.mem d).lit i ∈ s.assignment.trail.take q := by
    have hm := hl.isFalse _ htail
    rw [← List.take_append_drop q s.assignment.trail] at hm
    apply (List.mem_append.mp hm).resolve_right
    intro hdrop
    have hlevel : s.assignment.getLevel (-(s.mem d).lit i).var = s.assignment.currentLevel := hq.pending _ hdrop
    exact hl.below _ htail hlevel
  obtain ⟨x, hx, hxt⟩ :=
    hq.exists_true hc.core (h.dead_not_true ht) hK (fun he => absurd he Bool.false_ne_true) i htake
  rw [hfalse x hx] at hxt
  cases hxt

/-- The literals behind the first may be permuted. -/
theorem Searching.soundLemma {tail' : List CNFLit} (hp : tail'.Perm tail) {k : Nat}
    (hle : ∀ x ∈ tail', s.assignment.getLevel x.var ≤ k)
    (hsecond : ∀ x, tail'[0]? = some x → s.assignment.getLevel x.var = k) (hlt : k < s.assignment.currentLevel) :
    SoundLemma s (-u :: tail') k := by
  have hperm : (-u :: tail').Perm (-u :: tail) := hp.cons _
  have hset : (-u :: tail').toFinset = (-u :: tail).toFinset := List.toFinset_eq_of_perm _ _ hperm
  refine ⟨?_, ⟨u, rfl, uip_level hc hl⟩, fun x hx => ?_, hle, hsecond, hlt, ?_, ?_⟩
  · rw [hset]
    exact hl.rup.of_subsumes hdata.subsumes
  · have hx := hp.mem_iff.mp hx
    exact ⟨hc.core.trail.neg_mem_trail.mp (hl.isFalse x hx), tail_level hc hl hx⟩
  · rw [hset]
    exact h.lemma_new hdata hc hl
  · exact (hperm.map _).nodup_iff.mpr (lemma_nodup_vars hc hl)

end

theorem Searching.deriveLemma (h : Searching K dead assumedFacts s) (hdata : Data Φ s)
    (hc : Clash s.clauses K Z dead c s.assignment) (h₂ : 2 ≤ s.assignment.currentLevel) (lowLBD : Bool) :
    ∃ lits k, SoundLemma s lits k ∧
      ((∃ l, lits = [l] ∧ k = 0 ∧ s.deriveLemma lowLBD c = some (.fact l, s)) ∨
        2 ≤ lits.length ∧ s.deriveLemma lowLBD c = some (.clause s.nextClause k, s.addLemma lits)) := by
  obtain ⟨u, tail, hlits, hl⟩ := h.lemmaLiterals hdata hc h₂ lowLBD
  unfold CDCLSatSolver.deriveLemma
  rw [hlits, Option.map_some]
  cases tail with
  | nil =>
    refine ⟨[-u], 0, ?_, .inl ⟨-u, rfl, rfl, rfl⟩⟩
    exact h.soundLemma hdata hc hl (.refl _) (fun x hx => absurd hx List.not_mem_nil) (fun x hx => by cases hx)
      (by omega)
  | cons a rest =>
    obtain ⟨second, others, hswap, hp, hk⟩ := swapAt_litWithMaxDecisionLevel s.assignment.getLevel (-u) a rest
    obtain ⟨hall, -, -⟩ := litWithMaxDecisionLevel_spec s.assignment.getLevel (a :: rest) 1 1 0
    refine ⟨-u :: second :: others, (litWithMaxDecisionLevel s.assignment.getLevel (a :: rest) 1 1 0).2, ?_,
      .inr ⟨by simp, ?_⟩⟩
    · refine h.soundLemma hdata hc hl hp (fun x hx => hall x (hp.mem_iff.mp hx)) (fun x hx => ?_) ?_
      · obtain rfl := Option.some.inj hx
        exact hk
      · rw [← hk]
        exact tail_level hc hl (hp.mem_iff.mp List.mem_cons_self)
    · rw [if_neg (by simp), List.drop_one, List.tail_cons, ← hswap]

theorem SoundLemma.asserting {lits : List CNFLit} {k : Nat} (h : SoundLemma s lits k) {t : Assignment}
    (hs : SameTrail s.assignment t) (ht : t.TrailInv) (hlen : 2 ≤ lits.length) (r : Bool) :
    (t.undoToLevel k).Asserting { Clause.ofLits lits with redundant := r } := by
  obtain ⟨u, hu, hut, hul⟩ := h.first
  have hk : k < t.currentLevel := h.lt.trans_eq hs.currentLevel.symm
  have ht' := ht.undoToLevel hk
  have hkept : ∀ l, l ∈ (t.undoToLevel k).trail ↔ l ∈ s.assignment.trail ∧ s.assignment.getLevel l.var ≤ k := by
    intro l
    rw [undoToLevel_trail, ht.mem_take_limit hk, Nat.lt_succ_iff, hs.getLevel, hs.trail]
  rw [← hs.trail] at hut
  match lits, hlen, h with
  | v :: second :: others, _, h =>
    obtain rfl : v = -u := Option.some.inj hu
    refine ⟨ht'.indet_iff.mpr ⟨fun hn => ?_, fun hn => ?_⟩, fun x hx hx₀ => ?_, ?_⟩
    · have hneg := ((hkept (-u)).mp hn).1
      rw [← hs.trail] at hneg
      exact ht.neg_not_mem hut hneg
    · have hle : s.assignment.getLevel u.var ≤ k := ((hkept (- -u)).mp hn).2
      rw [hul] at hle
      exact absurd h.lt (Nat.not_lt.mpr hle)
    · have hx : x ∈ second :: others := (List.mem_cons.mp hx).resolve_left hx₀
      have hxt : -x ∈ s.assignment.trail := by
        rw [← hs.trail]
        exact ht.neg_mem_trail.mpr ((hs.getAssignment x).trans (h.others x hx).1)
      exact ht'.neg_mem_trail.mp ((hkept (-x)).mpr ⟨hxt, h.level_le x hx⟩)
    · have hsec := h.second second rfl
      rw [← hs.getLevel] at hsec
      show (t.undoToLevel k).getLevel second.var = k
      simpa [Assignment.getLevel] using hsec

/-! ## Learning -/

theorem Data.entails (h : Data Φ s) {C : Finset CNFLit} (hC : RUP s.formula C) : Entails Φ C := by
  intro σ hσ
  apply hC.entails σ
  obtain ⟨hf, hcl⟩ := models_union.mp (h.implied σ hσ)
  refine models_union.mpr ⟨hf, ?_⟩
  rintro _ ⟨c, ⟨hc, -⟩, rfl⟩
  exact hcl _ (mem_clauseSets hc)

theorem SoundLemma.lt_size {lits : List CNFLit} {k : Nat} (h : SoundLemma s lits k) (ht : s.assignment.TrailInv) :
    ∀ l ∈ lits, l.var < s.assignment.size := by
  obtain ⟨u, hu, hut, -⟩ := h.first
  intro l hl
  cases lits with
  | nil => cases hl
  | cons v tail =>
    obtain rfl : v = -u := Option.some.inj hu
    rcases List.mem_cons.mp hl with rfl | hl
    · exact ht.lt_size u hut
    · exact ht.lt_size (-l) (ht.neg_mem_trail.mpr (h.others l hl).1)

/-- The clause object of a lemma after `resolveDecision` has set its flag. -/
def lemmaClause (lits : List CNFLit) : Clause := { Clause.ofLits lits with redundant := decide (2 < lits.length) }

theorem writeClause_writeClause (s : Assignment) (c : ClauseRef) (C D : Clause) :
    (s.writeClause c C).writeClause c D = s.writeClause c D := by simp [writeClause]

/-- The state in which `resolveDecision` backtracks from a conflict. -/
theorem recordLemma_eq (s : CDCLSatSolver) (lits : List CNFLit) :
    (s.addLemma lits).registerConflict.recordLemma s.nextClause = { s.createClause (lemmaClause lits) with
      lemmas := if 2 < lits.length then s.lemmas ++ [s.nextClause] else s.lemmas
      amntBinariesLearnt := if 2 < lits.length then s.amntBinariesLearnt else s.amntBinariesLearnt + 1
      conflictCount := s.conflictCount + 1
      clauseDBReductionPolicy := s.clauseDBReductionPolicy.registerConflict
      certificate := s.certificate.write [.addATClause lits] } := by
  have hself := writeClause_mem_self s.assignment s.nextClause (.ofLits lits)
  have hsize : (Clause.ofLits lits).size = lits.length := rfl
  have hlits : (Clause.ofLits lits).lits = lits := rfl
  by_cases hlen : 2 < lits.length
  · simp [recordLemma, addLemma, registerConflict, setRedundant, addATClauseToProof, createClause, mem, lemmaClause,
      hself, hsize, hlits, hlen, writeClause_mem_self, writeClause_writeClause]
  · have hC : lemmaClause lits = .ofLits lits := by simp [lemmaClause, hlen, Clause.ofLits]
    simp [recordLemma, addLemma, registerConflict, addATClauseToProof, createClause, mem, hC, hself, hsize,
      hlits, hlen]

theorem SoundLemma.wellFormed {lits : List CNFLit} {k : Nat} (h : SoundLemma s lits k) (hlen : 2 ≤ lits.length) :
    (lemmaClause lits).WellFormed := ⟨hlen, h.nodup_vars⟩

theorem SoundLemma.data {lits : List CNFLit} {k : Nat} (h : SoundLemma s lits k) (hdata : Data Φ s)
    (ht : s.assignment.TrailInv) (hsize : s.assignment.size = s.maxVar + 1) (hlen : 2 ≤ lits.length) :
    Data Φ ((s.addLemma lits).registerConflict.recordLemma s.nextClause) := by
  have hvars : ∀ l ∈ (lemmaClause lits).lits, l.var ≤ s.maxVar := fun l hl =>
    Nat.lt_succ_iff.mp ((h.lt_size ht l hl).trans_eq hsize)
  have hnew : Data Φ (s.createClause (lemmaClause lits)) :=
    hdata.createClause rfl (h.wellFormed hlen) hvars subset_rfl (hdata.entails h.rup) fun _ hσ _ => hσ
  rw [recordLemma_eq]
  refine (hnew.setLemmas (L := if 2 < lits.length then s.lemmas ++ [s.nextClause] else s.lemmas)
    fun c hc => ?_).congr (.of_mem rfl rfl rfl rfl rfl rfl rfl)
  split at hc
  · rename_i hlen
    rcases List.mem_append.mp hc with hc | hc
    · exact hnew.lemmas_redundant c hc
    · obtain rfl := List.mem_singleton.mp hc
      refine ⟨mem_createClause.mpr (.inr rfl), ?_⟩
      rw [createClause_mem_self]
      exact decide_eq_true hlen
  · exact hnew.lemmas_redundant c hc

theorem clauses_createClause (s : CDCLSatSolver) (C : Clause) :
    (s.createClause C).clauses = insert s.nextClause s.clauses := by
  ext c
  exact mem_createClause.trans or_comm

theorem Linked.createClause (h : Linked K dead s) (hdata : Data Φ s) (C : Clause) :
    Linked (insert s.nextClause K) dead (s.createClause C) := by
  refine ⟨fun c hc ha => ?_, h.dead_false, h.size_eq⟩
  rcases mem_createClause.mp hc with hc | rfl
  · rw [hdata.createClause_mem C hc] at ha
    exact .inr (h.kept c hc ha)
  · exact .inl rfl

theorem afterLemma_snd (k : Nat) (e : Option ClauseRef × CDCLSatSolver) : (afterLemma k e).2 = e.2 := by
  obtain ⟨_ | c, t⟩ := e
  · rfl
  · rfl

structure Registered (Φ : Set (Finset CNFLit)) (K Z : Set ClauseRef) (dead : Set CNFLit) (k : Nat)
    (e : Option ClauseRef × CDCLSatSolver) : Prop where
  data : Data Φ e.2
  linked : Linked K dead e.2
  idle : Idle e.2.clauses K Z dead e.2.assignment.undoAll
  clean : e.2.assignment.dirty = ∅
  level : e.2.assignment.currentLevel = k

theorem registered_of_end {r : CDCLSatSolver} {n : ClauseRef} {l : CNFLit} {k : Nat} (hdata : Data Φ r)
    (hlink : Linked K dead r) (hassumed : 1 ≤ k → Assumed K dead assumedFacts r) (htrail : r.assignment.TrailInv)
    (hlevel : r.assignment.currentLevel = k)
    (hend : EndsFixpoint (fun t => Ready r.clauses K Z dead t ∧ Appended l (some n) r.assignment t)
      (fun d t => Clash r.clauses K Z dead d t ∧ Appended l (some n) r.assignment t)
      (r.assignment.registerLemma n)) :
    Registered Φ K Z dead k (r.registerLemma n) ∧
      (1 ≤ k → Searched Φ K Z dead assumedFacts (r.registerLemma n)) := by
  have key : ∀ t : Assignment, t.TrailInv → Appended l (some n) r.assignment t →
      Data Φ { r with assignment := t } ∧ Linked K dead { r with assignment := t } ∧ t.currentLevel = k ∧
      (1 ≤ k → Assumed K dead assumedFacts { r with assignment := t }) := by
    intro t ht ha
    refine ⟨hdata.congr (.of_grows ha.grows), hlink.congr (.of_grows ha.grows) ha.grows.size,
      ha.grows.currentLevel.trans hlevel, fun hk => ?_⟩
    exact (hassumed hk).grow ha.grows ((hassumed hk).rooted.registerLemma htrail ht ha (hassumed hk).one_le)
  unfold CDCLSatSolver.registerLemma
  dsimp only
  generalize r.assignment.registerLemma n = e at hend
  obtain ⟨_ | d, t⟩ := e
  · obtain ⟨hd, hlk, hlev, has⟩ := key t hend.1.core.trail hend.2
    refine ⟨⟨hd, hlk, (Steady.ready hend.1).undoAll, hend.1.clean, hlev⟩,
      fun hk => ⟨hd, has hk, fun _ => hend.1, ?_⟩⟩
    exact fun d hd => absurd hd.symm (Option.some_ne_none d)
  · obtain ⟨hd, hlk, hlev, has⟩ := key t hend.1.core.trail hend.2
    refine ⟨⟨hd, hlk, hend.1.undoAll, hend.1.clean, hlev⟩, fun hk => ⟨hd, has hk, ?_, ?_⟩⟩
    · exact fun hn => absurd hn (Option.some_ne_none d)
    · intro d' hd'
      obtain rfl := Option.some.inj hd'
      exact hend.1

theorem Similar.backtrackToLevel (s : CDCLSatSolver) (k : Nat) : Similar s (s.backtrackToLevel k) :=
  .of_mem (undoToLevel_mem _ _) rfl rfl rfl rfl rfl rfl

def resumed (s : CDCLSatSolver) (lits : List CNFLit) (k : Nat) : CDCLSatSolver :=
  ((s.addLemma lits).registerConflict.recordLemma s.nextClause).backtrackToLevel k

theorem resumed_assignment (s : CDCLSatSolver) (lits : List CNFLit) (k : Nat) :
    (s.resumed lits k).assignment = (s.assignment.writeClause s.nextClause (lemmaClause lits)).undoToLevel k := by
  rw [resumed, recordLemma_eq]
  rfl

theorem resumed_clauses (s : CDCLSatSolver) (lits : List CNFLit) (k : Nat) :
    (s.resumed lits k).clauses = insert s.nextClause s.clauses := by
  rw [resumed, recordLemma_eq]
  exact clauses_createClause s (lemmaClause lits)

theorem resumed_facts (s : CDCLSatSolver) (lits : List CNFLit) (k : Nat) : (s.resumed lits k).facts = s.facts := by
  rw [resumed, recordLemma_eq]
  rfl

theorem addLemma_assignment (s : CDCLSatSolver) (lits : List CNFLit) :
    (s.addLemma lits).assignment = s.assignment.writeClause s.nextClause (.ofLits lits) := by
  unfold addLemma
  dsimp only
  split
  · rfl
  · rfl

theorem resumed_maxVar (s : CDCLSatSolver) (lits : List CNFLit) (k : Nat) :
    (s.resumed lits k).maxVar = s.maxVar := by
  rw [resumed, recordLemma_eq]
  rfl

theorem resumed_mem (s : CDCLSatSolver) (lits : List CNFLit) (k : Nat) :
    (s.resumed lits k).mem s.nextClause = lemmaClause lits := by
  rw [CDCLSatSolver.mem, resumed_assignment, undoToLevel_mem, writeClause_mem_self]

theorem SoundLemma.asserting_resumed {lits : List CNFLit} {k : Nat} (h : SoundLemma s lits k)
    (ht : s.assignment.TrailInv) (hlen : 2 ≤ lits.length) :
    (s.resumed lits k).assignment.Asserting (lemmaClause lits) := by
  have hs := sameTrail_writeClause s.assignment s.nextClause (lemmaClause lits)
  rw [resumed_assignment]
  exact h.asserting hs (hs.trailInv ht) hlen _

section
variable {lits : List CNFLit} {k : Nat} (h : Assumed K dead assumedFacts s) (hdata : Data Φ s)
  (hc : Clash s.clauses K Z dead c s.assignment) (hl : SoundLemma s lits k)

include h hdata in
theorem Assumed.linked_resumed (lits : List CNFLit) (k : Nat) :
    Linked (insert s.nextClause K) dead (s.resumed lits k) := by
  have hlink := h.toLinked.createClause hdata (lemmaClause lits)
  have hsize :
    (s.resumed lits k).assignment.size = s.assignment.size := by rw [resumed_assignment, undoToLevel_size]; rfl
  have hmem : (s.resumed lits k).mem = (s.createClause (lemmaClause lits)).mem := by
    show (s.resumed lits k).assignment.mem = _
    rw [resumed_assignment, undoToLevel_mem]
    rfl
  have hdb : (s.resumed lits k).clauseDB = (s.createClause (lemmaClause lits)).clauseDB := by
    rw [resumed, recordLemma_eq]
    rfl
  have hmax : (s.resumed lits k).maxVar = s.maxVar := by
    rw [resumed, recordLemma_eq]
    rfl
  refine ⟨fun d hd ha => ?_, ?_, ?_⟩
  · rw [hmem] at ha
    exact hlink.kept d (hdb ▸ hd) ha
  · rw [resumed_facts]
    exact h.dead_false
  · rw [hsize, hmax]
    exact h.size_eq

include hdata hc hl

-- `r` keeps the propagation from being evaluated
theorem registerLemma_resumed (hlen : 2 ≤ lits.length) {r : CDCLSatSolver} (hr : r = s.resumed lits k) :
    EndsFixpoint
      (fun t => Ready r.clauses (insert s.nextClause K) Z dead t ∧
        Appended ((lemmaClause lits).lit 0) (some s.nextClause) r.assignment t)
      (fun d t => Clash r.clauses (insert s.nextClause K) Z dead d t ∧
        Appended ((lemmaClause lits).lit 0) (some s.nextClause) r.assignment t)
      (r.assignment.registerLemma s.nextClause) := by
  have hn : s.nextClause ∉ s.clauses := fun hn => hdata.ne_nextClause hn rfl
  have hw := hc.writeClause hn (lemmaClause lits)
  have ha : r.assignment = (s.assignment.writeClause s.nextClause (lemmaClause lits)).undoToLevel k :=
    hr ▸ resumed_assignment s lits k
  have hself : r.assignment.mem s.nextClause = lemmaClause lits := hr ▸ resumed_mem s lits k
  have hsize : r.assignment.size = s.assignment.size := by
    rw [ha, undoToLevel_size]
    rfl
  have hasserting : r.assignment.Asserting (lemmaClause lits) := hr ▸ hl.asserting_resumed hc.core.trail hlen
  have hready : Ready s.clauses K Z dead r.assignment := ha ▸ hw.undoToLevel hl.lt
  rw [hr, resumed_clauses, ← hr, ← hself]
  apply hready.registerLemma hn
  · rw [hself]
    exact hl.wellFormed hlen
  · rw [hself, hsize]
    exact hl.lt_size hc.core.trail
  · intro hd
    rw [hself] at hd
    cases hd
  · rw [hself]
    exact hasserting

theorem grows_registerLemma_resumed (hlen : 2 ≤ lits.length) {r : CDCLSatSolver} (hr : r = s.resumed lits k) :
    (r.assignment.registerLemma s.nextClause).2.TrailInv ∧
      r.assignment.Grows (r.assignment.registerLemma s.nextClause).2 := by
  have hend := registerLemma_resumed hdata hc hl hlen hr
  constructor
  · exact hend.both (fun _ h => h.1.core.trail) fun _ _ h => h.1.core.trail
  · exact hend.both (fun _ h => h.2.grows) fun _ _ h => h.2.grows

theorem trailInv_resumed : (s.resumed lits k).assignment.TrailInv := by
  have hn : s.nextClause ∉ s.clauses := fun hn => hdata.ne_nextClause hn rfl
  rw [resumed_assignment]
  exact (hc.writeClause hn (lemmaClause lits)).core.trail.undoToLevel hl.lt

include h

theorem Assumed.assumed_resumed (hk : 1 ≤ k) :
    Assumed (insert s.nextClause K) dead assumedFacts (s.resumed lits k) := by
  have ht := (sameTrail_writeClause s.assignment s.nextClause (lemmaClause lits)).trailInv hc.core.trail
  have hroot : (s.assignment.writeClause s.nextClause (lemmaClause lits)).Rooted s.facts assumedFacts :=
    ⟨h.rooted.facts_mem, h.rooted.root, h.rooted.assumed, h.rooted.decision⟩
  refine ⟨⟨h.linked_resumed hdata lits k, ?_, ?_⟩, fun l hlA => ?_⟩
  · rw [resumed_assignment, resumed_facts]
    exact hroot.undoToLevel ht hl.lt
  · rw [resumed_assignment]
    exact hk
  · obtain ⟨hm, h₁⟩ := h.held l hlA
    rw [resumed_assignment, undoToLevel_trail, Assignment.getLevel, undoToLevel_reasonsAndALs]
    exact ⟨(ht.mem_take_limit hl.lt).mpr ⟨hm, Nat.lt_succ_of_le (h₁.trans hk)⟩, h₁⟩

theorem Assumed.registerLemma (hlen : 2 ≤ lits.length) {r : CDCLSatSolver} (hr : r = s.resumed lits k) :
    Registered Φ (insert s.nextClause K) Z dead k (r.registerLemma s.nextClause) ∧
      (1 ≤ k → Searched Φ (insert s.nextClause K) Z dead assumedFacts (r.registerLemma s.nextClause)) := by
  have hdata' : Data Φ r := hr ▸ (hl.data hdata hc.core.trail h.size_eq hlen).congr (.backtrackToLevel _ k)
  have hlevel : r.assignment.currentLevel = k := hr ▸ congrArg currentLevel (resumed_assignment s lits k)
  have hlink : Linked (insert s.nextClause K) dead r := hr ▸ h.linked_resumed hdata lits k
  have hassumed : 1 ≤ k → Assumed (insert s.nextClause K) dead assumedFacts r := fun hk =>
    hr ▸ h.assumed_resumed hdata hc hl hk
  have htrail : r.assignment.TrailInv := hr ▸ trailInv_resumed hdata hc hl
  exact registered_of_end hdata' hlink hassumed htrail hlevel (registerLemma_resumed hdata hc hl hlen hr)

end

/-! ## One conflict -/

structure Running (assumedFacts : List CNFLit) (s : CDCLSatSolver) : Prop where
  sane : s.detectedUNSAT = false
  vars : ∀ l ∈ assumedFacts, l.var ≤ s.maxVar

theorem Running.of_eq (h : Running assumedFacts s) (hd : t.detectedUNSAT = s.detectedUNSAT)
    (hv : t.maxVar = s.maxVar) : Running assumedFacts t :=
  ⟨hd.trans h.sane, fun l hl => (h.vars l hl).trans_eq hv.symm⟩

inductive Resolved (Φ : Set (Finset CNFLit)) (assumedFacts : List CNFLit) : ResolveResult × CDCLSatSolver → Prop
  | restart {t : CDCLSatSolver} {K Z : Set ClauseRef} {dead : Set CNFLit} (hdata : Data Φ t)
    (h : Restarted K Z dead t.backtrackAll) (hclean : t.assignment.dirty = ∅) : Resolved Φ assumedFacts (.restart, t)
  | continue {t : CDCLSatSolver} {K Z : Set ClauseRef} {dead : Set CNFLit} (hdata : Data Φ t)
    (h : Assumed K dead assumedFacts t) (hr : Ready t.clauses K Z dead t.assignment) :
    Resolved Φ assumedFacts (.continue, t)
  | conflict {t : CDCLSatSolver} {K Z : Set ClauseRef} {dead : Set CNFLit} {c : ClauseRef} (hdata : Data Φ t)
    (h : Assumed K dead assumedFacts t) (hc : Clash t.clauses K Z dead c t.assignment)
    (h₂ : 2 ≤ t.assignment.currentLevel) : Resolved Φ assumedFacts (.conflict c, t)

theorem Assumed.learn_fact (h : Assumed K dead assumedFacts s) (hdata : Data Φ s)
    (hc : Clash s.clauses K Z dead c s.assignment) {l : CNFLit} (hl : SoundLemma s [l] 0) :
    Resolved Φ assumedFacts (s.registerConflict.learn (.fact l)) := by
  have hv : ∀ x ∈ s.facts ++ [l], x.var ≤ s.maxVar := by
    intro x hx
    rcases List.mem_append.mp hx with hx | hx
    · exact hdata.fact_vars x hx
    · exact Nat.lt_succ_iff.mp ((hl.lt_size hc.core.trail x hx).trans_eq h.size_eq)
  have hi : ∀ σ : Valuation CNFLit, σ.Models Φ → ∀ x ∈ s.facts ++ [l], σ.holds x := by
    intro σ hσ x hx
    rcases List.mem_append.mp hx with hx | hx
    · exact hdata.facts_hold hσ x hx
    · obtain ⟨y, hy, hσy⟩ := hdata.entails hl.rup σ hσ
      rw [List.mem_singleton.mp hx, ← List.mem_singleton.mp (List.mem_toFinset.mp hy)]
      exact hσy
  have hsub : s.facts ⊆ s.facts ++ [l] := List.subset_append_left _ _
  have hlink := (h.toLinked.setFacts hsub).restarted hc.undoAll
  have hres : Restarted K Z dead (s.registerConflict.learn (.fact l)).2.backtrackAll :=
    ⟨⟨hlink.kept, hlink.dead_false, hlink.size_eq⟩, hlink.idle, rfl⟩
  exact .restart ((hdata.setFacts hsub hv hi).congr (.of_mem rfl rfl rfl rfl rfl rfl rfl)) hres hc.clean

/-- How the loop goes on after the lemma has been registered. -/
theorem resolved_afterLemma {k : Nat} {e : Option ClauseRef × CDCLSatSolver} (hr : Registered Φ K Z dead k e)
    (hs : 1 ≤ k → Searched Φ K Z dead assumedFacts e) : Resolved Φ assumedFacts (afterLemma k e) := by
  have hrestart : Resolved Φ assumedFacts (.restart, e.2) := .restart hr.data (hr.linked.restarted hr.idle) hr.clean
  obtain ⟨_ | c, t⟩ := e
  · show Resolved Φ assumedFacts (if k = 0 then .restart else .continue, t)
    split
    · exact hrestart
    · rename_i hk
      have hs := hs (Nat.pos_of_ne_zero hk)
      exact .continue hs.data hs.assumed (hs.ready rfl)
  · show Resolved Φ assumedFacts (if k = 0 ∨ k = 1 then .restart else .conflict c, t)
    split
    · exact hrestart
    · rename_i hk
      have hs := hs (by omega)
      exact .conflict hs.data hs.assumed (hs.clash c rfl) (by rw [hr.level]; omega)

/-- The lemma is a fact, or a clause that is registered on its level. -/
theorem Searching.resolveConflict (h : Searching K dead assumedFacts s) (hdata : Data Φ s)
    (hc : Clash s.clauses K Z dead c s.assignment) (h₂ : 2 ≤ s.assignment.currentLevel) (lowLBD : Bool) :
    ∃ lits k e, SoundLemma s lits k ∧ s.resolveConflict lowLBD c = some e ∧
      ((∃ l, lits = [l] ∧ k = 0 ∧ e = s.registerConflict.learn (.fact l)) ∨
        2 ≤ lits.length ∧ e = afterLemma k ((s.resumed lits k).registerLemma s.nextClause)) := by
  obtain ⟨lits, k, hl, hres⟩ := h.deriveLemma hdata hc h₂ lowLBD
  unfold CDCLSatSolver.resolveConflict
  cases hres with
  | inl hfact =>
    obtain ⟨l, hlits, hk, he⟩ := hfact
    exact ⟨lits, k, _, hl, by rw [he]; rfl, .inl ⟨l, hlits, hk, rfl⟩⟩
  | inr hclause =>
    obtain ⟨hlen, he⟩ := hclause
    exact ⟨lits, k, _, hl, by rw [he]; rfl, .inr ⟨hlen, rfl⟩⟩

theorem Assumed.resolveConflict (h : Assumed K dead assumedFacts s) (hdata : Data Φ s)
    (hc : Clash s.clauses K Z dead c s.assignment) (h₂ : 2 ≤ s.assignment.currentLevel) (lowLBD : Bool) :
    ∃ r, s.resolveConflict lowLBD c = some r ∧ Resolved Φ assumedFacts r := by
  obtain ⟨lits, k, e, hl, he, hcase⟩ := h.toSearching.resolveConflict hdata hc h₂ lowLBD
  refine ⟨e, he, ?_⟩
  cases hcase with
  | inl hfact =>
    obtain ⟨l, rfl, rfl, rfl⟩ := hfact
    exact h.learn_fact hdata hc hl
  | inr hclause =>
    obtain ⟨hlen, hlearn⟩ := hclause
    obtain ⟨r, hr⟩ : ∃ r, r = s.resumed lits k := ⟨_, rfl⟩
    obtain ⟨hreg, hsearch⟩ := h.registerLemma hdata hc hl hlen hr
    rw [hlearn, ← hr]
    exact resolved_afterLemma hreg hsearch

theorem Assumed.resolved (h : Assumed K dead assumedFacts s) (hdata : Data Φ s)
    (hc : Clash s.clauses K Z dead c s.assignment) (h₂ : 2 ≤ s.assignment.currentLevel) {lowLBD : Bool}
    {r : ResolveResult × CDCLSatSolver} (he : s.resolveConflict lowLBD c = some r) : Resolved Φ assumedFacts r := by
  obtain ⟨e, hr, hresolved⟩ := h.resolveConflict hdata hc h₂ lowLBD
  obtain rfl := Option.some.inj (he.symm.trans hr)
  exact hresolved

end CDCLSatSolver

end JamSAT
