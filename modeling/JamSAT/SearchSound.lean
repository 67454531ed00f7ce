import JamSAT.RestartSound

/-!
# Facts, assumptions and decisions

Level 0 is opened by the facts, level 1 by the assumptions and every further
level by one decision. The propagation of facts and assumptions either ends with
all of them on the trail or has contradicted the clauses.
-/

namespace JamSAT

open UnitLogic

theorem before_unique {T pre pre' : List CNFLit} {l : CNFLit} (hn : T.Nodup) (h : pre ++ [l] <+: T)
    (h' : pre' ++ [l] <+: T) : pre = pre' := by
  have hget : ∀ {pre : List CNFLit}, pre ++ [l] <+: T → T[pre.length]? = some l := by
    rintro pre ⟨post, rfl⟩
    simp
  obtain ⟨hlt, hl⟩ := List.getElem?_eq_some_iff.mp (hget h)
  have hlen : pre.length = pre'.length := (List.getElem?_inj hlt hn).mp ((hget h).trans (hget h').symm)
  have hpre : pre = T.take pre.length := List.prefix_iff_eq_take.mp ((List.prefix_append pre [l]).trans h)
  have hpre' : pre' = T.take pre'.length := List.prefix_iff_eq_take.mp ((List.prefix_append pre' [l]).trans h')
  rw [hpre, hpre', hlen]

namespace Assignment

structure Rooted (facts assumedFacts : List CNFLit) (s : Assignment) : Prop where
  facts_mem : ∀ l ∈ facts, l ∈ s.trail ∧ s.getLevel l.var = 0
  root : ∀ l ∈ s.trail, s.getLevel l.var = 0 → s.getReason l.var = none → l ∈ facts
  assumed : ∀ l ∈ s.trail, s.getLevel l.var = 1 → s.getReason l.var = none → l ∈ assumedFacts
  decision : ∀ pre l, pre ++ [l] <+: s.trail → 2 ≤ s.getLevel l.var → s.getReason l.var = none →
    ∀ x ∈ pre, s.getLevel x.var < s.getLevel l.var

variable {facts assumedFacts : List CNFLit} {s t : Assignment}

theorem Rooted.newLevel (h : Rooted facts assumedFacts s) : Rooted facts assumedFacts s.newLevel :=
  ⟨h.facts_mem, h.root, h.assumed, h.decision⟩

theorem Rooted.undoToLevel (h : Rooted facts assumedFacts s) (ht : s.TrailInv) {k : Nat} (hk : k < s.currentLevel) :
    Rooted facts assumedFacts (s.undoToLevel k) := by
  have hlevel : ∀ v, (s.undoToLevel k).getLevel v = s.getLevel v := fun v => by simp [getLevel]
  have hreason : ∀ v, (s.undoToLevel k).getReason v = s.getReason v := fun v => by simp [getReason]
  have hpre : (s.undoToLevel k).trail <+: s.trail := undoToLevel_trail s k ▸ List.take_prefix _ _
  refine ⟨fun l hl => ?_, fun l hl => ?_, fun l hl => ?_, fun pre l hp => ?_⟩
  · obtain ⟨hm, h₀⟩ := h.facts_mem l hl
    rw [hlevel, undoToLevel_trail]
    exact ⟨(ht.mem_take_limit hk).mpr ⟨hm, by omega⟩, h₀⟩
  · rw [hlevel, hreason]
    exact h.root l (hpre.subset hl)
  · rw [hlevel, hreason]
    exact h.assumed l (hpre.subset hl)
  · simp only [hlevel, hreason]
    exact h.decision pre l (hp.trans hpre)

/-- The trail grows. What is new and has no reason is an assumption, or it is
the first entry of its level. -/
theorem Rooted.grow (h : Rooted facts assumedFacts s) (hs : s.TrailInv) (ht : t.TrailInv) (hg : Grows s t)
    (h₁ : 1 ≤ s.currentLevel)
    (hnew : ∀ x ∈ t.trail, x ∉ s.trail → t.getReason x.var = none →
      s.currentLevel = 1 ∧ x ∈ assumedFacts ∨
        s.trail ++ [x] <+: t.trail ∧ 2 ≤ s.currentLevel ∧ ∀ y ∈ s.trail, s.getLevel y.var < s.currentLevel) :
    Rooted facts assumedFacts t := by
  have hlevel : ∀ {x}, x ∈ t.trail → x ∉ s.trail → t.getLevel x.var = s.currentLevel := fun hx hn =>
    hg.level_new hs ht hx hn
  have hnodup : t.trail.Nodup := ht.nodup_vars.of_map _
  refine ⟨fun l hl => ?_, fun l hl hl₀ hr => ?_, fun l hl hl₁ hr => ?_, fun pre l hp hl₂ hr x hx => ?_⟩
  · obtain ⟨hm, h₀⟩ := h.facts_mem l hl
    exact ⟨hg.trail.subset hm, (hg.getLevel hm).trans h₀⟩
  · by_cases hm : l ∈ s.trail
    · rw [hg.getLevel hm] at hl₀
      rw [hg.getReason hm] at hr
      exact h.root l hm hl₀ hr
    · rw [hlevel hl hm] at hl₀
      omega
  · by_cases hm : l ∈ s.trail
    · rw [hg.getLevel hm] at hl₁
      rw [hg.getReason hm] at hr
      exact h.assumed l hm hl₁ hr
    · rw [hlevel hl hm] at hl₁
      rcases hnew l hl hm hr with ⟨-, hA⟩ | ⟨-, h₂, -⟩
      · exact hA
      · omega
  · have hl : l ∈ t.trail := hp.subset (List.mem_append_right _ (List.mem_singleton_self l))
    by_cases hm : l ∈ s.trail
    · -- the entries before `l` are old
      obtain ⟨pre', post, he⟩ := List.mem_iff_append.mp hm
      have hp' : pre' ++ [l] <+: s.trail := ⟨post, by rw [he]; simp⟩
      obtain rfl := before_unique hnodup hp (hp'.trans hg.trail)
      have hxs : x ∈ s.trail := hp'.subset (List.mem_append_left _ hx)
      rw [hg.getLevel hm] at hl₂ ⊢
      rw [hg.getReason hm] at hr
      rw [hg.getLevel hxs]
      exact h.decision _ l hp' hl₂ hr x hx
    · have hlev := hlevel hl hm
      rcases hnew l hl hm hr with ⟨h₁, -⟩ | ⟨hp', -, hlow⟩
      · omega
      · obtain rfl := before_unique hnodup hp hp'
        rw [hg.getLevel hx, hlev]
        exact hlow x hx

theorem Rooted.grown (h : Rooted facts assumedFacts s) (hs : s.TrailInv) (ht : t.TrailInv)
    (hg : Grown assumedFacts s t) (h₁ : s.currentLevel = 1) : Rooted facts assumedFacts t := by
  refine h.grow hs ht hg.grows h₁.ge fun x hx hn hr => .inl ⟨h₁, ?_⟩
  rcases hg.forced x hx with hm | hA | hr'
  · exact absurd hm hn
  · exact hA
  · exact absurd hr hr'

theorem Rooted.decide (h : Rooted facts assumedFacts s) (hs : s.TrailInv) (ht : t.TrailInv) {l : CNFLit}
    (ha : Appended l none s t) (h₂ : 2 ≤ s.currentLevel) (hlow : ∀ y ∈ s.trail, s.getLevel y.var < s.currentLevel) :
    Rooted facts assumedFacts t := by
  refine h.grow hs ht ha.grows (by omega) fun x hx hn hr => .inr ⟨?_, h₂, hlow⟩
  rcases ha.forced x hx with hm | rfl | hr'
  · exact absurd hm hn
  · exact ha.next
  · exact absurd hr hr'

theorem Rooted.registerLemma (h : Rooted facts assumedFacts s) (hs : s.TrailInv) (ht : t.TrailInv) {l : CNFLit}
    {c : ClauseRef} (ha : Appended l (some c) s t) (h₁ : 1 ≤ s.currentLevel) : Rooted facts assumedFacts t := by
  refine h.grow hs ht ha.grows h₁ fun x hx hn hr => ?_
  rcases ha.forced x hx with hm | rfl | hr'
  · exact absurd hm hn
  · rw [ha.reason] at hr
    cases hr
  · exact absurd hr hr'

theorem TrailInv.level_zero (h : s.TrailInv) (h₀ : s.currentLevel = 0) : ∀ l ∈ s.trail, s.getLevel l.var = 0 :=
  fun l hl => Nat.le_zero.mp ((h.level_le l hl).trans_eq h₀)

/-- On level 0 only facts have been put on the trail. -/
theorem Rooted.of_grown (ht : t.TrailInv) (hn : s.trail = []) (hg : Grown facts s t) (h₀ : t.currentLevel = 0)
    (hf : ∀ l ∈ facts, l ∈ t.trail) (assumedFacts : List CNFLit) : Rooted facts assumedFacts t := by
  have hzero := ht.level_zero h₀
  refine ⟨fun l hl => ⟨hf l hl, hzero l (hf l hl)⟩, fun l hl _ hr => ?_, fun l hl h₁ => ?_, fun pre l hp h₂ => ?_⟩
  · rcases hg.forced l hl with hm | hm | hr'
    · rw [hn] at hm
      exact absurd hm List.not_mem_nil
    · exact hm
    · exact absurd hr hr'
  · rw [hzero l hl] at h₁
    cases h₁
  · rw [hzero l (hp.subset (List.mem_append_right _ (List.mem_singleton_self l)))] at h₂
    omega

theorem Rooted.promote (h : Rooted facts assumedFacts s) (hzero : ∀ l ∈ s.trail, s.getLevel l.var = 0) :
    Rooted s.trail assumedFacts s :=
  ⟨fun l hl => ⟨hl, hzero l hl⟩, fun _ hl _ _ => hl, h.assumed, h.decision⟩

end Assignment

namespace CDCLSatSolver

open Assignment

variable {Φ : Set (Finset CNFLit)} {K Z : Set ClauseRef} {dead : Set CNFLit} {s t : CDCLSatSolver}
  {assumedFacts : List CNFLit}

structure Searching (K : Set ClauseRef) (dead : Set CNFLit) (assumedFacts : List CNFLit) (s : CDCLSatSolver) : Prop
    extends Linked K dead s where
  rooted : s.assignment.Rooted s.facts assumedFacts
  one_le : 1 ≤ s.assignment.currentLevel

structure Assumed (K : Set ClauseRef) (dead : Set CNFLit) (assumedFacts : List CNFLit) (s : CDCLSatSolver) : Prop
    extends Searching K dead assumedFacts s where
  held : ∀ l ∈ assumedFacts, l ∈ s.assignment.trail ∧ s.assignment.getLevel l.var ≤ 1

theorem Linked.congr (h : Linked K dead s) (hs : Similar s t) (hsize : t.assignment.size = s.assignment.size) :
    Linked K dead t where
  kept c hc ha := h.kept c (hs.clauseDB ▸ hc) ((hs.scheduledForDeletion c).symm.trans ha)
  dead_false := hs.facts ▸ h.dead_false
  size_eq := hsize.trans (h.size_eq.trans (congrArg (· + 1) hs.maxVar.symm))

theorem Linked.setFacts (h : Linked K dead s) {facts : List CNFLit} (hs : s.facts ⊆ facts) :
    Linked K dead { s with facts := facts } :=
  ⟨h.kept, fun l hl => hs (h.dead_false l hl), h.size_eq⟩

theorem Linked.detached (h : Linked K dead s) (hi : Idle s.clauses K Z dead s.assignment.undoAll)
    (hd : s.assignment.dirty = ∅) : Detached s.backtrackAll where
  idle := ⟨_, K, Z, dead, hi, subset_rfl⟩
  clean := (undoAll_dirty _).trans hd
  level_zero := rfl
  size_le := ((undoAll_size _).trans h.size_eq).le

theorem Linked.restarted (h : Linked K dead s) (hi : Idle s.clauses K Z dead s.assignment.undoAll) :
    Restarted K Z dead s.backtrackAll :=
  ⟨h.congr (.undoAll s) (undoAll_size _), hi, rfl⟩

theorem Searching.dead_not_true (h : Searching K dead assumedFacts s) (ht : s.assignment.TrailInv) :
    ∀ x ∈ dead, s.assignment.getAssignment x ≠ .TRUE := by
  intro x hx hxt
  have hn := (h.rooted.facts_mem _ (h.dead_false x hx)).1
  exact ht.neg_not_mem ((ht.mem_trail x).mpr hxt) hn

/-! ## Facts -/

theorem Restarted.appendFacts (h : Restarted K Z dead s) (hdata : Data Φ s) :
    FactsEnd s.clauses K Z dead s.facts s.assignment (s.assignment.appendFacts s.facts) :=
  (Steady.idle h.idle).appendFacts fun l hl => (Nat.lt_succ_of_le (hdata.fact_vars l hl)).trans_eq h.size_eq.symm

theorem Restarted.propagateHardFacts (h : Restarted K Z dead s) (hdata : Data Φ s) (assumedFacts : List CNFLit) :
    Data Φ s.propagateHardFacts.2 ∧ s.propagateHardFacts.2.clauses = s.clauses ∧
    (s.propagateHardFacts.1 = true → Unsat Φ ∧ Detached s.propagateHardFacts.2.backtrackAll) ∧
    (s.propagateHardFacts.1 = false →
      Searching K dead assumedFacts s.propagateHardFacts.2.newLevel ∧
      Steady s.clauses K Z dead s.propagateHardFacts.2.newLevel.assignment ∧
      s.propagateHardFacts.2.newLevel.assignment.currentLevel = 1) := by
  have hend := h.appendFacts hdata
  unfold CDCLSatSolver.propagateHardFacts propagateFactsOnSystemLevels
  generalize s.assignment.appendFacts s.facts = r at hend
  obtain ⟨_ | fact, t⟩ := r
  · obtain ⟨hsteady, hg, hall⟩ := hend
    have hsim : Similar s { s with assignment := t } := .of_grows hg.grows
    have hzero : t.currentLevel = 0 := hg.grows.currentLevel.trans h.level_zero
    have hlink : Linked K dead { s with assignment := t } := h.toLinked.congr hsim hg.grows.size
    have hroot := Rooted.of_grown hsteady.trailInv h.idle.nil hg hzero hall assumedFacts
    dsimp only
    split
    · have hderives : ∀ l ∈ t.trail, Derives (CDCLSatSolver.database { s with assignment := t }) ∅ l :=
        hsteady.derives_root h.idle.nil hg hzero
      have hdata' := (hdata.congr hsim).setFacts (F := t.trail) hall (fun l hl => ?_) fun σ hσ l hl =>
        (hderives l hl).holds ((hdata.congr hsim).implied σ hσ) fun _ ha => ha.elim
      · refine ⟨hdata'.congr (.of_mem rfl rfl rfl rfl rfl rfl rfl), rfl, fun hb => absurd hb Bool.false_ne_true,
          fun _ => ⟨⟨?_, ?_, ?_⟩, hsteady.newLevel, ?_⟩⟩
        · exact (hlink.setFacts hall).congr (.of_mem rfl rfl rfl rfl rfl rfl rfl) rfl
        · exact (hroot.promote (hsteady.trailInv.level_zero hzero)).newLevel
        · exact Nat.le_add_left 1 _
        · exact congrArg (· + 1) hzero
      · exact Nat.lt_succ_iff.mp ((hsteady.trailInv.lt_size l hl).trans_eq (hg.grows.size.trans h.size_eq))
    · refine ⟨hdata.congr hsim, rfl, fun hb => absurd hb Bool.false_ne_true,
        fun _ => ⟨⟨?_, hroot.newLevel, ?_⟩, hsteady.newLevel, ?_⟩⟩
      · exact hlink.congr (.of_mem rfl rfl rfl rfl rfl rfl rfl) rfl
      · exact Nat.le_add_left 1 _
      · exact congrArg (· + 1) hzero
  · obtain ⟨hstop, hg, hf⟩ := hend
    have hsim : Similar s { s with assignment := t } := .of_grows hg.grows
    have hlink : Linked K dead { s with assignment := t } := h.toLinked.congr hsim hg.grows.size
    refine ⟨hdata.congr hsim, rfl, fun _ => ⟨?_, hlink.detached hstop.undoAll hstop.clean⟩,
      fun hb => absurd hb.symm Bool.false_ne_true⟩
    exact (hdata.congr hsim).unsat (hstop.conflict h.idle.nil hg hf (hg.grows.currentLevel.trans h.level_zero))

theorem Restarted.facts_propagateHardFacts (h : Restarted K Z dead s) (hdata : Data Φ s) :
    s.propagateHardFacts.2.assignment.TrailInv ∧ s.propagateHardFacts.2.assignment.size = s.maxVar + 1 ∧
      s.facts ⊆ s.propagateHardFacts.2.facts := by
  have hend := h.appendFacts hdata
  unfold CDCLSatSolver.propagateHardFacts propagateFactsOnSystemLevels
  generalize s.assignment.appendFacts s.facts = r at hend
  obtain ⟨_ | fact, t⟩ := r
  · obtain ⟨hsteady, hg, hall⟩ := hend
    dsimp only
    split
    · exact ⟨hsteady.trailInv, hg.grows.size.trans h.size_eq, hall⟩
    · exact ⟨hsteady.trailInv, hg.grows.size.trans h.size_eq, List.Subset.refl _⟩
  · exact ⟨hend.1.core.trail, hend.2.1.grows.size.trans h.size_eq, List.Subset.refl _⟩

/-! ## Assumptions -/

theorem Searching.grow (h : Searching K dead assumedFacts s) {t : Assignment} (hg : Grows s.assignment t)
    (hr : t.Rooted s.facts assumedFacts) : Searching K dead assumedFacts { s with assignment := t } :=
  ⟨h.toLinked.congr (.of_grows hg) hg.size, hr, h.one_le.trans_eq hg.currentLevel.symm⟩

theorem Searching.derives (h : Searching K dead assumedFacts s) (hc : Core s.clauses K Z dead s.assignment) :
    ∀ l ∈ s.assignment.trail, s.assignment.getLevel l.var ≤ 1 → Derives s.database {l | l ∈ assumedFacts} l := by
  apply hc.derives Set.subset_union_right
  intro l hl hle hr
  by_cases h₀ : s.assignment.getLevel l.var = 0
  · exact .of_unit (.inl (mem_units (h.rooted.root l hl h₀ hr)))
  · exact .given (h.rooted.assumed l hl (by omega) hr)

theorem Searching.conflict_of_stopped (h : Searching K dead assumedFacts s) {fact : CNFLit}
    (hs : Stopped s.clauses K Z dead fact s.assignment) (hf : fact ∈ assumedFacts)
    (h₁ : s.assignment.currentLevel = 1) : Conflict s.database {l | l ∈ assumedFacts} := by
  cases hs with
  | isFalse hr hn =>
    exact .inr ⟨fact, .given hf, h.derives hr.core _ hn ((hr.core.trail.level_le _ hn).trans_eq h₁)⟩
  | clash hc _ _ =>
    exact hc.conflict Set.subset_union_right fun l hl =>
      h.derives hc.core l hl ((hc.core.trail.level_le l hl).trans_eq h₁)

theorem Data.unsat_assuming (h : Data Φ s) (hc : Conflict s.database {l | l ∈ assumedFacts}) :
    Unsat (Φ ∪ units {l | l ∈ assumedFacts}) := by
  intro σ hσ
  obtain ⟨hΦ, hA⟩ := models_union.mp hσ
  exact hc.absurd (h.implied σ hΦ) (models_units.mp hA)

theorem Searching.propagateFacts (h : Searching K dead assumedFacts s) (hdata : Data Φ s)
    (hs : Steady s.clauses K Z dead s.assignment) (h₁ : s.assignment.currentLevel = 1)
    (hv : ∀ l ∈ assumedFacts, l.var ≤ s.maxVar) :
    FactsEnd s.clauses K Z dead assumedFacts s.assignment (s.assignment.appendFacts assumedFacts) ∧
    Searching K dead assumedFacts (s.propagateFactsOnSystemLevels assumedFacts).2 ∧
    Data Φ (s.propagateFactsOnSystemLevels assumedFacts).2 ∧
    (s.propagateFactsOnSystemLevels assumedFacts).2.assignment.currentLevel = 1 := by
  have hend := hs.appendFacts fun l hl => (Nat.lt_succ_of_le (hv l hl)).trans_eq h.size_eq.symm
  refine ⟨hend, ?_⟩
  have key : ∀ t : Assignment, t.TrailInv → Grown assumedFacts s.assignment t →
      Searching K dead assumedFacts { s with assignment := t } ∧ Data Φ { s with assignment := t } ∧
        t.currentLevel = 1 := fun t ht hg =>
    ⟨h.grow hg.grows (h.rooted.grown hs.trailInv ht hg h₁), hdata.congr (.of_grows hg.grows),
      hg.grows.currentLevel.trans h₁⟩
  unfold propagateFactsOnSystemLevels
  generalize s.assignment.appendFacts assumedFacts = r at hend
  obtain ⟨_ | fact, t⟩ := r
  · exact key t hend.1.trailInv hend.2.1
  · exact key t hend.1.core.trail hend.2.1

theorem Searching.propagated (h : Searching K dead assumedFacts s) (hdata : Data Φ s)
    (hs : Steady s.clauses K Z dead s.assignment) (h₁ : s.assignment.currentLevel = 1)
    (hv : ∀ l ∈ assumedFacts, l.var ≤ s.maxVar) {failed : Option CNFLit} {t : CDCLSatSolver}
    (he : s.propagateFactsOnSystemLevels assumedFacts = (failed, t)) :
    FactsEnd t.clauses K Z dead assumedFacts s.assignment (failed, t.assignment) ∧ Similar s t ∧
      Searching K dead assumedFacts t ∧ Data Φ t ∧ t.assignment.currentLevel = 1 := by
  obtain ⟨hend, hsearch, hdata', h₁'⟩ := h.propagateFacts hdata hs h₁ hv
  rw [he] at hsearch hdata' h₁'
  cases he
  refine ⟨hend, ?_, hsearch, hdata', h₁'⟩
  generalize s.assignment.appendFacts assumedFacts = r at hend
  obtain ⟨_ | fact, t⟩ := r
  · exact .of_grows hend.2.1.grows
  · exact .of_grows hend.2.1.grows

/-! ## Decisions -/

theorem Assumed.grow (h : Assumed K dead assumedFacts s) {t : Assignment} (hg : Grows s.assignment t)
    (hr : t.Rooted s.facts assumedFacts) : Assumed K dead assumedFacts { s with assignment := t } := by
  refine ⟨h.toSearching.grow hg hr, fun l hl => ?_⟩
  obtain ⟨hm, h₁⟩ := h.held l hl
  exact ⟨hg.trail.subset hm, (hg.getLevel hm).trans_le h₁⟩

theorem Assumed.newLevel (h : Assumed K dead assumedFacts s) : Assumed K dead assumedFacts s.newLevel :=
  ⟨⟨h.toLinked.congr (.of_mem rfl rfl rfl rfl rfl rfl rfl) rfl, h.rooted.newLevel, Nat.le_add_left 1 _⟩, h.held⟩

/-- How the propagation of a literal ends on a level above the assumptions. -/
structure Searched (Φ : Set (Finset CNFLit)) (K Z : Set ClauseRef) (dead : Set CNFLit) (assumedFacts : List CNFLit)
    (e : Option ClauseRef × CDCLSatSolver) : Prop where
  data : Data Φ e.2
  assumed : Assumed K dead assumedFacts e.2
  ready : e.1 = none → Ready e.2.clauses K Z dead e.2.assignment
  clash : ∀ c, e.1 = some c → Clash e.2.clauses K Z dead c e.2.assignment

theorem appended_newLevel (hs : Steady s.clauses K Z dead s.assignment) (hsize : s.assignment.size = s.maxVar + 1)
    {l : CNFLit} (hl : s.assignment.getAssignment l = .INDETERMINATE) (hv : l.var ≤ s.maxVar) :
    (s.newLevel.append l).2.assignment.TrailInv ∧
      Appended l none s.newLevel.assignment (s.newLevel.append l).2.assignment :=
  (hs.newLevel.append hl ((Nat.lt_succ_of_le hv).trans_eq hsize.symm)).both
    (P := fun t => t.TrailInv ∧ Appended l none s.newLevel.assignment t)
    (fun _ h => ⟨h.1.core.trail, h.2⟩) fun _ _ h => ⟨h.1.core.trail, h.2⟩

theorem Assumed.append (h : Assumed K dead assumedFacts s) (hdata : Data Φ s)
    (hs : Steady s.clauses K Z dead s.assignment) {l : CNFLit} (hl : s.assignment.getAssignment l = .INDETERMINATE)
    (hv : l.var ≤ s.maxVar) : Searched Φ K Z dead assumedFacts (s.newLevel.append l) ∧
      2 ≤ (s.newLevel.append l).2.assignment.currentLevel := by
  have h₂ : 2 ≤ s.newLevel.assignment.currentLevel := Nat.succ_le_succ h.one_le
  have hend := hs.newLevel.append (l := l) hl ((Nat.lt_succ_of_le hv).trans_eq h.size_eq.symm)
  have key : ∀ t : Assignment, t.TrailInv → Appended l none s.newLevel.assignment t →
      Data Φ { s with assignment := t } ∧ Assumed K dead assumedFacts { s with assignment := t } ∧
        2 ≤ t.currentLevel := by
    intro t ht ha
    have hsim : Similar s.newLevel { s with assignment := t } := .of_grows ha.grows
    have hnew : Similar s s.newLevel := .of_mem rfl rfl rfl rfl rfl rfl rfl
    refine ⟨hdata.congr (hnew.trans hsim), ?_, h₂.trans_eq ha.grows.currentLevel.symm⟩
    refine h.newLevel.grow ha.grows (h.newLevel.rooted.decide hs.newLevel.trailInv ht ha h₂ fun y hy => ?_)
    exact Nat.lt_succ_of_le (hs.trailInv.level_le y hy)
  show Searched Φ K Z dead assumedFacts ((s.assignment.newLevel.append l .includeLemmas).1,
    { s with assignment := (s.assignment.newLevel.append l .includeLemmas).2 }) ∧ _
  show _ ∧ 2 ≤ (s.assignment.newLevel.append l .includeLemmas).2.currentLevel
  generalize s.assignment.newLevel.append l .includeLemmas = e at hend
  obtain ⟨_ | c, t⟩ := e
  · obtain ⟨hd, ha, h₂⟩ := key t hend.1.core.trail hend.2
    exact ⟨⟨hd, ha, fun _ => hend.1, fun c hc => absurd hc.symm (Option.some_ne_none c)⟩, h₂⟩
  · obtain ⟨hd, ha, h₂⟩ := key t hend.1.core.trail hend.2
    exact ⟨⟨hd, ha, fun hn => absurd hn (Option.some_ne_none c), fun d hd => Option.some.inj hd ▸ hend.1⟩, h₂⟩

/-! ## Models -/

theorem getAssignment_ne_indet {s : Assignment} (ht : s.TrailInv) (hc : s.isComplete = true) {l : CNFLit}
    (hl : l.var < s.size) : s.getAssignment l ≠ .INDETERMINATE := fun hi =>
  absurd (ht.length_lt hi hl) (by rw [beq_iff_eq.mp hc]; exact lt_irrefl _)

theorem Assumed.models (h : Assumed K dead assumedFacts s) (hdata : Data Φ s)
    (hs : Steady s.clauses K Z dead s.assignment) (hc : s.assignment.isComplete = true)
    (hu : s.detectedUNSAT = false)
    {σ : Valuation CNFLit} (hσ : ∀ l ∈ s.assignment.trail, σ.holds l) :
    σ.Models Φ ∧ ∀ l ∈ assumedFacts, σ.holds l := by
  have ht := hs.trailInv
  have hfacts : σ.Models (units {l | l ∈ s.facts}) := models_units.mpr fun l hl => hσ l (h.rooted.facts_mem l hl).1
  refine ⟨hdata.complete hu σ (models_union.mpr ⟨hfacts, ?_⟩), fun l hl => hσ l (h.held l hl).1⟩
  rintro _ ⟨c, ⟨hcd, ha, -⟩, rfl⟩
  by_contra hn
  refine (hs.notUnit (h.toSearching.dead_not_true ht) (h.kept c hcd ha)).not_falsified fun x hx => ?_
  have hlt : x.var < s.assignment.size := (Nat.lt_succ_of_le (hdata.vars c hcd x hx)).trans_eq h.size_eq.symm
  cases hx' : s.assignment.getAssignment x with
  | FALSE => rfl
  | INDETERMINATE => exact absurd hx' (getAssignment_ne_indet ht hc hlt)
  | TRUE => exact absurd ⟨x, Clause.mem_litSet.mpr hx, hσ x ((ht.mem_trail x).mpr hx')⟩ hn

theorem foldl_setAssignment (trail : List CNFLit) : ∀ m : Model, (trail.map CNFLit.var).Nodup →
    (∀ v, v ∉ trail.map CNFLit.var → (trail.foldl Model.setAssignment m).getAssignment v = m.getAssignment v) ∧
    ∀ l ∈ trail, (trail.foldl Model.setAssignment m).getAssignment l.var = .ofSign l.sign := by
  induction trail with
  | nil => exact fun m _ => ⟨fun _ _ => rfl, fun l hl => absurd hl List.not_mem_nil⟩
  | cons a trail ih =>
    intro m hn
    obtain ⟨ha, hn⟩ := List.nodup_cons.mp hn
    obtain ⟨hout, hin⟩ := ih (m.setAssignment a) hn
    refine ⟨fun v hv => ?_, fun l hl => ?_⟩
    · rw [List.map_cons, List.mem_cons, not_or] at hv
      rw [List.foldl_cons, hout v hv.2]
      exact Function.update_of_ne hv.1 _ _
    · rcases List.mem_cons.mp hl with rfl | hl
      · rw [List.foldl_cons, hout _ ha]
        exact Function.update_self _ _ _
      · exact hin l hl

end CDCLSatSolver

def Model.Extended (m : Model) (σ : Valuation CNFLit) : Prop :=
  ∀ l : CNFLit, m.getAssignment l.var = .ofSign l.sign → σ.holds l

end JamSAT
