import JamSAT.FactCleanerSound
import JamSAT.Runs

/-!
# Searching after the facts have been cleaned

A search goes on from what the fact cleaner has returned: the facts are
propagated again, then levels are opened, literals appended, lemmas registered
and levels undone. The facts stay true below all of it, so that the literals the
cleaner has removed stay false, wherever they are left as blockers.
-/

namespace JamSAT

open UnitLogic Assignment

structure Search where
  asg : Assignment
  facts : List CNFLit
  clauses : List ClauseRef
  /-- the last propagation has ended with a conflict -/
  conflict : Bool

namespace Search

inductive Op
  | newLevel
  | append (l : CNFLit)
  | registerLemma (c : ClauseRef) (cl : Clause)
  | undoToLevel (k : Nat)
  /-- `undoAll`, and then all facts are propagated again -/
  | repropagate

def exec (σ : Search) : Op → Search
  | .newLevel => { σ with asg := σ.asg.newLevel }
  | .append l =>
    let r := σ.asg.append l .includeLemmas
    { σ with asg := r.2, conflict := r.1.isSome }
  | .registerLemma c cl =>
    let r := (σ.asg.writeClause c cl).registerLemma c
    { σ with asg := r.2, clauses := σ.clauses ++ [c], conflict := r.1.isSome }
  | .undoToLevel k => { σ with asg := σ.asg.undoToLevel k, conflict := false }
  | .repropagate =>
    let r := σ.asg.undoAll.appendFacts σ.facts
    { σ with asg := r.2, conflict := r.1.isSome }

def Legal (σ : Search) : Op → Prop
  | .newLevel => σ.conflict = false
  | .append l => σ.conflict = false ∧ σ.asg.getAssignment l = .INDETERMINATE ∧ l.var < σ.asg.size
  | .registerLemma c cl => σ.conflict = false ∧ c ∉ σ.clauses ∧ cl.scheduledForDeletion = false ∧
      cl.WellFormed ∧ (∀ l ∈ cl.lits, l.var < σ.asg.size) ∧
      σ.asg.getAssignment (cl.lit 0) = .INDETERMINATE ∧
      (∀ x ∈ cl.lits, x ≠ cl.lit 0 → σ.asg.getAssignment x = .FALSE) ∧
      σ.asg.getLevel (cl.lit 1).var = σ.asg.currentLevel
  | .undoToLevel k => k < σ.asg.currentLevel
  | .repropagate => True

/-- The optimizer is done, its occurrence map is destroyed and the facts are propagated. -/
def start (st : SharedOptimizerState) : Search :=
  exec ⟨{ st.assignment with mem := st.occMap.destroy st.mem }, st.facts, st.clauseDB, false⟩ .repropagate

def Reachable (st : SharedOptimizerState) : Search → Prop :=
  Runs.Reachable (fun σ => σ = start st) fun σ τ => ∃ op, σ.Legal op ∧ τ = σ.exec op

def formula (σ : Search) : Set (Finset CNFLit) := formulaOf σ.facts σ.asg.mem σ.clauses

structure Data (R K : Set ClauseRef) (dead : Set CNFLit) (σ : Search) : Prop where
  kept : ∀ c ∈ σ.clauses, (σ.asg.mem c).scheduledForDeletion = false → c ∈ K
  known : ∀ c ∈ R, c ∈ σ.clauses
  implied : ∀ c ∈ R, Entails σ.formula (σ.asg.mem c).litSet
  dead_false : ∀ l ∈ dead, -l ∈ σ.facts
  lt_size : ∀ l ∈ σ.facts, l.var < σ.asg.size

structure Inv (R K Z : Set ClauseRef) (dead : Set CNFLit) (σ : Search) : Prop extends Data R K dead σ where
  state : Steady R K Z dead σ.asg ∨ σ.conflict = true ∧ ∃ c, Clash R K Z dead c σ.asg
  placed : σ.conflict = false ∨ 0 < σ.asg.currentLevel →
    ∀ l ∈ σ.facts, l ∈ σ.asg.trail ∧ σ.asg.getLevel l.var = 0

section
variable {R K : Set ClauseRef} {dead : Set CNFLit} {σ : Search}

/-- Clause objects are permuted at most. -/
theorem Data.retrail (h : Data R K dead σ) {t : Assignment} {b : Bool}
    (hl : ∀ c, (t.mem c).lits.Perm (σ.asg.mem c).lits)
    (hd : ∀ c, (t.mem c).scheduledForDeletion = (σ.asg.mem c).scheduledForDeletion) (hs : t.size = σ.asg.size) :
    Data R K dead { σ with asg := t, conflict := b } where
  kept c hc ha := h.kept c hc (hd c ▸ ha)
  known := h.known
  implied c hc := by
    have hset : (t.mem c).litSet = (σ.asg.mem c).litSet := List.toFinset_eq_of_perm _ _ (hl c)
    show Entails (formulaOf σ.facts t.mem σ.clauses) (t.mem c).litSet
    rw [formulaOf_congr hl hd, hset]
    exact h.implied c hc
  dead_false := h.dead_false
  lt_size l hlf := (h.lt_size l hlf).trans_eq hs.symm

theorem Data.enter (h : Data R K dead σ) {c : ClauseRef} {cl : Clause} (hc : c ∉ σ.clauses)
    (ha : cl.scheduledForDeletion = false) : Data (insert c R) (insert c K) dead
      { σ with asg := σ.asg.writeClause c cl, clauses := σ.clauses ++ [c] } := by
  have hmem : ∀ d ∈ σ.clauses, (σ.asg.writeClause c cl).mem d = σ.asg.mem d := by
    intro d hd
    have hne : d ≠ c := fun he => hc (he ▸ hd)
    exact writeClause_mem_of_ne hne
  have hself : (σ.asg.writeClause c cl).mem c = cl := writeClause_mem_self _ _ _
  have hnew : c ∈ σ.clauses ++ [c] := List.mem_append_right _ (List.mem_singleton_self c)
  have hsub : σ.formula ⊆ formulaOf σ.facts (σ.asg.writeClause c cl).mem (σ.clauses ++ [c]) := by
    rintro C (hC | ⟨d, ⟨hd, had⟩, rfl⟩)
    · exact .inl hC
    · rw [← hmem d hd] at had ⊢
      exact mem_formulaOf (List.mem_append_left _ hd) had
  refine ⟨fun d hd had => ?_, fun d hd => ?_, fun d hd => ?_, h.dead_false, h.lt_size⟩
  · rcases List.mem_append.mp hd with hd | hd
    · exact .inr (h.kept d hd (hmem d hd ▸ had))
    · exact .inl (List.mem_singleton.mp hd)
  · rcases hd with rfl | hd
    · exact hnew
    · exact List.mem_append_left _ (h.known d hd)
  · rcases hd with rfl | hd
    · exact .of_mem (mem_formulaOf hnew (hself.symm ▸ ha))
    · have hi := (h.implied d hd).mono hsub
      rwa [← hmem d (h.known d hd)] at hi

end

namespace Inv

variable {R K Z : Set ClauseRef} {dead : Set CNFLit} {σ : Search} (h : Inv R K Z dead σ)
include h

theorem steady (hc : σ.conflict = false) : Steady R K Z dead σ.asg :=
  h.state.resolve_right fun hc' => Bool.false_ne_true (hc.symm.trans hc'.1)

theorem retrail {t : Assignment} {b : Bool} (hl : ∀ c, (t.mem c).lits.Perm (σ.asg.mem c).lits)
    (hd : ∀ c, (t.mem c).scheduledForDeletion = (σ.asg.mem c).scheduledForDeletion) (hs : t.size = σ.asg.size)
    (hst : Steady R K Z dead t ∨ b = true ∧ ∃ c, Clash R K Z dead c t)
    (hp : b = false ∨ 0 < t.currentLevel → ∀ l ∈ σ.facts, l ∈ t.trail ∧ t.getLevel l.var = 0) :
    Inv R K Z dead { σ with asg := t, conflict := b } :=
  ⟨h.toData.retrail hl hd hs, hst, hp⟩

omit h in
/-- A literal has been put on the trail of `s` and has been propagated. -/
theorem of_appended {s : Assignment} {l : CNFLit} {r : Option ClauseRef} {e : Option ClauseRef × Assignment}
    (hdata : Data R K dead { σ with asg := s })
    (hp : ∀ l ∈ σ.facts, l ∈ s.trail ∧ s.getLevel l.var = 0)
    (he : EndsFixpoint (fun t => Ready R K Z dead t ∧ Appended l r s t)
      (fun c t => Clash R K Z dead c t ∧ Appended l r s t) e) :
    Inv R K Z dead { σ with asg := e.2, conflict := e.1.isSome } := by
  have key : ∀ (t : Assignment) (b : Bool), (Steady R K Z dead t ∨ b = true ∧ ∃ c, Clash R K Z dead c t) →
      Grows s t → Inv R K Z dead { σ with asg := t, conflict := b } := by
    intro t b hst hg
    refine ⟨hdata.retrail (t := t) (b := b) hg.lits hg.scheduledForDeletion hg.size, hst, fun _ x hx => ?_⟩
    obtain ⟨hm, hlev⟩ := hp x hx
    exact ⟨hg.trail.subset hm, (hg.getLevel hm).trans hlev⟩
  obtain ⟨_ | c, t⟩ := e
  · exact key t false (.inl (.ready he.1)) he.2.grows
  · exact key t true (.inr ⟨rfl, c, he.1⟩) he.2.grows

theorem append {l : CNFLit} (hok : σ.Legal (.append l)) : Inv R K Z dead (σ.exec (.append l)) := by
  obtain ⟨hc, hl, hr⟩ := hok
  exact of_appended h.toData (h.placed (.inl hc)) ((h.steady hc).append hl hr)

theorem registerLemma {c : ClauseRef} {cl : Clause} (hok : σ.Legal (.registerLemma c cl)) :
    Inv (insert c R) (insert c K) Z dead (σ.exec (.registerLemma c cl)) := by
  obtain ⟨hconf, hc, ha, hwf, hv, h₀, ho, h₁⟩ := hok
  have hcR : c ∉ R := fun hcR => hc (h.known c hcR)
  have hself : (σ.asg.writeClause c cl).mem c = cl := writeClause_mem_self _ _ _
  have hready : Ready R K Z dead (σ.asg.writeClause c cl) := by
    cases h.steady hconf with
    | ready hr => exact hr.writeClause hcR cl
    | idle hi =>
      -- the second literal of the lemma is assigned
      have hne : cl.lit 1 ≠ cl.lit 0 := fun he =>
        absurd (hwf.lit_inj (hwf.watch_lt 1) (hwf.watch_lt 0) he) (by decide)
      have hm := hi.trail.neg_mem_trail.mpr (ho _ (Clause.lit_mem (hwf.watch_lt 1)) hne)
      rw [hi.nil] at hm
      cases hm
  refine of_appended (σ := { σ with clauses := σ.clauses ++ [c] }) (h.toData.enter hc ha) (h.placed (.inl hconf))
    (hready.registerLemma hcR ?_ ?_ ?_ ?_)
  all_goals rw [hself]
  · exact hwf
  · exact hv
  · exact fun hd => absurd (ha.symm.trans hd) Bool.false_ne_true
  · exact ⟨h₀, ho, h₁⟩

theorem newLevel (hc : σ.conflict = false) : Inv R K Z dead (σ.exec .newLevel) :=
  h.retrail (fun _ => .refl _) (fun _ => rfl) rfl (.inl (h.steady hc).newLevel) fun _ => h.placed (.inl hc)

theorem undoToLevel {k : Nat} (hk : k < σ.asg.currentLevel) : Inv R K Z dead (σ.exec (.undoToLevel k)) := by
  have hst : Steady R K Z dead (σ.asg.undoToLevel k) ∧ σ.asg.TrailInv := by
    rcases h.state with hs | ⟨-, c, hc⟩
    · exact ⟨hs.undoToLevel hk, hs.trailInv⟩
    · exact ⟨.ready (hc.undoToLevel hk), hc.core.trail⟩
  refine h.retrail (fun c => by rw [undoToLevel_mem]) (fun c => by rw [undoToLevel_mem]) (by simp) (.inl hst.1) ?_
  intro _ l hl
  obtain ⟨hm, hlev⟩ := h.placed (.inr (by omega)) l hl
  have hlev' : (σ.asg.undoToLevel k).getLevel l.var = σ.asg.getLevel l.var := by simp [getLevel]
  refine ⟨?_, hlev'.trans hlev⟩
  rw [undoToLevel_trail]
  exact (hst.2.mem_take_limit hk).mpr ⟨hm, by omega⟩

omit h in
theorem of_repropagate (h : Data R K dead σ)
    (hst : Steady R K Z dead σ.asg ∨ σ.conflict = true ∧ ∃ c, Clash R K Z dead c σ.asg) :
    Inv R K Z dead (σ.exec .repropagate) := by
  have hidle : Idle R K Z dead σ.asg.undoAll := by
    rcases hst with hs | ⟨-, c, hc⟩
    · exact hs.undoAll
    · exact hc.undoAll
  have hend : FactsEnd R K Z dead σ.facts σ.asg.undoAll (σ.asg.undoAll.appendFacts σ.facts) :=
    (Steady.idle hidle).appendFacts (by simpa using h.lt_size)
  have key : ∀ (t : Assignment) (b : Bool), (Steady R K Z dead t ∨ b = true ∧ ∃ c, Clash R K Z dead c t) →
      Grows σ.asg.undoAll t → (b = false → t.TrailInv ∧ ∀ l ∈ σ.facts, l ∈ t.trail) →
      Inv R K Z dead { σ with asg := t, conflict := b } := by
    intro t b hst hg hall
    have hlevel : t.currentLevel = 0 := hg.currentLevel
    refine ⟨h.retrail (t := t) (b := b) (fun c => ?_) (fun c => ?_) ?_, hst, fun hb l hl => ?_⟩
    · simpa using hg.lits c
    · simpa using hg.scheduledForDeletion c
    · simpa using hg.size
    · obtain ⟨ht, hall⟩ := hall (hb.resolve_right (Nat.not_lt.mpr hlevel.le))
      exact ⟨hall l hl, Nat.le_zero.mp ((ht.level_le l (hall l hl)).trans_eq hlevel)⟩
  show Inv R K Z dead { σ with
    asg := (σ.asg.undoAll.appendFacts σ.facts).2, conflict := (σ.asg.undoAll.appendFacts σ.facts).1.isSome }
  generalize σ.asg.undoAll.appendFacts σ.facts = r at hend
  obtain ⟨_ | fact, t⟩ := r
  · obtain ⟨hs, hg, hm⟩ := hend
    exact key t false (.inl hs) hg.grows fun _ => ⟨hs.trailInv, hm⟩
  · obtain ⟨hs, hg, -⟩ := hend
    refine key t true ?_ hg.grows fun hb => absurd hb Bool.noConfusion
    cases hs with
    | isFalse hr _ => exact .inl (.ready hr)
    | clash hc _ _ => exact .inr ⟨rfl, _, hc⟩

theorem exec {op : Op} (hok : σ.Legal op) : ∃ R' K', Inv R' K' Z dead (σ.exec op) := by
  cases op with
  | newLevel => exact ⟨R, K, h.newLevel hok⟩
  | append l => exact ⟨R, K, h.append hok⟩
  | registerLemma c cl => exact ⟨_, _, h.registerLemma hok⟩
  | undoToLevel k => exact ⟨R, K, h.undoToLevel hok⟩
  | repropagate => exact ⟨R, K, of_repropagate h.toData h.state⟩

omit h in
theorem start {st : SharedOptimizerState} (h : st.Registered R K Z dead) : Inv R K Z dead (Search.start st) := by
  have hs := OccurrenceMap.same_destroy st.mem st.occMap
  have hlits : ∀ c, (st.occMap.destroy st.mem c).lits.Perm (st.mem c).lits := fun c => .of_eq (hs.lits c)
  refine of_repropagate ⟨fun c hc ha => h.kept c hc ((hs.scheduledForDeletion c).symm.trans ha), h.known,
    fun c hc => ?_, h.dead, h.lt_size⟩ (.inl (.idle (h.idle.of_same hs)))
  have hset : (st.occMap.destroy st.mem c).litSet = (st.mem c).litSet := List.toFinset_eq_of_perm _ _ (hlits c)
  show Entails (formulaOf st.facts (st.occMap.destroy st.mem) st.clauseDB) (st.occMap.destroy st.mem c).litSet
  rw [formulaOf_congr hlits hs.scheduledForDeletion, hset]
  exact h.implied c hc

end Inv

instance (σ : Search) : ∀ op, Decidable (σ.Legal op)
  | .newLevel => inferInstanceAs (Decidable (σ.conflict = false))
  | .append l => inferInstanceAs (Decidable (σ.conflict = false ∧
      σ.asg.getAssignment l = .INDETERMINATE ∧ l.var < σ.asg.size))
  | .registerLemma c cl => inferInstanceAs (Decidable (σ.conflict = false ∧ c ∉ σ.clauses ∧
      cl.scheduledForDeletion = false ∧ cl.WellFormed ∧ (∀ l ∈ cl.lits, l.var < σ.asg.size) ∧
      σ.asg.getAssignment (cl.lit 0) = .INDETERMINATE ∧
      (∀ x ∈ cl.lits, x ≠ cl.lit 0 → σ.asg.getAssignment x = .FALSE) ∧
      σ.asg.getLevel (cl.lit 1).var = σ.asg.currentLevel))
  | .undoToLevel k => inferInstanceAs (Decidable (k < σ.asg.currentLevel))
  | .repropagate => .isTrue trivial

theorem Inv.of_reachable {R K Z : Set ClauseRef} {dead : Set CNFLit} {st : SharedOptimizerState} {σ : Search}
    (h : st.Registered R K Z dead) (hσ : Reachable st σ) : ∃ R' K', Inv R' K' Z dead σ :=
  Runs.Reachable.invariant (I := fun σ => ∃ R' K', Inv R' K' Z dead σ) hσ
    (fun _ he => he ▸ ⟨R, K, .start h⟩) fun _ _ ⟨_, _, hi⟩ ⟨_, hok, he⟩ => he ▸ hi.exec hok

/-- Unit propagation after a simplification: what is forced is implied by the
clauses that are left, the facts and the trail before it; and without a conflict
the facts are on the trail and no clause that is left is falsified or unit. -/
theorem simplified_propagation {R K Z : Set ClauseRef} {dead : Set CNFLit} {st : SharedOptimizerState}
    (h : st.Registered R K Z dead) (fc : FactCleaner) (unitLemmas : Nat)
    (hu : (fc.optimize st unitLemmas).2.detectedUnsat = false) {σ : Search}
    (hσ : Reachable (fc.optimize st unitLemmas).2 σ) :
    (∀ pre l, pre ++ [l] <+: σ.asg.trail → σ.asg.getReason l.var ≠ none →
      Entails (units {x | x ∈ pre} ∪ σ.formula) {l}) ∧
    (σ.conflict = false → (∀ l ∈ σ.facts, l ∈ σ.asg.trail) ∧
      ∀ c ∈ σ.clauses, (σ.asg.mem c).scheduledForDeletion = false →
        (¬ ∀ x ∈ (σ.asg.mem c).lits, σ.asg.getAssignment x = .FALSE) ∧
        ¬ ∃ u ∈ (σ.asg.mem c).lits, σ.asg.getAssignment u = .INDETERMINATE ∧
          ∀ x ∈ (σ.asg.mem c).lits, x ≠ u → σ.asg.getAssignment x = .FALSE) := by
  obtain ⟨K', dead', hr⟩ := FactCleaner.optimize_registered h fc unitLemmas hu
  obtain ⟨R₁, K₁, hi⟩ := Inv.of_reachable hr hσ
  constructor
  · intro pre l hp hreason
    have hl : l ∈ σ.asg.trail := hp.subset (List.mem_append_right _ (List.mem_singleton_self l))
    obtain ⟨c, hc⟩ := Option.ne_none_iff_exists'.mp hreason
    have hcore : Core R₁ K₁ Z dead' σ.asg := by
      rcases hi.state with hs | ⟨-, d, hd⟩
      · cases hs with
        | ready hs => exact hs.core
        | idle hs => rw [hs.nil] at hl; cases hl
      · exact hd.core
    obtain ⟨-, ho⟩ := hcore.reasons.explained.reason pre l hp c hc
    intro τ hτ
    obtain ⟨hpre, hform⟩ := models_union.mp hτ
    have hsat := hi.implied c (hcore.reasons.registered l hl c hc) τ hform
    refine ⟨l, Finset.mem_singleton_self l, hsat.unit fun x hx hne => ?_⟩
    exact models_units.mp hpre (-x) (ho x (Clause.mem_litSet.mp hx) hne)
  · intro hc
    have hplaced := hi.placed (.inl hc)
    have hsteady := hi.steady hc
    refine ⟨fun l hl => (hplaced l hl).1, fun c hcc ha => ?_⟩
    have hdead : ∀ x ∈ dead', σ.asg.getAssignment x ≠ .TRUE := by
      intro x hx hxt
      have hn := (hplaced _ (hi.dead_false x hx)).1
      exact hsteady.trailInv.neg_not_mem ((hsteady.trailInv.mem_trail x).mpr hxt) hn
    have hn := hsteady.notUnit hdead (hi.kept c hcc ha)
    exact ⟨hn.not_falsified, fun ⟨u, _, hu, hf⟩ => hn.not_unit hu hf⟩

def afterTwoClauses : Search :=
  ((start ((⟨0, 0⟩ : FactCleaner).optimize FactCleaner.twoClauses 0).2).exec .newLevel).exec
    (.append ⟨1, .negative⟩)

theorem afterTwoClauses_propagation :
    (∀ l ∈ afterTwoClauses.facts, l ∈ afterTwoClauses.asg.trail) ∧
    (¬ ∀ x ∈ (afterTwoClauses.asg.mem 1).lits, afterTwoClauses.asg.getAssignment x = .FALSE) ∧
    ¬ ∃ u ∈ (afterTwoClauses.asg.mem 1).lits, afterTwoClauses.asg.getAssignment u = .INDETERMINATE ∧
      ∀ x ∈ (afterTwoClauses.asg.mem 1).lits, x ≠ u → afterTwoClauses.asg.getAssignment x = .FALSE := by
  obtain ⟨-, hcomplete⟩ := simplified_propagation FactCleaner.twoClauses_registered ⟨0, 0⟩ 0 (by decide)
    (σ := afterTwoClauses)
    (.step (.step (.init rfl) ⟨.newLevel, by decide, rfl⟩) ⟨.append _, by decide, rfl⟩)
  obtain ⟨hfacts, hclauses⟩ := hcomplete (by decide)
  exact ⟨hfacts, hclauses 1 (by decide) (by decide)⟩

end Search

end JamSAT
