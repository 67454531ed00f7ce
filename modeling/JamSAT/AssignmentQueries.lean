import JamSAT.AssignmentRuns
import JamSAT.AssignmentAnalysisSound
import JamSAT.DocumentedRuns
import JamSAT.FactPropagation

/-!
# Queries about reachable assignments

What `analyzeAssignment` answers for the implication graphs of reachable
assignments, and `isReason` in all documented runs: it is right unless it meets a
reason that an undo has left behind.
-/

namespace JamSAT

open UnitLogic

namespace Session

open Assignment AssignmentAnalysis

/-- The runs without modifications, and the careful ones with them. -/
def InContract (σ : Session) : Prop :=
  Session.Reachable Basic σ ∨ Session.Reachable (fun σ op => σ.Legal op ∧ σ.Careful op) σ

variable {σ : Session}

theorem InContract.run (h : σ.InContract) : ∃ mods, AsgRun mods σ := by
  cases h with
  | inl h => exact ⟨false, AsgRun.of_basic h⟩
  | inr h => exact ⟨true, AsgRun.of_careful h⟩

/-! ## The assumptions behind an assignment -/

theorem AsgRun.provider_reasons {mods : Bool} (h : AsgRun mods σ) : σ.asg.provider.Reasons σ.asg.trail :=
  h.reasons.reasons h.trail h.wf

theorem provider_reason_eq_none {s : Assignment} {v : CNFVar} : s.provider.reason v = none ↔ s.getReason v = none :=
  Option.map_eq_none_iff

theorem AsgRun.reason_mem {mods : Bool} (h : AsgRun mods σ) : ∀ l ∈ σ.asg.trail, ∀ reason,
    σ.asg.provider.reason l.var = some reason → reason.toFinset ∈ clauseSets σ.asg.mem {c | c ∈ σ.registered} := by
  intro l hl reason hr
  obtain ⟨c, hc, rfl⟩ := Option.map_eq_some_iff.mp hr
  exact mem_clauseSets (h.reasons.registered l hl c hc)

/-- The registered clauses, and the true literals of lower levels and those of
`tail` as unit clauses. -/
def explanation (σ : Session) (tail : List CNFLit) : Set (Finset CNFLit) :=
  clauseSets σ.asg.mem {c | c ∈ σ.registered} ∪
    {C | ∃ l, C = {l} ∧ (σ.asg.getAssignment l = .TRUE ∧ σ.asg.getLevel l.var < σ.asg.currentLevel ∨ l ∈ tail)}

/-- The analysis of an assigned literal ends, and returns it together with
exactly the true literals without a reason that lie behind it on the current
level, which explain why it is false. -/
theorem analyzeAssignment_of_reachable (h : σ.InContract) {query : CNFLit}
    (hq : σ.asg.getAssignment query ≠ .INDETERMINATE) {fuel : Nat} (hf : σ.asg.trail.length + 1 < fuel) :
    ∃ tail, analyzeAssignment σ.asg.provider fuel query = some (query :: tail) ∧ (query :: tail).Nodup ∧
      (∀ l, l ∈ tail ↔ σ.asg.getAssignment l = .TRUE ∧ σ.asg.getLevel l.var = σ.asg.currentLevel ∧
        σ.asg.getReason l.var = none ∧ σ.asg.getReason query.var ≠ none ∧
        Reaches σ.asg.provider query.var l.var) ∧
      (σ.asg.getAssignment query = .FALSE → σ.asg.getReason query.var ≠ none →
        Entails (σ.explanation tail) {-query}) := by
  obtain ⟨mods, hrun⟩ := h.run
  have ht := hrun.trail
  have hv : query.var ∈ σ.asg.trail.map CNFLit.var := by
    cases hval : σ.asg.getAssignment query with
    | TRUE => exact List.mem_map.mpr ⟨query, (ht.mem_trail query).mpr hval, rfl⟩
    | FALSE => exact List.mem_map.mpr ⟨-query, ht.neg_mem_trail.mpr hval, rfl⟩
    | INDETERMINATE => exact absurd hval hq
  obtain ⟨tail, he, hn, htail⟩ := analyzeAssignment_exact hrun.provider_reasons hf hv
  refine ⟨tail, he, hn, fun l => ?_, fun hval hr => ?_⟩
  · rw [htail, ht.mem_trail, provider_reason_eq_none, ne_eq, provider_reason_eq_none]
    rfl
  · have hr : σ.asg.provider.reason query.var ≠ none := fun hn => hr (provider_reason_eq_none.mp hn)
    have hd := analyzeAssignment_derives hrun.provider_reasons hrun.reason_mem hf (ht.neg_mem_trail.mpr hval) hr he
    intro v hv
    refine ⟨-query, Finset.mem_singleton_self _, ?_⟩
    refine hd.holds (hv.mono Set.subset_union_left) fun a ha => ?_
    have hunit : v.Satisfies {a} := by
      refine hv _ (.inr ⟨a, rfl, ?_⟩)
      cases ha with
      | inl ha => exact .inl ⟨(ht.mem_trail a).mp ha.1, lt_of_le_of_ne (ht.level_le a ha.1) ha.2⟩
      | inr ha => exact .inr ha
    obtain ⟨x, hx, hxv⟩ := hunit
    rwa [Finset.mem_singleton.mp hx] at hxv

theorem chain_analyzeAssignment : ∃ tail,
    analyzeAssignment chain.asg.provider 5 ⟨2, .negative⟩ = some (⟨2, .negative⟩ :: tail) ∧
      ((⟨2, .negative⟩ : CNFLit) :: tail).Nodup ∧
      (∀ l, l ∈ tail ↔ chain.asg.getAssignment l = .TRUE ∧
        chain.asg.getLevel l.var = chain.asg.currentLevel ∧ chain.asg.getReason l.var = none ∧
        chain.asg.getReason (2 : CNFVar) ≠ none ∧ Reaches chain.asg.provider (2 : CNFVar) l.var) ∧
      Entails (chain.explanation tail) {⟨2, .positive⟩} := by
  have hreach : Session.Reachable Basic chain := Reachable.foldl (.new _ _ _) (by decide)
  obtain ⟨tail, he, hnodup, htail, hentails⟩ :=
    @analyzeAssignment_of_reachable chain (.inl hreach) ⟨2, .negative⟩ (by decide) 5 (by decide)
  exact ⟨tail, he, hnodup, htail, hentails (by decide) (by decide)⟩

/-! ## Whether a clause is a reason -/

/-- An undo has left `c` behind as the reason of one of its first two variables,
at a level that is in use again. -/
def Leftover (s : Assignment) (c : ClauseRef) : Prop :=
  s.trail ≠ [] ∧ ∃ i : Fin 2, s.getAssignment ((s.mem c).lit i) = .INDETERMINATE ∧
    s.getReason ((s.mem c).lit i).var = some c ∧ s.getLevel ((s.mem c).lit i).var ≤ s.currentLevel

theorem isReason_iff {s : Assignment} {c : ClauseRef} : s.isReason c = true ↔ s.trail ≠ [] ∧
    ∃ i : Fin 2, s.getReason ((s.mem c).lit i).var = some c ∧
      s.getLevel ((s.mem c).lit i).var ≤ s.currentLevel := by
  unfold Assignment.isReason getNumAssignments
  simp [Fin.exists_fin_two]

/-- `isReason` is right about a registered clause exactly if it is not left over. -/
theorem isReason_exact_iff (h : Session.Reachable Documented σ) {c : ClauseRef} (hc : c ∈ σ.registered) :
    (σ.asg.isReason c = true ↔
      ∃ l, σ.asg.getAssignment l = .TRUE ∧ σ.asg.getReason l.var = some c) ↔ ¬ Leftover σ.asg c := by
  have hrun := ReasonRun.of_reachable h
  have ht := hrun.trail
  have hforced : ∀ l, σ.asg.getAssignment l = .TRUE → σ.asg.getReason l.var = some c →
      (∃ i : Fin 2, (σ.asg.mem c).lit i = l) ∧ ∀ x ∈ (σ.asg.mem c).lits, x ≠ l →
        σ.asg.getAssignment x = .FALSE := by
    intro l hl hr
    obtain ⟨pre, suf, he⟩ := List.append_of_mem ((ht.mem_trail l).mpr hl)
    have hp : pre ++ [l] <+: σ.asg.trail := ⟨suf, by rw [he, List.append_assoc, List.singleton_append]⟩
    obtain ⟨hw, ho⟩ := hrun.reasons.reason pre l hp c hr
    refine ⟨hw, fun x hx hne => ht.neg_mem_trail.mp (hp.subset (List.mem_append_left _ (ho x hx hne)))⟩
  rw [isReason_iff]
  constructor
  · intro hexact hleft
    obtain ⟨hne, i, hind, hr, hlev⟩ := hleft
    obtain ⟨l, hl, hlr⟩ := hexact.mp ⟨hne, i, hr, hlev⟩
    have hsize := hrun.lists.watch.two_le c hc
    have hx : (σ.asg.mem c).lit i ∈ (σ.asg.mem c).lits := Clause.lit_mem (by omega)
    by_cases he : (σ.asg.mem c).lit i = l
    · rw [he, hl] at hind
      cases hind
    · rw [(hforced l hl hlr).2 _ hx he] at hind
      cases hind
  · intro hleft
    constructor
    · intro hr
      obtain ⟨hne, i, hr, hlev⟩ := hr
      cases hval : σ.asg.getAssignment ((σ.asg.mem c).lit i) with
      | TRUE => exact ⟨_, hval, hr⟩
      | FALSE => exact ⟨-(σ.asg.mem c).lit i, getAssignment_neg_eq_true.mpr hval, hr⟩
      | INDETERMINATE => exact absurd ⟨hne, i, hval, hr, hlev⟩ hleft
    · intro hl
      obtain ⟨l, hl, hr⟩ := hl
      have hmem := (ht.mem_trail l).mpr hl
      obtain ⟨⟨i, rfl⟩, -⟩ := hforced l hl hr
      exact ⟨List.ne_nil_of_mem hmem, i, hr, ht.level_le _ hmem⟩

def late : Session :=
  [Op.newLevel, .append ⟨3, .positive⟩ .includeLemmas, .registerClause 0, .newLevel,
    .append ⟨0, .negative⟩ .includeLemmas, .newLevel, .append ⟨1, .negative⟩ .includeLemmas,
    .registerLemma 1].foldl exec
    (new (fun c => if c = 0 then .ofLits [⟨0, .positive⟩, ⟨1, .positive⟩, ⟨2, .positive⟩]
      else .ofLits [⟨4, .positive⟩, ⟨3, .negative⟩]) 4)

theorem late_isReason : (late.asg.isReason 1 = true ∧
    ∃ l, late.asg.getAssignment l = .TRUE ∧ late.asg.getReason l.var = some 1) ∧ ¬ Leftover late.asg 1 := by
  have hreach : Session.Reachable Documented late := Reachable.foldl (.new _ _ _) (by decide)
  have hreason : late.asg.isReason 1 = true := by decide
  have hforced : ∃ l, late.asg.getAssignment l = .TRUE ∧ late.asg.getReason l.var = some 1 :=
    ⟨⟨4, .positive⟩, by decide⟩
  exact ⟨⟨hreason, hforced⟩, (isReason_exact_iff (σ := late) hreach (c := 1) (by decide)).mp
    (iff_of_true hreason hforced)⟩

/-- The clause `(0, 1, 2)` has forced `2` on the first level, which is undone
and entered again with `3`. -/
def reentered : Session :=
  [Op.registerClause 0, .newLevel, .append ⟨0, .negative⟩ .includeLemmas, .append ⟨1, .negative⟩ .includeLemmas,
    .undoToLevel 0, .newLevel, .append ⟨3, .positive⟩ .includeLemmas].foldl exec
    (new (fun _ => .ofLits [⟨0, .positive⟩, ⟨1, .positive⟩, ⟨2, .positive⟩]) 3)

theorem reentered_isReason : ∃ σ, Session.Reachable Documented σ ∧ ∃ c ∈ σ.registered, σ.asg.isReason c = true ∧
    ¬ ∃ l, σ.asg.getAssignment l = .TRUE ∧ σ.asg.getReason l.var = some c := by
  have hreach : Session.Reachable Documented reentered := Reachable.foldl (.new _ _ _) (by decide)
  refine ⟨reentered, hreach, 0, by decide, by decide, fun ⟨l, hl, hr⟩ => ?_⟩
  have hnone : ∀ l ∈ reentered.asg.trail, reentered.asg.getReason l.var ≠ some 0 := by decide
  exact hnone l (((ReasonRun.of_reachable hreach).trail.mem_trail l).mpr hl) hr

end Session

end JamSAT
