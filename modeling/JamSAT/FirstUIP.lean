import JamSAT.ConflictAnalysisSound

/-!
# First unique implication points

The clause that first-UIP learning returns is a resolvent of the conflicting clause with
reasons. Its first literal is the negation of the last entry of the current level through
which every path from the decision to the conflict passes.
-/

namespace JamSAT

open UnitLogic

/-- The current level is a decision and the entries it has forced; a reason above level 0 has a second
literal on the level of the entry it has forced. -/
structure Provider.DecisionLevel (p : Provider) (T : List CNFLit) : Prop extends p.Reasons T where
  regular : ∀ l ∈ T, l.var < CNFVar.undefinedVariable
  split : ∃ below, T = below ++ p.levelAssignments ∧ ∀ l ∈ below, p.level l.var < p.currentLevel
  level_eq : ∀ l ∈ p.levelAssignments, p.level l.var = p.currentLevel
  forced : ∀ l ∈ p.levelAssignments.tail, p.reason l.var ≠ none
  second : ∀ l ∈ T, ∀ C, p.reason l.var = some C → p.level l.var ≠ 0 →
    ∃ x ∈ C, x ≠ l ∧ p.level x.var = p.level l.var

theorem Provider.DecisionLevel.graph {p : Provider} {T : List CNFLit} (g : p.DecisionLevel T) :
    p.Graph Set.univ T where
  nodup_vars := g.nodup_vars
  regular := g.regular
  split := g.split
  level_eq := g.level_eq
  reason pre l hp R hR := ⟨(g.reason pre l hp R hR).1, Set.mem_univ _, (g.reason pre l hp R hR).2⟩
  fact _ _ _ := .of_unit (Set.mem_univ _)

theorem Provider.Graph.univ {p : Provider} {Φ : Set (Finset CNFLit)} {T : List CNFLit} (g : p.Graph Φ T) :
    p.Graph Set.univ T where
  nodup_vars := g.nodup_vars
  regular := g.regular
  split := g.split
  level_eq := g.level_eq
  reason pre l hp R hR := ⟨(g.reason pre l hp R hR).1, Set.mem_univ _, (g.reason pre l hp R hR).2.2⟩
  fact _ _ _ := .of_unit (Set.mem_univ _)

theorem Provider.DecisionLevel.everyForced {p : Provider} {T : List CNFLit} (g : p.DecisionLevel T) :
    FirstUIPLearning.Forced p := by
  intro pre l hp hne
  obtain ⟨suf, hsuf⟩ := hp
  apply g.forced l
  rw [← hsuf]
  cases pre with
  | nil => exact absurd rfl hne
  | cons a pre => simp

namespace FirstUIPLearning

open Stamps

/-- There is a path from the entry to the conflict whose inner nodes are in `S`. -/
inductive Feeds (p : Provider) (C : List CNFLit) (S : Set CNFLit) : CNFLit → Prop
  | conflict {l : CNFLit} (h : -l ∈ C) : Feeds p C S l
  | reason {l m : CNFLit} {R : List CNFLit} (hm : m ∈ S) (hR : p.reason m.var = some R) (hl : -l ∈ R)
    (h : Feeds p C S m) : Feeds p C S l

def IsUIP (p : Provider) (C : List CNFLit) (d u : CNFLit) : Prop :=
  d = u ∨ ¬ Feeds p C {m | m ∈ p.levelAssignments ∧ m ≠ u} d

/-- `u` is the unique implication point of the current level that is closest to the conflict. -/
def FirstUIP (p : Provider) (C : List CNFLit) (u : CNFLit) : Prop :=
  ∃ d pre suf, p.levelAssignments.head? = some d ∧ p.levelAssignments = pre ++ u :: suf ∧ IsUIP p C d u ∧
    ∀ w ∈ suf, ¬ IsUIP p C d w

variable {p : Provider} {T C : List CNFLit}

theorem Feeds.mono {S S' : Set CNFLit} (hs : S ⊆ S') {l : CNFLit} (h : Feeds p C S l) : Feeds p C S' l := by
  induction h with
  | conflict h => exact .conflict h
  | reason hm hR hl _ ih => exact .reason (hs hm) hR hl ih

section
variable (g : p.DecisionLevel T)
include g

theorem nodup_level : p.levelAssignments.Nodup :=
  .of_map CNFLit.var (nodup_of_initial g.graph (List.prefix_refl _))

theorem before_of_reason {pre : List CNFLit} {l m : CNFLit} (hp : pre ++ [m] <+: p.levelAssignments)
    {R : List CNFLit} (hR : p.reason m.var = some R) (hl : l ∈ p.levelAssignments) (hlR : -l ∈ R) : l ∈ pre := by
  have hm : m ∈ p.levelAssignments := hp.subset (List.mem_append_right _ (List.mem_singleton_self m))
  have hne : -l ≠ m := by
    intro he
    have hv : l.var = m.var := (CNFLit.var_neg l).symm.trans (congrArg CNFLit.var he)
    have := g.eq_of_var_eq (g.graph.mem_of_levelAssignments hl) (g.graph.mem_of_levelAssignments hm) hv
    exact CNFLit.neg_ne_self l (he.trans this.symm)
  have := ((g.graph.reason_here hp hR).2.2 (-l) hlR hne).2 (g.level_eq l hl)
  rwa [neg_neg] at this

/-- A path from an entry not in `pre` visits only entries that come later. -/
theorem Feeds.later {pre : List CNFLit} {m l : CNFLit} {S : Set CNFLit} (hp : pre ++ [m] <+: p.levelAssignments)
    (hS : ∀ x ∈ S, x ∈ p.levelAssignments) (h : Feeds p C S l) :
    l ∈ p.levelAssignments → l ∉ pre → Feeds p C {x | x ∈ S ∧ x ∉ pre ++ [m]} l := by
  induction h with
  | conflict h => exact fun _ _ => .conflict h
  | @reason l k R hk hR hlR _ ih =>
    intro hl hn
    have hkn : k ∉ pre ++ [m] := by
      intro hk'
      obtain ⟨a, b, hab⟩ := List.append_of_mem hk'
      have ha : a ++ [k] <+: pre ++ [m] := ⟨b, by rw [hab]; simp⟩
      have hla := before_of_reason g (ha.trans hp) hR hl hlR
      obtain ⟨b', hb'⟩ : a <+: pre := by
        refine List.prefix_of_prefix_length_le ((List.prefix_append _ _).trans ha) (List.prefix_append _ _) ?_
        have := ha.length_le
        simpa using this
      exact hn (hb' ▸ List.mem_append_left _ hla)
    exact .reason ⟨hk, hkn⟩ hR hlR (ih (hS k hk) fun h => hkn (List.mem_append_left _ h))

/-- Passing `m` on the way down the trail opens the paths through `m`. -/
theorem feeds_pass {pre : List CNFLit} {m : CNFLit} (hp : pre ++ [m] <+: p.levelAssignments)
    (l : CNFLit) :
    Feeds p C {x | x ∈ p.levelAssignments ∧ x ∉ pre} l ↔
      Feeds p C {x | x ∈ p.levelAssignments ∧ x ∉ pre ++ [m]} l ∨
        Feeds p C {x | x ∈ p.levelAssignments ∧ x ∉ pre ++ [m]} m ∧ ∃ R, p.reason m.var = some R ∧ -l ∈ R := by
  have hm : m ∈ p.levelAssignments := hp.subset (List.mem_append_right _ (List.mem_singleton_self m))
  have hmn : m ∉ pre := by
    have hn := (nodup_level g).sublist hp.sublist
    rw [List.nodup_append'] at hn
    exact fun h => hn.2.2 h (List.mem_singleton_self m)
  have hsub : {x | x ∈ p.levelAssignments ∧ x ∉ pre ++ [m]} ⊆ {x | x ∈ p.levelAssignments ∧ x ∉ pre} :=
    fun x hx => ⟨hx.1, fun h => hx.2 (List.mem_append_left _ h)⟩
  have hlater : ∀ k, k ∈ p.levelAssignments → k ∉ pre → Feeds p C {x | x ∈ p.levelAssignments ∧ x ∉ pre} k →
      Feeds p C {x | x ∈ p.levelAssignments ∧ x ∉ pre ++ [m]} k := by
    intro k hk hkn h
    have hall := h.later g hp (fun x hx => hx.1) hk hkn
    refine Feeds.mono ?_ hall
    exact fun x hx => ⟨hx.1.1, hx.2⟩
  constructor
  · intro h
    cases h with
    | conflict h => exact .inl (.conflict h)
    | @reason _ k R hk hR hlR h =>
      have hf := hlater k hk.1 hk.2 h
      by_cases he : k = m
      · subst he
        exact .inr ⟨hf, R, hR, hlR⟩
      · refine .inl (.reason ⟨hk.1, fun h => ?_⟩ hR hlR hf)
        exact (List.mem_append.mp h).elim hk.2 fun h => he (List.mem_singleton.mp h)
  · intro h
    cases h with
    | inl h => exact h.mono hsub
    | inr h =>
      obtain ⟨hf, R, hR, hlR⟩ := h
      exact .reason ⟨hm, hmn⟩ hR hlR (hf.mono hsub)

theorem Feeds.decision (hpos : p.currentLevel ≠ 0) {d : CNFLit} (hd : p.levelAssignments.head? = some d)
    {S : Set CNFLit} {pre : List CNFLit} {e : CNFLit} (hp : pre ++ [e] <+: p.levelAssignments)
    (hS : ∀ x ∈ pre ++ [e], x ∈ S) (h : Feeds p C S e) : Feeds p C S d := by
  have he : e ∈ p.levelAssignments := hp.subset (List.mem_append_right _ (List.mem_singleton_self e))
  obtain ⟨rest, hrest⟩ : ∃ rest, p.levelAssignments = d :: rest := List.head?_eq_some_iff.mp hd
  match pre, hp, hS with
  | [], hp, _ =>
    obtain ⟨suf, hsuf⟩ := hp
    rw [hrest] at hsuf
    cases hsuf
    exact h
  | a :: pre, hp, hS =>
    have htail : e ∈ p.levelAssignments.tail := by
      obtain ⟨suf, hsuf⟩ := hp
      rw [← hsuf]
      simp
    obtain ⟨R, hR⟩ := Option.ne_none_iff_exists'.mp (g.forced e htail)
    have hlevel := g.level_eq e he
    obtain ⟨x, hx, hne, hxl⟩ := g.second e (g.graph.mem_of_levelAssignments he) R hR (by rw [hlevel]; exact hpos)
    have hxpre := ((g.graph.reason_here hp hR).2.2 x hx hne).2 (hxl.trans hlevel)
    obtain ⟨b, c, hbc⟩ := List.append_of_mem hxpre
    have hb : b ++ [-x] <+: a :: pre := ⟨c, by rw [hbc]; simp⟩
    have hlt : b.length < (a :: pre).length := by rw [hbc, List.length_append, List.length_cons]; omega
    have hfeeds : Feeds p C S (-x) :=
      .reason (hS e (List.mem_append_right _ (List.mem_singleton_self e))) hR (by rw [neg_neg]; exact hx) h
    exact Feeds.decision hpos hd (hb.trans ((List.prefix_append _ _).trans hp))
      (fun y hy => hS y (List.mem_append_left _ (hb.subset hy))) hfeeds
termination_by pre.length
decreasing_by exact hlt

end

/-! ## The walk down the level -/

theorem addReasonLit_new (r x : CNFLit) (st : State) :
    (∀ v, (addReasonLit p r st x).stamps v = true → st.stamps v = true ∨ r ≠ x ∧ x.var = v) ∧
      ∀ y ∈ (addReasonLit p r st x).result.tail, y ∈ st.result.tail ∨ r ≠ x ∧ y = x := by
  have hstamp : r ≠ x → ∀ v, st.stamps.set x.var true v = true → st.stamps v = true ∨ r ≠ x ∧ x.var = v := by
    intro hne v hv
    by_cases he : v = x.var
    · exact .inr ⟨hne, he.symm⟩
    · exact .inl ((set_of_ne st.stamps he true).symm.trans hv)
  unfold addReasonLit
  split
  · rename_i hc
    dsimp only
    split
    · exact ⟨hstamp hc.1, fun y hy => .inl hy⟩
    · refine ⟨hstamp hc.1, fun y hy => ?_⟩
      cases hr : st.result with
      | nil =>
        rw [hr] at hy
        cases hy
      | cons a tail =>
        rw [hr, List.cons_append, List.tail_cons] at hy
        exact (List.mem_append.mp hy).imp_right fun hy => ⟨hc.1, List.mem_singleton.mp hy⟩
  · exact ⟨fun v hv => .inl hv, fun y hy => .inl hy⟩

theorem foldl_addReasonLit_new (r : CNFLit) (R : List CNFLit) : ∀ (st : State),
    (∀ v, (R.foldl (addReasonLit p r) st).stamps v = true →
      st.stamps v = true ∨ ∃ x ∈ R, r ≠ x ∧ x.var = v) ∧
    ∀ y ∈ (R.foldl (addReasonLit p r) st).result.tail, y ∈ st.result.tail ∨ y ∈ R ∧ r ≠ y := by
  induction R with
  | nil => exact fun st => ⟨fun _ h => .inl h, fun _ h => .inl h⟩
  | cons x R ih =>
    intro st
    obtain ⟨hs, ht⟩ := ih (addReasonLit p r st x)
    obtain ⟨hs₁, ht₁⟩ := addReasonLit_new (p := p) r x st
    refine ⟨fun v hv => ?_, fun y hy => ?_⟩
    · cases hs v hv with
      | inl hv => exact (hs₁ v hv).imp_right fun h => ⟨x, List.mem_cons_self, h⟩
      | inr hv =>
        obtain ⟨z, hz, h⟩ := hv
        exact .inr ⟨z, List.mem_cons_of_mem _ hz, h⟩
    · cases ht y hy with
      | inl hy =>
        refine (ht₁ y hy).imp_right fun h => ?_
        obtain ⟨hne, rfl⟩ := h
        exact ⟨List.mem_cons_self, hne⟩
      | inr hy => exact .inr ⟨List.mem_cons_of_mem _ hy.1, hy.2⟩

def premises (p : Provider) (T C : List CNFLit) : Set (Finset CNFLit) :=
  {D | D = C.toFinset ∨ ∃ l ∈ T, ∃ R, p.reason l.var = some R ∧ D = R.toFinset}

/-- What is known while the entries `pre` are still to be visited. -/
structure Walk (p : Provider) (T C pre : List CNFLit) (st : State) : Prop where
  frontier : Frontier p T pre st
  resolvent : ∃ D, Resolution (premises p T C) D ∧ ∀ x, x ∈ D ↔ -x ∈ FirstUIPLearning.frontier pre st
  pending : ∀ l ∈ pre, l ∈ FirstUIPLearning.frontier pre st ↔ Feeds p C {x | x ∈ p.levelAssignments ∧ x ∉ pre} l
  count : 1 ≤ st.unresolvedCount
  passed : p.currentLevel ≠ 0 → ∀ d, p.levelAssignments.head? = some d → ∀ w ∈ p.levelAssignments, w ∉ pre →
    ¬ IsUIP p C d w

section
variable (g : p.DecisionLevel T)
include g

theorem mem_frontier_resolve {pre : List CNFLit} {lit : CNFLit} (hp : pre ++ [lit] <+: p.levelAssignments)
    {R : List CNFLit} (hR : p.reason lit.var = some R) {st : State} (h : Frontier p T (pre ++ [lit]) st)
    (hs : st.stamps lit.var = true) (l : CNFLit) :
    l ∈ frontier pre (addResolvent p R lit { st with unresolvedCount := st.unresolvedCount - 1 }) ↔
      l ∈ frontier (pre ++ [lit]) st ∧ l ≠ lit ∨ -l ∈ R ∧ -l ≠ lit := by
  have hG := g.graph
  obtain ⟨hlit, -, ho⟩ := hG.reason_here hp hR
  have hpre : pre <+: p.levelAssignments := (List.prefix_append _ _).trans hp
  have hlitL : lit ∈ p.levelAssignments := hp.subset (List.mem_append_right _ (List.mem_singleton_self _))
  have hlitT : lit ∈ T := hG.mem_of_levelAssignments hlitL
  have hv := g.level_eq lit hlitL
  have hn := nodup_of_initial hG hp
  have hnot : lit.var ∉ pre.map CNFLit.var := by
    rw [List.map_append, List.nodup_append'] at hn
    exact fun hm => hn.2.2 hm (List.mem_singleton_self _)
  have hrel := h.release hn hv hs
  have hne := hG.ne_undefinedLiteral hlitT rfl
  have hsub : pre ⊆ T := fun x hx => hG.mem_of_levelAssignments (hpre.subset hx)
  unfold addResolvent
  simp only [ne_eq, hne, not_false_eq_true, if_true]
  obtain ⟨hf, hg, hst⟩ :=
    hrel.foldl_addReasonLit (nodup_of_initial hG hpre) (fun l hl => g.level_eq l (hpre.subset hl))
    (r := lit) R fun x hx hxl => ho x hx (Ne.symm hxl)
  obtain ⟨hsn, htn⟩ := foldl_addReasonLit_new (p := p) lit R
    { st with stamps := st.stamps.set lit.var false, unresolvedCount := st.unresolvedCount - 1 }
  constructor
  · intro hl
    cases hl with
    | inl hl =>
      cases htn _ hl with
      | inl hl => exact .inl ⟨.inl hl, fun he => h.below (-l) hl (he ▸ hv)⟩
      | inr hl => exact .inr ⟨hl.1, Ne.symm hl.2⟩
    | inr hl =>
      obtain ⟨hl, hls⟩ := hl
      have hvl : l.var ≠ lit.var := fun he => hnot (he ▸ List.mem_map_of_mem hl)
      refine (hsn _ hls).imp (fun hls => ⟨.inr ⟨List.mem_append_left _ hl, ?_⟩, fun he => hvl (he ▸ rfl)⟩)
        fun hx => ?_
      · exact (set_of_ne st.stamps hvl false).symm.trans hls
      · obtain ⟨x, hx, hxl, hxv⟩ := hx
        have hxT := (ho x hx (Ne.symm hxl)).1
        have := hG.eq_of_var_eq hxT (hsub hl) hxv
        rw [← this, neg_neg]
        exact ⟨hx, Ne.symm hxl⟩
  · intro hl
    cases hl with
    | inl hl =>
      obtain ⟨hl, hne⟩ := hl
      cases frontier_append hl with
      | inr he => exact absurd he.1 hne
      | inl hl =>
        cases hl with
        | inl hl => exact .inl (hg.tail hl)
        | inr hl =>
          have hvl : l.var ≠ lit.var := fun he => hnot (he ▸ List.mem_map_of_mem hl.1)
          exact .inr ⟨hl.1, hg.stamps _ ((set_of_ne st.stamps hvl false).trans hl.2)⟩
    | inr hl =>
      have hlT := (ho (-l) hl.1 hl.2).1
      rw [neg_neg] at hlT
      exact hf.mem_frontier hG hsub hlT (hst (-l) hl.1 (Ne.symm hl.2))

/-- An entry that is passed while another one waits is no unique implication point. -/
theorem Walk.not_uip {pre : List CNFLit} {lit e : CNFLit} {st : State} (hp : pre ++ [lit] <+: p.levelAssignments)
    (h : Walk p T C (pre ++ [lit]) st) (he : e ∈ pre) (hs : st.stamps e.var = true) (hpos : p.currentLevel ≠ 0)
    (d : CNFLit) (hd : p.levelAssignments.head? = some d) :
    ∀ w ∈ p.levelAssignments, w ∉ pre → ¬ IsUIP p C d w := by
  intro w hw hn
  by_cases hwl : w ∈ pre ++ [lit]
  · obtain rfl := List.mem_singleton.mp ((List.mem_append.mp hwl).resolve_left hn)
    obtain ⟨b, c, rfl⟩ := List.append_of_mem he
    have hpre : b ++ [e] <+: p.levelAssignments := List.IsPrefix.trans ⟨c ++ [w], by simp⟩ hp
    have hne : ∀ x ∈ b ++ [e], x ≠ w := by
      rintro x hx rfl
      apply hn
      simp only [List.mem_append, List.mem_cons, List.not_mem_nil, or_false] at hx ⊢
      exact hx.imp_right .inl
    have hfeeds := (h.pending e (List.mem_append_left _ he)).mp (.inr ⟨List.mem_append_left _ he, hs⟩)
    have hd' : Feeds p C {x | x ∈ p.levelAssignments ∧ x ≠ w} d := by
      refine Feeds.decision g hpos hd hpre (fun x hx => ⟨hpre.subset hx, hne x hx⟩) (hfeeds.mono ?_)
      exact fun x hx => ⟨hx.1, fun he => hx.2 (he ▸ List.mem_append_right _ (List.mem_singleton_self _))⟩
    intro huip
    cases huip with
    | inr h => exact h hd'
    | inl hdw =>
      obtain ⟨suf, hsuf⟩ := hpre
      rw [← hsuf] at hd
      refine hne d ?_ hdw
      cases b with
      | nil => cases hd; exact List.mem_singleton_self _
      | cons a b => cases hd; exact List.mem_cons_self
  · exact h.passed hpos d hd w hw hwl

theorem Walk.resolve {pre : List CNFLit} {lit : CNFLit} (hp : pre ++ [lit] <+: p.levelAssignments) {R : List CNFLit}
    (hR : p.reason lit.var = some R) {st : State} (h : Walk p T C (pre ++ [lit]) st) (hs : st.stamps lit.var = true)
    (hlt : 1 < st.unresolvedCount) :
    Walk p T C pre (addResolvent p R lit { st with unresolvedCount := st.unresolvedCount - 1 }) := by
  have hG := g.graph
  have hmem := mem_frontier_resolve g hp hR h.frontier hs
  obtain ⟨hlit, -, ho⟩ := hG.reason_here hp hR
  have hlitm : lit ∈ pre ++ [lit] := List.mem_append_right _ (List.mem_singleton_self lit)
  have hlitT : lit ∈ T := hG.mem_of_levelAssignments (hp.subset hlitm)
  have hlitf : lit ∈ FirstUIPLearning.frontier (pre ++ [lit]) st := .inr ⟨hlitm, hs⟩
  have hconf : Conflict (Set.univ : Set (Finset CNFLit)) (FirstUIPLearning.frontier (pre ++ [lit]) st) :=
    .inl ⟨∅, Set.mem_univ _, fun x hx => absurd hx (Finset.notMem_empty x)⟩
  obtain ⟨hf, -, hle⟩ := h.frontier.resolve hG hp hR hs hconf
  have hnot : lit ∉ pre := by
    have hn := (nodup_level g).sublist hp.sublist
    rw [List.nodup_append'] at hn
    exact fun h => hn.2.2 h (List.mem_singleton_self lit)
  have hcount := h.frontier.count
  rw [count_append, if_pos hs] at hcount
  obtain ⟨e, he, hes⟩ := List.countP_pos_iff.mp (show 0 < st.stamps.count pre by omega)
  refine ⟨hf, ?_, fun l hl => ?_, by omega, fun hpos d hd => h.not_uip g hp he hes hpos d hd⟩
  · obtain ⟨D, hD, hmemD⟩ := h.resolvent
    refine ⟨D.erase (-lit) ∪ R.toFinset.erase lit, .resolve hD (.premise (.inr ⟨lit, hlitT, R, hR, rfl⟩)) ?_ ?_, ?_⟩
    · rw [hmemD, neg_neg]
      exact hlitf
    · exact List.mem_toFinset.mpr hlit
    · intro x
      have hx : x ≠ -lit ↔ -x ≠ lit := not_congr neg_eq_iff_eq_neg.symm
      rw [hmem, Finset.mem_union, Finset.mem_erase, Finset.mem_erase, hmemD, List.mem_toFinset, neg_neg, hx,
        and_comm,
        and_comm (a := x ≠ lit)]
  · rw [hmem, feeds_pass g hp, ← h.pending l (List.mem_append_left _ hl), ← h.pending lit hlitm]
    have hne : l ≠ lit := fun he => hnot (he ▸ hl)
    have hnn : -l ∈ R → -l ≠ lit := by
      intro _ he
      have hlT := hG.mem_of_levelAssignments (hp.subset (List.mem_append_left _ hl))
      have := hG.eq_of_var_eq hlT hlitT ((CNFLit.var_neg l).symm.trans (congrArg CNFLit.var he))
      exact hne this
    refine or_congr (and_iff_left hne) ⟨fun hl => ⟨hlitf, R, hR, hl.1⟩, fun hl => ?_⟩
    obtain ⟨-, R', hR', hlR⟩ := hl
    obtain rfl := Option.some.inj (hR.symm.trans hR')
    exact ⟨hlR, hnn hlR⟩

theorem Walk.skip {pre : List CNFLit} {lit : CNFLit} (hp : pre ++ [lit] <+: p.levelAssignments) {st : State}
    (h : Walk p T C (pre ++ [lit]) st) (hs : ¬ st.stamps lit.var = true) : Walk p T C pre st := by
  have hlitm : lit ∈ pre ++ [lit] := List.mem_append_right _ (List.mem_singleton_self lit)
  have hmem : ∀ l, l ∈ FirstUIPLearning.frontier (pre ++ [lit]) st ↔ l ∈ FirstUIPLearning.frontier pre st := by
    intro l
    refine ⟨fun hl => (frontier_append hl).resolve_right fun hl => hs hl.2, fun hl => ?_⟩
    exact hl.imp_right fun hl => ⟨List.mem_append_left _ hl.1, hl.2⟩
  have hcount := h.frontier.count
  have hpos := h.count
  rw [count_append, if_neg hs] at hcount
  obtain ⟨e, he, hes⟩ := List.countP_pos_iff.mp (show 0 < st.stamps.count pre by omega)
  have hnf : lit ∉ FirstUIPLearning.frontier (pre ++ [lit]) st := by
    intro hl
    cases (hmem lit).mp hl with
    | inl hl =>
      exact h.frontier.below _ hl (g.level_eq lit (hp.subset hlitm))
    | inr hl => exact hs hl.2
  refine ⟨h.frontier.drop hs, ?_, fun l hl => ?_, h.count, fun hpos d hd => h.not_uip g hp he hes hpos d hd⟩
  · obtain ⟨D, hD, hmemD⟩ := h.resolvent
    exact ⟨D, hD, fun x => (hmemD x).trans (hmem _)⟩
  · rw [← hmem, h.pending l (List.mem_append_left _ hl), feeds_pass g hp, ← h.pending lit hlitm]
    exact (or_iff_left fun hl => hnf hl.1).symm

theorem Walk.uip {pre : List CNFLit} {lit : CNFLit} (hp : pre ++ [lit] <+: p.levelAssignments) {st : State}
    (h : Walk p T C (pre ++ [lit]) st) (hs : st.stamps lit.var = true) (hn : st.unresolvedCount ≤ 1) :
    Resolution (premises p T C) (-lit :: st.result.tail).toFinset ∧ (p.currentLevel ≠ 0 → FirstUIP p C lit) := by
  have hlitm : lit ∈ pre ++ [lit] := List.mem_append_right _ (List.mem_singleton_self lit)
  have hnot : ∀ l ∈ pre, l ∉ FirstUIPLearning.frontier (pre ++ [lit]) st := by
    have hcount := h.frontier.count
    rw [count_append, if_pos hs] at hcount
    have hzero : st.stamps.count pre = 0 := by omega
    intro l hl hf
    cases hf with
    | inl hf => exact h.frontier.below _ hf (g.level_eq l (hp.subset (List.mem_append_left _ hl)))
    | inr hf => exact List.countP_eq_zero.mp hzero l hl hf.2
  constructor
  · obtain ⟨D, hD, hmemD⟩ := h.resolvent
    have he : (-lit :: st.result.tail).toFinset = D := by
      ext x
      rw [hmemD, List.mem_toFinset, List.mem_cons]
      constructor
      · intro hx
        cases hx with
        | inl hx =>
          rw [hx, neg_neg]
          exact .inr ⟨hlitm, hs⟩
        | inr hx => exact .inl (by rw [neg_neg]; exact hx)
      · intro hx
        cases frontier_append hx with
        | inr hx => exact .inl (neg_eq_iff_eq_neg.mp hx.1)
        | inl hx =>
          cases hx with
          | inl hx => exact .inr (by rw [neg_neg] at hx; exact hx)
          | inr hx => exact absurd (.inr ⟨List.mem_append_left _ hx.1, hx.2⟩) (hnot (-x) hx.1)
    exact he ▸ hD
  · intro hpos
    have hfeeds : ∀ l, Feeds p C {m | m ∈ p.levelAssignments ∧ m ≠ lit} l → l ∉ pre := by
      intro l hl
      induction hl with
      | conflict hl =>
        intro hm
        exact hnot _ hm ((h.pending _ (List.mem_append_left _ hm)).mpr (.conflict hl))
      | @reason l m R hm hR hlR hf ih =>
        intro hl
        have hmn : m ∉ pre ++ [lit] :=
          fun hx => (List.mem_append.mp hx).elim ih fun hx => hm.2 (List.mem_singleton.mp hx)
        have hlater := hf.later g hp (fun x hx => hx.1) hm.1 ih
        refine hnot l hl ((h.pending l (List.mem_append_left _ hl)).mpr (.reason ⟨hm.1, hmn⟩ hR hlR ?_))
        refine Feeds.mono ?_ hlater
        exact fun x hx => ⟨hx.1.1, hx.2⟩
    obtain ⟨suf, hsuf⟩ := hp
    have hd : ∃ d, p.levelAssignments.head? = some d ∧ d ∈ pre ++ [lit] := by
      rw [← hsuf]
      cases pre with
      | nil => exact ⟨lit, rfl, hlitm⟩
      | cons a pre => exact ⟨a, rfl, List.mem_cons_self⟩
    obtain ⟨d, hd, hdm⟩ := hd
    refine ⟨d, pre, suf, hd, by rw [← hsuf, List.append_assoc]; rfl, ?_, fun w hw => ?_⟩
    · cases List.mem_append.mp hdm with
      | inl hdm => exact .inr fun hf => hfeeds d hf hdm
      | inr hdm => exact .inl (List.mem_singleton.mp hdm)
    · have hnd := nodup_level g
      rw [← hsuf, List.nodup_append'] at hnd
      exact h.passed hpos d hd w (hsuf ▸ List.mem_append_right _ hw) fun hm => hnd.2.2 hm hw

theorem Walk.resolveUntilUIP : ∀ (cursor : List CNFLit) (st : State), cursor.reverse <+: p.levelAssignments →
    Walk p T C cursor.reverse st → ∃ u tail st', resolveUntilUIP p cursor st = some st' ∧
      st'.result = -u :: tail ∧ Resolution (premises p T C) (-u :: tail).toFinset ∧
      (p.currentLevel ≠ 0 → FirstUIP p C u) := by
  intro cursor
  induction cursor with
  | nil =>
    intro st _ h
    have := h.frontier.count
    have := h.count
    simp_all [Stamps.count]
  | cons lit cursor ih =>
    intro st hp h
    rw [List.reverse_cons] at hp h
    have hpre : cursor.reverse <+: p.levelAssignments := (List.prefix_append _ _).trans hp
    unfold FirstUIPLearning.resolveUntilUIP
    by_cases hs : st.stamps lit.var = true
    · by_cases hlt : 1 < st.unresolvedCount
      · simp only [hlt, if_true, hs]
        cases hr : p.reason lit.var with
        | none =>
          -- another entry waits, so `lit` is not the decision
          have hcount := h.frontier.count
          rw [count_append, if_pos hs] at hcount
          obtain ⟨e, he, -⟩ := List.countP_pos_iff.mp (show 0 < st.stamps.count cursor.reverse by omega)
          obtain ⟨suf, hsuf⟩ := hp
          refine absurd hr (g.forced lit ?_)
          rw [← hsuf]
          cases hc : cursor.reverse with
          | nil => rw [hc] at he; cases he
          | cons a pre => simp
        | some R => exact ih _ hpre (h.resolve g hp hr hs hlt)
      · simp only [hlt, if_false, hs, if_true]
        obtain ⟨hres, huip⟩ := h.uip g hp hs (Nat.le_of_not_lt hlt)
        exact ⟨lit, st.result.tail, _, rfl, by rw [h.frontier.head]; rfl, hres, huip⟩
    · have hst : st.stamps lit.var = false := Bool.eq_false_of_not_eq_true hs
      have hrest := ih st hpre (h.skip g hp hs)
      simpa only [hst, Bool.false_eq_true, if_false, ite_self] using hrest

theorem initializeResult_walk (hC : Conflicting p T C) :
    Walk p T C p.levelAssignments (initializeResult p C .empty) := by
  have hG := g.graph
  obtain ⟨hf, hst, hcount⟩ := initializeResult_spec hG hC
  have hsub : p.levelAssignments ⊆ T := fun _ => hG.mem_of_levelAssignments
  obtain ⟨hsn, htn⟩ := foldl_addReasonLit_new (p := p) CNFLit.undefinedLiteral C
    ⟨.empty, 0, [CNFLit.undefinedLiteral]⟩
  have hmem : ∀ l, l ∈ FirstUIPLearning.frontier p.levelAssignments (initializeResult p C .empty) ↔ -l ∈ C := by
    intro l
    constructor
    · intro hl
      cases hl with
      | inl hl => exact (htn _ hl).elim (fun h => nomatch h) And.left
      | inr hl =>
        obtain ⟨x, hx, -, hv⟩ := (hsn _ hl.2).resolve_left Bool.false_ne_true
        have := hG.eq_of_var_eq (hC.isFalse x hx) (hsub hl.1) hv
        rw [← this, neg_neg]
        exact hx
    · intro hl
      have hlT := hC.isFalse (-l) hl
      rw [neg_neg] at hlT
      exact hf.mem_frontier hG hsub hlT (hst (-l) hl)
  refine ⟨hf, ⟨C.toFinset, .premise (.inl rfl), fun x => ?_⟩,
    fun l _ => ?_, by omega, fun _ _ _ w hw hn => absurd hw hn⟩
  · rw [hmem, neg_neg, List.mem_toFinset]
  · rw [hmem]
    constructor
    · exact .conflict
    · intro h
      cases h with
      | conflict h => exact h
      | reason hm _ _ _ => exact absurd hm.1 hm.2

end

/-- First-UIP learning resolves to the negation of the first unique implication point. -/
theorem computeConflictClause_firstUIP (g : p.DecisionLevel T) (hC : Conflicting p T C) :
    ∃ u tail, computeConflictClause p .empty C = some (-u :: tail, .empty) ∧
      Resolution (premises p T C) (-u :: tail).toFinset ∧ ((-u :: tail).map CNFLit.var).Nodup ∧
      (∀ x ∈ -u :: tail, -x ∈ T) ∧ p.level u.var = p.currentLevel ∧ (∀ x ∈ tail, p.level x.var ≠ p.currentLevel) ∧
      (p.currentLevel ≠ 0 → FirstUIP p C u) := by
  obtain ⟨u, tail, he, hl⟩ := computeConflictClause_spec g.graph g.everyForced (Set.mem_univ _) hC
  have hwalk := initializeResult_walk g hC
  rw [← List.reverse_reverse p.levelAssignments] at hwalk
  obtain ⟨u', tail', st', he', hr, hres, huip⟩ := Walk.resolveUntilUIP g p.levelAssignments.reverse _
    (by rw [List.reverse_reverse]) hwalk
  have hout := he
  unfold computeConflictClause at hout
  rw [he', Option.map_some, hr] at hout
  simp only [Option.some.injEq, Prod.mk.injEq, List.cons.injEq, neg_inj] at hout
  obtain ⟨⟨rfl, rfl⟩, -⟩ := hout
  have hu := g.level_eq u' hl.uip
  refine ⟨u', tail', he, hres, ?_, ?_, hu, hl.below, huip⟩
  · refine List.nodup_cons.mpr ⟨fun hm => ?_, hl.nodup_vars⟩
    obtain ⟨x, hx, hv⟩ := List.mem_map.mp hm
    exact hl.below x hx (by rw [hv]; exact hu)
  · exact List.forall_mem_cons.mpr ⟨by rw [neg_neg]; exact g.graph.mem_of_levelAssignments hl.uip, hl.isFalse⟩

theorem reason_of_inits
    (hall : ∀ q ∈ T.inits, ∀ l ∈ q.getLast?, ∀ R ∈ p.reason l.var, l ∈ R ∧ ∀ x ∈ R, x ≠ l → -x ∈ q.dropLast)
    (pre : List CNFLit) (l : CNFLit) (hp : pre ++ [l] <+: T) (R : List CNFLit) (hR : p.reason l.var = some R) :
    l ∈ R ∧ ∀ x ∈ R, x ≠ l → -x ∈ pre := by
  have := hall (pre ++ [l]) ((List.mem_inits _ _).mpr hp) l (by simp) R hR
  simpa using this

def forcedChain : Provider where
  currentLevel := 1
  level _ := 1
  levelAssignments := [⟨0, .positive⟩, ⟨1, .positive⟩, ⟨2, .positive⟩, ⟨3, .positive⟩]
  reason
    | 1 => some [⟨1, .positive⟩, ⟨0, .negative⟩]
    | 2 => some [⟨2, .positive⟩, ⟨1, .negative⟩]
    | 3 => some [⟨3, .positive⟩, ⟨1, .negative⟩]
    | _ => none

theorem forcedChain_decisionLevel : forcedChain.DecisionLevel forcedChain.levelAssignments where
  nodup_vars := by decide
  reason := reason_of_inits (by decide)
  regular := by decide
  split := ⟨[], rfl, nofun⟩
  level_eq := by decide
  forced := by decide
  second l hl R hR _ := by
    have hall : ∀ l ∈ forcedChain.levelAssignments, ∀ R ∈ forcedChain.reason l.var, ∃ x ∈ R, x ≠ l := by decide
    obtain ⟨x, hx, hne⟩ := hall l hl R hR
    exact ⟨x, hx, hne, rfl⟩

theorem forcedChain_firstUIP :
    ∃ u tail, computeConflictClause forcedChain .empty [⟨2, .negative⟩, ⟨3, .negative⟩] =
        some (-u :: tail, .empty) ∧
      Resolution (premises forcedChain forcedChain.levelAssignments [⟨2, .negative⟩, ⟨3, .negative⟩])
        (-u :: tail).toFinset ∧
      ((-u :: tail).map CNFLit.var).Nodup ∧ (∀ x ∈ -u :: tail, -x ∈ forcedChain.levelAssignments) ∧
      forcedChain.level u.var = forcedChain.currentLevel ∧
      (∀ x ∈ tail, forcedChain.level x.var ≠ forcedChain.currentLevel) ∧
      (forcedChain.currentLevel ≠ 0 → FirstUIP forcedChain [⟨2, .negative⟩, ⟨3, .negative⟩] u) :=
  computeConflictClause_firstUIP forcedChain_decisionLevel
    ⟨by decide, ⟨2, .negative⟩, by decide, ⟨3, .negative⟩, by decide, by decide, rfl, rfl⟩

def twoDecisions : Provider where
  currentLevel := 1
  level _ := 1
  levelAssignments := [⟨0, .positive⟩, ⟨1, .positive⟩]
  reason _ := none

/-- On level 0, variable 1 is forced by a unit clause, and 2 by variable 1. -/
def factLevel : Provider where
  currentLevel := 0
  level _ := 0
  levelAssignments := [⟨0, .positive⟩, ⟨1, .positive⟩, ⟨2, .positive⟩]
  reason
    | 1 => some [⟨1, .positive⟩]
    | 2 => some [⟨2, .positive⟩, ⟨1, .negative⟩]
    | _ => none

theorem factLevel_decisionLevel : factLevel.DecisionLevel factLevel.levelAssignments where
  nodup_vars := by decide
  reason := reason_of_inits (by decide)
  regular := by decide
  split := ⟨[], rfl, nofun⟩
  level_eq := by decide
  forced := by decide
  second _ _ _ _ h0 := absurd rfl h0

/-- Nothing leads from the first fact to the conflict. -/
theorem factLevel_not_firstUIP : ¬ FirstUIP factLevel [⟨1, .negative⟩, ⟨2, .negative⟩] ⟨1, .positive⟩ := by
  have hfeeds : ∀ S, ¬ Feeds factLevel [⟨1, .negative⟩, ⟨2, .negative⟩] S ⟨0, .positive⟩ := by
    intro S h
    cases h with
    | conflict h => exact absurd h (by decide)
    | @reason _ m R _ hR hl _ =>
      have hnone : ∀ v, ∀ R ∈ factLevel.reason v, -(⟨0, .positive⟩ : CNFLit) ∉ R := by
        intro v
        unfold factLevel
        dsimp only
        split <;> decide
      exact hnone _ R hR hl
  intro ⟨d, pre, suf, hd, hsplit, _, hw⟩
  obtain rfl : ⟨0, .positive⟩ = d := Option.some.inj hd
  have hmem : (⟨2, .positive⟩ : CNFLit) ∈ suf := by
    rcases pre with _ | ⟨_, _ | ⟨_, _ | ⟨_, pre⟩⟩⟩
    · cases hsplit
    · cases hsplit
      exact List.mem_singleton_self _
    · cases hsplit
    · simp [factLevel] at hsplit
  exact hw _ hmem (.inr (hfeeds _))

/-- Entries of the level without a reason run into a null reason, and on level 0 the
asserting literal need not be an implication point. -/
theorem not_computeConflictClause_firstUIP :
    (∃ p T C, p.Reasons T ∧ (∀ l ∈ T, l.var < CNFVar.undefinedVariable) ∧ T = p.levelAssignments ∧
      (∀ l ∈ T, p.level l.var = p.currentLevel) ∧
      (∀ l ∈ T, ∀ R, p.reason l.var = some R → ∃ x ∈ R, x ≠ l ∧ p.level x.var = p.level l.var) ∧
      Conflicting p T C ∧ computeConflictClause p .empty C = none) ∧
    ∃ p T C u tail, p.DecisionLevel T ∧ Conflicting p T C ∧
      computeConflictClause p .empty C = some (-u :: tail, .empty) ∧ ¬ FirstUIP p C u := by
  constructor
  · refine ⟨twoDecisions, _, [⟨0, .negative⟩, ⟨1, .negative⟩], ⟨by decide, nofun⟩, by decide, rfl, by decide,
      nofun, ⟨by decide, ⟨0, .negative⟩, by decide, ⟨1, .negative⟩, by decide, by decide, rfl, rfl⟩, rfl⟩
  · have hC : Conflicting factLevel factLevel.levelAssignments [⟨1, .negative⟩, ⟨2, .negative⟩] :=
      ⟨by decide, ⟨1, .negative⟩, by decide, ⟨2, .negative⟩, by decide, by decide, rfl, rfl⟩
    obtain ⟨u, tail, he, -⟩ := computeConflictClause_spec factLevel_decisionLevel.graph
      factLevel_decisionLevel.everyForced (Set.mem_univ _) hC
    have hu : (computeConflictClause factLevel .empty [⟨1, .negative⟩, ⟨2, .negative⟩]).map
        (fun r => r.1.head?) = some (some ⟨1, .negative⟩) := by decide
    rw [he] at hu
    obtain rfl : u = ⟨1, .positive⟩ := neg_inj.mp (Option.some.inj (Option.some.inj hu))
    exact ⟨factLevel, _, _, _, tail, factLevel_decisionLevel, hC, he, factLevel_not_firstUIP⟩

end FirstUIPLearning

end JamSAT
