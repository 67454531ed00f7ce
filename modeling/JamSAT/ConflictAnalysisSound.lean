import JamSAT.ConflictAnalysis
import JamSAT.PropagationSound
import JamSAT.UnitLogic
import Mathlib.Data.Finset.Card

/-!
# Soundness of conflict analysis

For every implication graph the conflict clause is false, has one literal of the
current level, which comes first, and is a reverse unit propagation consequence
of the clauses. Both minimization passes keep this.
-/

namespace JamSAT

open UnitLogic

/-! ## Stamps -/

namespace Stamps

@[simp] theorem set_self (stamps : Stamps) (v : CNFVar) (b : Bool) : stamps.set v b v = b := by
  simp [Stamps.set]

theorem set_of_ne (stamps : Stamps) {v w : CNFVar} (h : w ≠ v) (b : Bool) : stamps.set v b w = stamps w := by
  simp [Stamps.set, h]

theorem set_true_of_true {stamps : Stamps} {v w : CNFVar} (h : stamps w = true) :
    stamps.set v true w = true := by
  by_cases he : w = v
  · rw [he, set_self]
  · rw [set_of_ne stamps he, h]

theorem foldl_set_apply {α : Type*} (f : α → CNFVar) (b : Bool) (xs : List α) (stamps : Stamps) (v : CNFVar) :
    xs.foldl (fun stamps x => stamps.set (f x) b) stamps v = if v ∈ xs.map f then b else stamps v := by
  induction xs generalizing stamps with
  | nil => rfl
  | cons x xs ih =>
    rw [List.foldl_cons, ih, List.map_cons]
    by_cases hv : v = f x
    · simp [hv]
    · simp [hv, set_of_ne stamps hv]

def count (stamps : Stamps) (T : List CNFLit) : Nat := T.countP fun l => stamps l.var

theorem count_append (stamps : Stamps) (T : List CNFLit) (l : CNFLit) :
    stamps.count (T ++ [l]) = stamps.count T + if stamps l.var then 1 else 0 := by
  simp [count, List.countP_append]

theorem count_le (stamps : Stamps) (T : List CNFLit) : stamps.count T ≤ T.length := List.countP_le_length

theorem count_set_of_not_mem {T : List CNFLit} {stamps : Stamps} {v : CNFVar} {b : Bool}
    (hv : v ∉ T.map CNFLit.var) : (stamps.set v b).count T = stamps.count T := by
  apply List.countP_congr
  intro l hl
  have hne : l.var ≠ v := fun he => hv (he ▸ List.mem_map_of_mem hl)
  rw [set_of_ne stamps hne]

theorem count_set_true {T : List CNFLit} {stamps : Stamps} {v : CNFVar} (hn : (T.map CNFLit.var).Nodup)
    (hv : v ∈ T.map CNFLit.var) (hs : stamps v = false) : (stamps.set v true).count T = stamps.count T + 1 := by
  induction T with
  | nil => cases hv
  | cons a T ih =>
    obtain ⟨ha, hn⟩ := List.nodup_cons.mp hn
    have hcons : ∀ st : Stamps, st.count (a :: T) = st.count T + if st a.var then 1 else 0 := fun st =>
      List.countP_cons
    rw [hcons, hcons]
    by_cases he : a.var = v
    · subst he
      rw [count_set_of_not_mem ha, set_self, hs]
      simp
    · rw [ih hn ((List.mem_cons.mp hv).resolve_left (Ne.symm he)), set_of_ne stamps he]
      omega

end Stamps

/-! ## Implication graphs -/

/-- What the analysis relies on: `T` is a trail whose last level is
`levelAssignments`, and the reasons have forced its entries. -/
structure Provider.Graph (p : Provider) (Φ : Set (Finset CNFLit)) (T : List CNFLit) : Prop where
  nodup_vars : (T.map CNFLit.var).Nodup
  regular : ∀ l ∈ T, l.var < CNFVar.undefinedVariable
  split : ∃ below, T = below ++ p.levelAssignments ∧ ∀ l ∈ below, p.level l.var < p.currentLevel
  level_eq : ∀ l ∈ p.levelAssignments, p.level l.var = p.currentLevel
  reason : ∀ pre l, pre ++ [l] <+: T → ∀ C, p.reason l.var = some C →
    l ∈ C ∧ C.toFinset ∈ Φ ∧ ∀ x ∈ C, x ≠ l → -x ∈ pre
  fact : ∀ l ∈ T, p.level l.var = 0 → Derives Φ ∅ l

/-- The reasons alone: each has been false but for the entry it has forced. -/
structure Provider.Reasons (p : Provider) (T : List CNFLit) : Prop where
  nodup_vars : (T.map CNFLit.var).Nodup
  reason : ∀ pre l, pre ++ [l] <+: T → ∀ C, p.reason l.var = some C → l ∈ C ∧ ∀ x ∈ C, x ≠ l → -x ∈ pre

/-- The clause `(-u, tail)` is what first-UIP learning is to find. -/
structure Provider.Learnt (p : Provider) (Φ : Set (Finset CNFLit)) (T : List CNFLit) (u : CNFLit)
    (tail : List CNFLit) : Prop where
  uip : u ∈ p.levelAssignments
  isFalse : ∀ x ∈ tail, -x ∈ T
  below : ∀ x ∈ tail, p.level x.var ≠ p.currentLevel
  nodup_vars : (tail.map CNFLit.var).Nodup
  rup : RUP Φ (-u :: tail).toFinset

namespace Provider.Reasons

variable {p : Provider} {T : List CNFLit} (g : p.Reasons T)
include g

theorem eq_of_var_eq {l m : CNFLit} (hl : l ∈ T) (hm : m ∈ T) (hv : l.var = m.var) : l = m :=
  List.inj_on_of_nodup_map g.nodup_vars hl hm hv

theorem others {l : CNFLit} (hl : l ∈ T) {C : List CNFLit} (hC : p.reason l.var = some C) :
    l ∈ C ∧ ∀ x ∈ C, x ≠ l → -x ∈ T ∧ x.var ≠ l.var := by
  obtain ⟨pre, suf, rfl⟩ := List.append_of_mem hl
  have hp : pre ++ [l] <+: pre ++ l :: suf := ⟨suf, by simp⟩
  obtain ⟨hlC, ho⟩ := g.reason pre l hp C hC
  refine ⟨hlC, fun x hx hne => ⟨hp.subset (List.mem_append_left _ (ho x hx hne)), fun hv => ?_⟩⟩
  have hn := g.nodup_vars
  rw [List.map_append, List.nodup_append'] at hn
  exact hn.2.2 (List.mem_map.mpr ⟨-x, ho x hx hne, hv⟩) List.mem_cons_self

theorem reason_vars {v : CNFVar} (hv : v ∈ T.map CNFLit.var) {C : List CNFLit} (hC : p.reason v = some C) :
    ∀ x ∈ C, x.var ∈ T.map CNFLit.var := by
  intro x hx
  obtain ⟨l, hl, rfl⟩ := List.mem_map.mp hv
  by_cases he : x = l
  · exact he ▸ hv
  · exact List.mem_map.mpr ⟨-x, ((g.others hl hC).2 x hx he).1, rfl⟩

end Provider.Reasons

theorem Assignment.ReasonInv.reasons {R : Set ClauseRef} {s : Assignment} (h : s.ReasonInv R) (ht : s.TrailInv)
    (hwf : ∀ c ∈ R, (s.mem c).WellFormed) : s.provider.Reasons s.trail where
  nodup_vars := ht.nodup_vars
  reason pre l hp C hC := by
    obtain ⟨c, hc, rfl⟩ := Option.map_eq_some_iff.mp hC
    have hl : l ∈ s.trail := hp.subset (List.mem_append_right _ (List.mem_singleton_self l))
    obtain ⟨⟨i, hi⟩, ho⟩ := h.explained.reason pre l hp c hc
    refine ⟨?_, ho⟩
    rw [← hi]
    exact Clause.lit_mem ((hwf c (h.registered l hl c hc)).watch_lt i)

namespace Provider.Graph

variable {p : Provider} {Φ : Set (Finset CNFLit)} {T : List CNFLit} (g : p.Graph Φ T)
include g

theorem reasons : p.Reasons T where
  nodup_vars := g.nodup_vars
  reason pre l hp C hC := ⟨(g.reason pre l hp C hC).1, (g.reason pre l hp C hC).2.2⟩

theorem eq_of_var_eq {l m : CNFLit} (hl : l ∈ T) (hm : m ∈ T) (hv : l.var = m.var) : l = m :=
  g.reasons.eq_of_var_eq hl hm hv

theorem ne_undefinedLiteral {l x : CNFLit} (hl : l ∈ T) (hv : l.var = x.var) :
    x ≠ CNFLit.undefinedLiteral := by
  intro he
  have := g.regular l hl
  rw [hv, he] at this
  exact lt_irrefl _ this

theorem mem_of_levelAssignments {l : CNFLit} (hl : l ∈ p.levelAssignments) : l ∈ T := by
  obtain ⟨below, hT, -⟩ := g.split
  exact hT ▸ List.mem_append_right _ hl

theorem neg_mem_of_learnt {u : CNFLit} {tail : List CNFLit} (h : p.Learnt Φ T u tail) : ∀ l ∈ -u :: tail, -l ∈ T :=
  List.forall_mem_cons.mpr ⟨by rw [neg_neg]; exact g.mem_of_levelAssignments h.uip, h.isFalse⟩

theorem var_mem_of_learnt {u : CNFLit} {tail : List CNFLit} (h : p.Learnt Φ T u tail) :
    ∀ l ∈ -u :: tail, l.var ∈ T.map CNFLit.var := fun l hl =>
  List.mem_map.mpr ⟨-l, g.neg_mem_of_learnt h l hl, rfl⟩

theorem mem_levelAssignments {l : CNFLit} (hl : l ∈ T) (hv : p.level l.var = p.currentLevel) :
    l ∈ p.levelAssignments := by
  obtain ⟨below, hT, hb⟩ := g.split
  rw [hT] at hl
  rcases List.mem_append.mp hl with hl | hl
  · exact absurd hv (hb l hl).ne
  · exact hl

theorem reason_here {pre : List CNFLit} {l : CNFLit} (hp : pre ++ [l] <+: p.levelAssignments) {C : List CNFLit}
    (hC : p.reason l.var = some C) :
    l ∈ C ∧ C.toFinset ∈ Φ ∧ ∀ x ∈ C, x ≠ l → -x ∈ T ∧ (p.level x.var = p.currentLevel → -x ∈ pre) := by
  obtain ⟨below, hT, hb⟩ := g.split
  have hp' : (below ++ pre) ++ [l] <+: T := by
    rw [hT, List.append_assoc]; exact (List.prefix_append_right_inj below).mpr hp
  obtain ⟨hl, hΦ, ho⟩ := g.reason _ l hp' C hC
  refine ⟨hl, hΦ, fun x hx hne => ⟨?_, fun hv => ?_⟩⟩
  · exact hp'.subset (List.mem_append_left _ (ho x hx hne))
  · rcases List.mem_append.mp (ho x hx hne) with hx | hx
    · exact absurd hv (hb _ hx).ne
    · exact hx

end Provider.Graph

/-! ## First-UIP learning -/

namespace FirstUIPLearning

open Stamps

variable {p : Provider} {Φ : Set (Finset CNFLit)} {T : List CNFLit}

/-- What holds while the entries `pre` of the current level are still to be visited. -/
structure Frontier (p : Provider) (T pre : List CNFLit) (st : State) : Prop where
  head : st.result = CNFLit.undefinedLiteral :: st.result.tail
  isFalse : ∀ x ∈ st.result.tail, -x ∈ T
  below : ∀ x ∈ st.result.tail, p.level x.var ≠ p.currentLevel
  nodup_vars : (st.result.tail.map CNFLit.var).Nodup
  stamped_below : ∀ v, p.level v ≠ p.currentLevel → (st.stamps v = true ↔ v ∈ st.result.tail.map CNFLit.var)
  stamped_here : ∀ v, p.level v = p.currentLevel → st.stamps v = true → v ∈ pre.map CNFLit.var
  count : st.unresolvedCount = st.stamps.count pre

def frontier (pre : List CNFLit) (st : State) : Set CNFLit :=
  {l | -l ∈ st.result.tail ∨ l ∈ pre ∧ st.stamps l.var = true}

theorem Frontier.mem_frontier (g : p.Graph Φ T) {pre : List CNFLit} {st : State} (h : Frontier p T pre st)
    (hpre : pre ⊆ T) {l : CNFLit} (hl : l ∈ T) (hs : st.stamps l.var = true) : l ∈ frontier pre st := by
  by_cases hv : p.level l.var = p.currentLevel
  · obtain ⟨m, hm, he⟩ := List.mem_map.mp (h.stamped_here _ hv hs)
    obtain rfl := g.eq_of_var_eq (hpre hm) hl he
    exact .inr ⟨hm, hs⟩
  · obtain ⟨m, hm, he⟩ := List.mem_map.mp ((h.stamped_below _ hv).mp hs)
    have := g.eq_of_var_eq (h.isFalse m hm) hl he
    exact .inl (by rw [← this, neg_neg]; exact hm)

/-! ### Resolution -/

structure Grows (st st' : State) : Prop where
  stamps : ∀ v, st.stamps v = true → st'.stamps v = true
  tail : st.result.tail ⊆ st'.result.tail

theorem Grows.trans {st st' st'' : State} (h : Grows st st') (h' : Grows st' st'') : Grows st st'' :=
  ⟨fun v hv => h'.stamps v (h.stamps v hv), fun _ hx => h'.tail (h.tail hx)⟩

section
variable {pre : List CNFLit} {st : State} (h : Frontier p T pre st) {x : CNFLit} (hs : st.stamps x.var = false)
include h hs

/-- A literal of the current level becomes work. -/
theorem Frontier.stamp (hn : (pre.map CNFLit.var).Nodup) (hx : -x ∈ pre) (hv : p.level x.var = p.currentLevel) :
    Frontier p T pre
      { st with stamps := st.stamps.set x.var true, unresolvedCount := st.unresolvedCount + 1 } := by
  have hmem : x.var ∈ pre.map CNFLit.var := List.mem_map.mpr ⟨-x, hx, rfl⟩
  refine ⟨h.head, h.isFalse, h.below, h.nodup_vars, ?_, ?_, ?_⟩
  · intro v hvb
    have hvx : v ≠ x.var := fun he => hvb (he ▸ hv)
    show st.stamps.set x.var true v = true ↔ _
    rw [set_of_ne st.stamps hvx]
    exact h.stamped_below v hvb
  · intro v hvh hsv
    by_cases hvx : v = x.var
    · exact hvx ▸ hmem
    · exact h.stamped_here v hvh ((set_of_ne st.stamps hvx true).symm.trans hsv)
  · show st.unresolvedCount + 1 = (st.stamps.set x.var true).count pre
    rw [h.count, count_set_true hn hmem hs]

/-- A literal below the current level joins the result. -/
theorem Frontier.push (hpre : ∀ l ∈ pre, p.level l.var = p.currentLevel) (hx : -x ∈ T)
    (hv : p.level x.var ≠ p.currentLevel) :
    Frontier p T pre { st with stamps := st.stamps.set x.var true, result := st.result ++ [x] } ∧
      (st.result ++ [x]).tail = st.result.tail ++ [x] := by
  have htail : (st.result ++ [x]).tail = st.result.tail ++ [x] := by
    conv_lhs => rw [h.head]
    rfl
  have hnot : x.var ∉ st.result.tail.map CNFLit.var := by
    rw [← h.stamped_below _ hv, hs]; decide
  refine ⟨⟨?_, ?_, ?_, ?_, ?_, ?_, ?_⟩, htail⟩
  · show st.result ++ [x] = _
    rw [htail]
    conv_lhs => rw [h.head]
    rfl
  · rw [htail]
    exact List.forall_mem_append.mpr ⟨h.isFalse, List.forall_mem_singleton.mpr hx⟩
  · rw [htail]
    exact List.forall_mem_append.mpr ⟨h.below, List.forall_mem_singleton.mpr hv⟩
  · rw [htail, List.map_append, List.nodup_append']
    refine ⟨h.nodup_vars, List.nodup_singleton _, fun v hv hvx => ?_⟩
    exact hnot (List.mem_singleton.mp hvx ▸ hv)
  · intro v hvb
    show st.stamps.set x.var true v = true ↔ v ∈ (st.result ++ [x]).tail.map CNFLit.var
    rw [htail, List.map_append, List.mem_append]
    by_cases hvx : v = x.var
    · simp [hvx]
    · rw [set_of_ne st.stamps hvx, h.stamped_below v hvb]
      simp [hvx]
  · intro v hvh hsv
    have hvx : v ≠ x.var := fun he => hv (he ▸ hvh)
    exact h.stamped_here v hvh ((set_of_ne st.stamps hvx true).symm.trans hsv)
  · show st.unresolvedCount = (st.stamps.set x.var true).count pre
    rw [h.count, count_set_of_not_mem]
    intro hm
    obtain ⟨l, hl, he⟩ := List.mem_map.mp hm
    exact hv (he ▸ hpre l hl)

end

section
variable {pre : List CNFLit} (hn : (pre.map CNFLit.var).Nodup) (hpre : ∀ l ∈ pre, p.level l.var = p.currentLevel)
include hn hpre

theorem Frontier.addReasonLit {st : State} (h : Frontier p T pre st) {r x : CNFLit}
    (hx : r ≠ x → -x ∈ T ∧ (p.level x.var = p.currentLevel → -x ∈ pre)) :
    Frontier p T pre (addReasonLit p r st x) ∧ Grows st (addReasonLit p r st x) ∧
      (r ≠ x → (addReasonLit p r st x).stamps x.var = true) := by
  unfold FirstUIPLearning.addReasonLit
  split
  · rename_i hc
    obtain ⟨hne, hs⟩ := hc
    obtain ⟨hT, hhere⟩ := hx hne
    dsimp only
    split
    · rename_i hv
      exact ⟨h.stamp hs hn (hhere hv) hv, ⟨fun _ => set_true_of_true, List.Subset.refl _⟩, fun _ => set_self _ _ _⟩
    · rename_i hv
      obtain ⟨hf, htail⟩ := h.push hs hpre hT hv
      refine ⟨hf, ⟨fun _ => set_true_of_true, ?_⟩, fun _ => set_self _ _ _⟩
      show st.result.tail ⊆ (st.result ++ [x]).tail
      rw [htail]; exact List.subset_append_left _ _
  · rename_i hc
    refine ⟨h, ⟨fun _ hv => hv, List.Subset.refl _⟩, fun hne => ?_⟩
    by_contra hs
    exact hc ⟨hne, Bool.eq_false_of_not_eq_true hs⟩

theorem Frontier.foldl_addReasonLit {r : CNFLit} (C : List CNFLit) {st : State} (h : Frontier p T pre st)
    (hC : ∀ x ∈ C, r ≠ x → -x ∈ T ∧ (p.level x.var = p.currentLevel → -x ∈ pre)) :
    Frontier p T pre (C.foldl (FirstUIPLearning.addReasonLit p r) st) ∧
      Grows st (C.foldl (FirstUIPLearning.addReasonLit p r) st) ∧
      ∀ x ∈ C, r ≠ x → (C.foldl (FirstUIPLearning.addReasonLit p r) st).stamps x.var = true := by
  induction C generalizing st with
  | nil => exact ⟨h, ⟨fun _ hv => hv, List.Subset.refl _⟩, fun _ hx => absurd hx List.not_mem_nil⟩
  | cons x C ih =>
    obtain ⟨h₁, g₁, s₁⟩ := h.addReasonLit hn hpre (hC x List.mem_cons_self)
    obtain ⟨h₂, g₂, s₂⟩ := ih h₁ fun y hy => hC y (List.mem_cons_of_mem _ hy)
    refine ⟨h₂, g₁.trans g₂, fun y hy hne => ?_⟩
    rcases List.mem_cons.mp hy with rfl | hy
    · exact g₂.stamps _ (s₁ hne)
    · exact s₂ y hy hne

end

theorem Frontier.release {pre : List CNFLit} {lit : CNFLit} {st : State}
    (hn : ((pre ++ [lit]).map CNFLit.var).Nodup) (hv : p.level lit.var = p.currentLevel)
    (h : Frontier p T (pre ++ [lit]) st) (hs : st.stamps lit.var = true) :
    Frontier p T pre
      { st with stamps := st.stamps.set lit.var false, unresolvedCount := st.unresolvedCount - 1 } := by
  have hnot : lit.var ∉ pre.map CNFLit.var := by
    rw [List.map_append, List.nodup_append'] at hn
    exact fun hm => hn.2.2 hm (List.mem_singleton_self _)
  refine ⟨h.head, h.isFalse, h.below, h.nodup_vars, ?_, ?_, ?_⟩
  · intro v hvb
    have hvl : v ≠ lit.var := fun he => hvb (he ▸ hv)
    show st.stamps.set lit.var false v = true ↔ _
    rw [set_of_ne st.stamps hvl]
    exact h.stamped_below v hvb
  · intro v hvh hsv
    have hvl : v ≠ lit.var := by
      rintro rfl
      exact Bool.false_ne_true ((set_self st.stamps _ false).symm.trans hsv)
    have hm := h.stamped_here v hvh ((set_of_ne st.stamps hvl false).symm.trans hsv)
    rw [List.map_append] at hm
    exact (List.mem_append.mp hm).resolve_right fun he => hvl (List.mem_singleton.mp he)
  · show st.unresolvedCount - 1 = (st.stamps.set lit.var false).count pre
    rw [h.count, count_set_of_not_mem hnot, count_append, if_pos hs, Nat.add_sub_cancel]

theorem Frontier.drop {pre : List CNFLit} {lit : CNFLit} {st : State} (h : Frontier p T (pre ++ [lit]) st)
    (hs : ¬ st.stamps lit.var = true) : Frontier p T pre st := by
  refine ⟨h.head, h.isFalse, h.below, h.nodup_vars, h.stamped_below, fun v hvh hsv => ?_, ?_⟩
  · have hm := h.stamped_here v hvh hsv
    rw [List.map_append] at hm
    refine (List.mem_append.mp hm).resolve_right fun he => hs ?_
    rw [← List.mem_singleton.mp he]; exact hsv
  · rw [h.count, count_append, if_neg hs, Nat.add_zero]

theorem frontier_append {pre : List CNFLit} {lit l : CNFLit} {st : State}
    (hl : l ∈ frontier (pre ++ [lit]) st) : l ∈ frontier pre st ∨ l = lit ∧ st.stamps lit.var = true := by
  rcases hl with hl | ⟨hl, hs⟩
  · exact .inl (.inl hl)
  · rcases List.mem_append.mp hl with hl | hl
    · exact .inl (.inr ⟨hl, hs⟩)
    · obtain rfl := List.mem_singleton.mp hl
      exact .inr ⟨rfl, hs⟩

section
variable (g : p.Graph Φ T)
include g

theorem nodup_of_initial {pre : List CNFLit} (hp : pre <+: p.levelAssignments) : (pre.map CNFLit.var).Nodup := by
  obtain ⟨below, hT, -⟩ := g.split
  have hn := g.nodup_vars
  rw [hT, List.map_append] at hn
  exact (List.nodup_append'.mp hn).2.1.sublist (hp.sublist.map _)

/-- Resolving with the reason of `lit` keeps the conflict. -/
theorem Frontier.resolve {pre : List CNFLit} {lit : CNFLit} (hp : pre ++ [lit] <+: p.levelAssignments)
    {reason : List CNFLit} (hr : p.reason lit.var = some reason) {st : State}
    (h : Frontier p T (pre ++ [lit]) st) (hs : st.stamps lit.var = true)
      (hc : Conflict Φ (frontier (pre ++ [lit]) st)) :
    Frontier p T pre (addResolvent p reason lit { st with unresolvedCount := st.unresolvedCount - 1 }) ∧
      Conflict Φ (frontier pre (addResolvent p reason lit { st with unresolvedCount := st.unresolvedCount - 1 })) ∧
      st.unresolvedCount - 1 ≤
        (addResolvent p reason lit { st with unresolvedCount := st.unresolvedCount - 1 }).unresolvedCount := by
  obtain ⟨hlit, hΦ, ho⟩ := g.reason_here hp hr
  have hpre : pre <+: p.levelAssignments := (List.prefix_append _ _).trans hp
  have hlitT : lit ∈ T :=
    g.mem_of_levelAssignments (hp.subset (List.mem_append_right _ (List.mem_singleton_self _)))
  have hv := g.level_eq lit (hp.subset (List.mem_append_right _ (List.mem_singleton_self _)))
  have hn := nodup_of_initial g hp
  have hrel := h.release hn hv hs
  have hne := g.ne_undefinedLiteral hlitT rfl
  unfold addResolvent
  simp only [ne_eq, hne, not_false_eq_true, if_true]
  obtain ⟨hf, hg, hst⟩ :=
    hrel.foldl_addReasonLit (nodup_of_initial g hpre) (fun l hl => g.level_eq l (hpre.subset hl))
    (r := lit) reason fun x hx hxl => ho x hx (Ne.symm hxl)
  refine ⟨hf, hc.cut (Set.Subset.refl _) fun l hl => ?_, ?_⟩
  · have hsub : pre ⊆ T := fun x hx => g.mem_of_levelAssignments (hpre.subset hx)
    rcases frontier_append hl with (hl | ⟨hl, hs⟩) | ⟨rfl, -⟩
    · exact .given (.inl (hg.tail hl))
    · have hvl : l.var ≠ lit.var := fun he => by
        rw [List.map_append, List.nodup_append'] at hn
        exact hn.2.2 (List.mem_map_of_mem hl) (he ▸ List.mem_singleton_self _)
      exact .given (.inr ⟨hl, hg.stamps _ ((set_of_ne st.stamps hvl false).trans hs)⟩)
    · exact .unit hΦ (List.mem_toFinset.mpr hlit) fun x hx hxl =>
        .given (hf.mem_frontier g hsub (ho x (List.mem_toFinset.mp hx) hxl).1
          (hst x (List.mem_toFinset.mp hx) (Ne.symm hxl)))
  · rw [hf.count]
    refine hrel.count.le.trans (List.countP_mono_left fun l _ hl => hg.stamps _ hl)

omit g in
/-- A single stamp on the current level marks the first unique implication point. -/
theorem Frontier.learnt {pre : List CNFLit} {lit : CNFLit} (hp : pre ++ [lit] <+: p.levelAssignments) {st : State}
    (h : Frontier p T (pre ++ [lit]) st) (hs : st.stamps lit.var = true) (hn : st.unresolvedCount ≤ 1)
    (hc : Conflict Φ (frontier (pre ++ [lit]) st)) :
    p.Learnt Φ T lit st.result.tail ∧
      ∀ v, st.stamps.set lit.var false v = true → v ∈ st.result.tail.map CNFLit.var := by
  have hnot : ∀ l ∈ pre, ¬ st.stamps l.var = true := by
    have hcount := h.count
    rw [count_append, if_pos hs] at hcount
    have hzero : st.stamps.count pre = 0 := by omega
    exact List.countP_eq_zero.mp hzero
  refine ⟨⟨hp.subset (List.mem_append_right _ (List.mem_singleton_self _)), h.isFalse, h.below, h.nodup_vars,
    ?_⟩, ?_⟩
  · refine hc.cut (Set.Subset.refl _) fun l hl => .given ?_
    show -l ∈ (-lit :: st.result.tail).toFinset
    rw [List.mem_toFinset]
    rcases frontier_append hl with (hl | ⟨hl, hsl⟩) | ⟨rfl, -⟩
    · exact List.mem_cons_of_mem _ hl
    · exact absurd hsl (hnot l hl)
    · exact List.mem_cons_self
  · intro v hsv
    have hvl : v ≠ lit.var := by
      rintro rfl
      exact Bool.false_ne_true ((set_self st.stamps _ false).symm.trans hsv)
    rw [set_of_ne st.stamps hvl] at hsv
    by_cases hv : p.level v = p.currentLevel
    · have hm := h.stamped_here v hv hsv
      rw [List.map_append] at hm
      rcases List.mem_append.mp hm with hm | hm
      · obtain ⟨l, hl, rfl⟩ := List.mem_map.mp hm
        exact absurd hsv (hnot l hl)
      · exact absurd (List.mem_singleton.mp hm) hvl
    · exact (h.stamped_below v hv).mp hsv

/-- The entries of the current level but the first one have reasons. -/
def Forced (p : Provider) : Prop :=
  ∀ pre l, pre ++ [l] <+: p.levelAssignments → pre ≠ [] → p.reason l.var ≠ none

theorem resolveUntilUIP_spec (hforced : Forced p) : ∀ (cursor : List CNFLit) (st : State),
    cursor.reverse <+: p.levelAssignments → Frontier p T cursor.reverse st →
    Conflict Φ (frontier cursor.reverse st) → 1 ≤ st.unresolvedCount →
    ∃ u tail st', resolveUntilUIP p cursor st = some st' ∧ st'.result = -u :: tail ∧
      p.Learnt Φ T u tail ∧ ∀ v, st'.stamps v = true → v ∈ tail.map CNFLit.var := by
  intro cursor
  induction cursor with
  | nil =>
    intro st _ h _ hn
    rw [h.count] at hn
    exact absurd hn (by simp [count])
  | cons lit cursor ih =>
    intro st hp h hc hn
    rw [List.reverse_cons] at hp h hc
    have hpre : cursor.reverse <+: p.levelAssignments := (List.prefix_append _ _).trans hp
    unfold resolveUntilUIP
    by_cases hs : st.stamps lit.var = true
    · by_cases hlt : 1 < st.unresolvedCount
      · simp only [hlt, if_true, hs]
        -- another entry is stamped, so `lit` is not the first of its level
        have hne : cursor.reverse ≠ [] := by
          intro he
          have hcount := h.count
          have hle := st.stamps.count_le ([] ++ [lit])
          rw [he] at hcount
          exact absurd hlt (by rw [hcount]; exact Nat.not_lt.mpr hle)
        cases hr : p.reason lit.var with
        | none => exact absurd hr (hforced _ _ hp hne)
        | some reason =>
          obtain ⟨hf, hc', hle⟩ := h.resolve g hp hr hs hc
          exact ih _ hpre hf hc' (by omega)
      · simp only [hlt, if_false, hs, if_true]
        obtain ⟨hl, hst⟩ := h.learnt hp hs (by omega) hc
        exact ⟨lit, st.result.tail, _, rfl, by rw [h.head]; rfl, hl, hst⟩
    · have hst : st.stamps lit.var = false := Bool.eq_false_of_not_eq_true hs
      have hrest := ih st hpre (h.drop hs) ?_ hn
      · simpa only [hst, Bool.false_eq_true, if_false, ite_self] using hrest
      · refine hc.cut (Set.Subset.refl _) fun l hl => .given ?_
        exact (frontier_append hl).resolve_right fun hl => hs hl.2

structure Conflicting (p : Provider) (T : List CNFLit) (C : List CNFLit) : Prop where
  isFalse : ∀ x ∈ C, -x ∈ T
  two : ∃ x ∈ C, ∃ y ∈ C, x.var ≠ y.var ∧ p.level x.var = p.currentLevel ∧ p.level y.var = p.currentLevel

theorem initializeResult_spec {C : List CNFLit} (hC : Conflicting p T C) :
    Frontier p T p.levelAssignments (initializeResult p C .empty) ∧
      (∀ x ∈ C, (initializeResult p C .empty).stamps x.var = true) ∧
      2 ≤ (initializeResult p C .empty).unresolvedCount := by
  have h₀ : Frontier p T p.levelAssignments ⟨.empty, 0, [CNFLit.undefinedLiteral]⟩ := by
    refine ⟨rfl, ?_, ?_, List.nodup_nil, ?_, ?_, ?_⟩
    · intro x hx; cases hx
    · intro x hx; cases hx
    · intro v _; simp [Stamps.empty]
    · intro v _ hs; cases hs
    · simp [Stamps.empty, count]
  have hreg : ∀ x ∈ C, CNFLit.undefinedLiteral ≠ x := fun x hx =>
    (g.ne_undefinedLiteral (hC.isFalse x hx) (x := x) rfl).symm
  obtain ⟨hf, -, hst⟩ := h₀.foldl_addReasonLit (nodup_of_initial g (List.prefix_refl _)) g.level_eq
    (r := CNFLit.undefinedLiteral) C fun x hx _ =>
      ⟨hC.isFalse x hx, fun hv => g.mem_levelAssignments (hC.isFalse x hx) hv⟩
  refine ⟨hf, fun x hx => hst x hx (hreg x hx), ?_⟩
  obtain ⟨x, hx, y, hy, hne, hvx, hvy⟩ := hC.two
  have hmem : ∀ z ∈ C, p.level z.var = p.currentLevel →
      -z ∈ p.levelAssignments.filter fun l => (initializeResult p C .empty).stamps l.var := fun z hz hv =>
    List.mem_filter.mpr ⟨g.mem_levelAssignments (hC.isFalse z hz) hv, hst z hz (hreg z hz)⟩
  have hsub :
      {-x, -y} ⊆ (p.levelAssignments.filter fun l => (initializeResult p C .empty).stamps l.var).toFinset := by
    intro z hz
    rw [List.mem_toFinset]
    rcases Finset.mem_insert.mp hz with rfl | hz
    · exact hmem x hx hvx
    · rw [Finset.mem_singleton.mp hz]; exact hmem y hy hvy
  have hcard := (Finset.card_le_card hsub).trans (List.toFinset_card_le _)
  have hxy : -x ≠ -y := fun he => hne (congrArg CNFLit.var (neg_inj.mp he))
  rw [Finset.card_pair hxy, ← List.countP_eq_length_filter] at hcard
  exact hcard.trans_eq hf.count.symm

theorem computeConflictClause_spec (hforced : Forced p) {C : List CNFLit} (hΦ : C.toFinset ∈ Φ)
    (hC : Conflicting p T C) :
    ∃ u tail, computeConflictClause p .empty C = some (-u :: tail, .empty) ∧ p.Learnt Φ T u tail := by
  obtain ⟨hf, hst, hn⟩ := initializeResult_spec g hC
  have hsub : p.levelAssignments ⊆ T := fun _ => g.mem_of_levelAssignments
  have hconf : Conflict Φ (frontier p.levelAssignments (initializeResult p C .empty)) := by
    refine .inl ⟨C.toFinset, hΦ, fun x hx => .given ?_⟩
    have hx := List.mem_toFinset.mp hx
    exact hf.mem_frontier g hsub (hC.isFalse x hx) (hst x hx)
  rw [← List.reverse_reverse p.levelAssignments] at hf hconf
  obtain ⟨u, tail, st', he, hr, hl, hclear⟩ := resolveUntilUIP_spec g hforced p.levelAssignments.reverse _
    (by rw [List.reverse_reverse]) hf hconf (by omega)
  refine ⟨u, tail, ?_, hl⟩
  unfold computeConflictClause
  rw [he, Option.map_some, hr]
  congr 2
  funext v
  rw [clearStamps, foldl_set_apply]
  split
  · rfl
  · rename_i hv
    refine Bool.eq_false_of_not_eq_true fun hs => hv ?_
    exact List.mem_cons_of_mem _ (hclear v hs)

end

end FirstUIPLearning

end JamSAT
