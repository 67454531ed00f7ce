import JamSAT.LowMemory
import Mathlib.Data.Set.Card

/-!
# Stamps after a failed allocation

A call that throws leaves exactly those stamps behind that it has set when the exception is
thrown and that lie above the maximum variable given to the constructor. Where there are none,
class invariant A holds after every call.
-/

namespace JamSAT

namespace LowMemory

open JamSAT.FirstUIPLearning (State Feeds Frontier Walk Conflicting)
open Stamps UnitLogic

variable (G : Growth) {p : Provider} {T C : List CNFLit} (capacity : Nat)

/-! ## What is stamped when an exception is thrown -/

/-- The variable is met, but not yet visited, when the entries `suf` of the current level have been visited. -/
def Waiting (p : Provider) (C suf : List CNFLit) (v : CNFVar) : Prop :=
  v ∉ suf.map CNFLit.var ∧ ∃ x : CNFLit, x.var = v ∧ Feeds p C {m | m ∈ suf} x

/-- The first unique implication point is in `pre`: each entry behind `pre` that leads to the conflict has had
another one before it. -/
def Reaches (p : Provider) (C pre : List CNFLit) : Prop :=
  ∀ pre' w suf, p.levelAssignments = pre' ++ w :: suf → pre <+: pre' → Feeds p C {m | m ∈ suf} w →
    ∃ e ∈ pre', Feeds p C {m | m ∈ suf} e

structure ResolvedAt (p : Provider) (C pre : List CNFLit) (lit : CNFLit) (suf : List CNFLit) : Prop where
  split : p.levelAssignments = pre ++ lit :: suf
  feeds : Feeds p C {m | m ∈ suf} lit
  reaches : Reaches p C pre

/-- The size of `result` when the entries `suf` have been visited: the place of the asserting literal and one
literal for each variable met below the level. -/
noncomputable def sizeAfter (p : Provider) (C suf : List CNFLit) : Nat :=
  {v | Waiting p C suf v ∧ p.level v ≠ p.currentLevel}.ncard + 1

/-- The size for which memory is asked when resolving with the reason of `v`. -/
noncomputable def newSize (p : Provider) (C suf : List CNFLit) (v : CNFVar) : Nat :=
  sizeAfter p C suf + ((p.reason v).getD []).length

section
variable (p C)

open Classical in
noncomputable def capacityAfter : (suf : List CNFLit) → Nat
  | [] => G.reserve 1 (G.reserve 0 capacity 1) (1 + C.length)
  | lit :: suf =>
    if Feeds p C {m | m ∈ suf} lit then
      G.reserve (sizeAfter p C suf) (capacityAfter suf) (newSize p C suf lit.var)
    else capacityAfter suf

/-- The variable is stamped when the exception is thrown there; `resize` throws only where it has to allocate. -/
def StampedAt : Allocation → CNFVar → Prop
  | .pushBack, _ => False
  | .resize lit, v =>
    ∃ pre suf, ResolvedAt p C pre lit suf ∧ capacityAfter G p C capacity suf < newSize p C suf lit.var ∧
      v ≠ lit.var ∧ Waiting p C suf v
  | .injectedFault lit, v =>
    lit = CNFLit.undefinedLiteral ∧ Waiting p C [] v ∨
      ∃ pre suf, ResolvedAt p C pre lit suf ∧ Waiting p C (lit :: suf) v
  | .initializationFault, v => Waiting p C [] v

end

theorem ResolvedAt.mem {pre suf : List CNFLit} {lit : CNFLit} (h : ResolvedAt p C pre lit suf) :
    lit ∈ p.levelAssignments := by
  rw [h.split]
  exact List.mem_append_right _ List.mem_cons_self

theorem waiting_cons {suf : List CNFLit} {lit : CNFLit} {v : CNFVar} :
    Waiting p C (lit :: suf) v ↔
      v ≠ lit.var ∧ v ∉ suf.map CNFLit.var ∧ ∃ x : CNFLit, x.var = v ∧ Feeds p C {m | m ∈ lit :: suf} x := by
  unfold Waiting
  rw [List.map_cons, List.mem_cons, not_or, and_assoc]

theorem Reaches.cons {pre suf : List CNFLit} {lit : CNFLit} (h : Reaches p C (pre ++ [lit]))
    (hL : p.levelAssignments = pre ++ lit :: suf)
    (hlit : Feeds p C {m | m ∈ suf} lit → ∃ e ∈ pre, Feeds p C {m | m ∈ suf} e) : Reaches p C pre := by
  intro pre' w suf' hL' hpre hw
  obtain ⟨t, rfl⟩ := hpre
  rw [hL, List.append_assoc, List.append_cancel_left_eq] at hL'
  cases t with
  | nil =>
    cases hL'
    rw [List.append_nil]
    exact hlit hw
  | cons a t =>
    cases hL'
    apply h (pre ++ lit :: t) w suf' _ ⟨t, by simp⟩ hw
    rw [hL, List.append_assoc]
    rfl

section
variable (g : p.DecisionLevel T)
include g

theorem not_mem_around {pre suf : List CNFLit} {lit : CNFLit} (hL : p.levelAssignments = pre ++ lit :: suf) :
    lit ∉ pre ∧ lit.var ∉ suf.map CNFLit.var := by
  have hn := FirstUIPLearning.nodup_of_initial g.graph (List.prefix_refl _)
  rw [hL, List.map_append, List.nodup_append', List.map_cons, List.nodup_cons] at hn
  obtain ⟨-, ⟨hsuf, -⟩, hdisj⟩ := hn
  exact ⟨fun h => hdisj (List.mem_map_of_mem h) List.mem_cons_self, hsuf⟩

theorem split_eq {pre pre' suf suf' : List CNFLit} {lit : CNFLit} (hL : p.levelAssignments = pre ++ lit :: suf)
    (hL' : p.levelAssignments = pre' ++ lit :: suf') : pre' = pre ∧ suf' = suf := by
  obtain ⟨hpre, hsuf⟩ := not_mem_around g hL'
  have hl := hL'.symm.trans hL
  rw [List.append_cons_inj_of_notMem] at hl
  · exact ⟨hl.1, hl.2.2⟩
  · exact hpre
  · exact fun hm => hsuf (List.mem_map_of_mem hm)

theorem behind {pre suf : List CNFLit} (hL : p.levelAssignments = pre ++ suf) :
    {x | x ∈ p.levelAssignments ∧ x ∉ pre} = {m | m ∈ suf} := by
  have hn := FirstUIPLearning.nodup_level g
  rw [hL, List.nodup_append'] at hn
  ext x
  simp only [Set.mem_ofPred_eq, hL, List.mem_append]
  constructor
  · exact fun h => h.1.resolve_left h.2
  · exact fun h => ⟨.inr h, fun hp => hn.2.2 hp h⟩

/-- Having visited `lit`, the analysis follows the paths through it. -/
theorem feeds_cons {pre suf : List CNFLit} {lit : CNFLit} (hL : p.levelAssignments = pre ++ lit :: suf)
    (x : CNFLit) :
    Feeds p C {m | m ∈ lit :: suf} x ↔
      Feeds p C {m | m ∈ suf} x ∨ Feeds p C {m | m ∈ suf} lit ∧ ∃ R, p.reason lit.var = some R ∧ -x ∈ R := by
  have hp : pre ++ [lit] <+: p.levelAssignments := ⟨suf, by rw [hL, List.append_assoc]; rfl⟩
  have hL' : p.levelAssignments = (pre ++ [lit]) ++ suf := by
    rw [hL, List.append_assoc]
    rfl
  rw [← behind g hL, ← behind g hL']
  exact FirstUIPLearning.feeds_pass g hp x

end

/-! ## The walk -/

structure Down (p : Provider) (T C pre suf : List CNFLit) (st : State) : Prop where
  split : p.levelAssignments = pre ++ suf
  walk : Walk p T C pre st
  waiting : ∀ v, st.stamps v = true ↔ Waiting p C suf v
  reaches : Reaches p C pre

theorem Down.level_eq {pre suf : List CNFLit} {lit : CNFLit} {st : State} (h : Down p T C (pre ++ [lit]) suf st) :
    p.levelAssignments = pre ++ lit :: suf := by
  rw [h.split, List.append_assoc]
  rfl

theorem Down.initial {pre suf : List CNFLit} {lit : CNFLit} {st : State} (h : Down p T C (pre ++ [lit]) suf st) :
    pre ++ [lit] <+: p.levelAssignments := ⟨suf, h.split.symm⟩

theorem Down.length_eq {pre suf : List CNFLit} {st : State} (h : Down p T C pre suf st) :
    st.result.length = sizeAfter p C suf := by
  have hset : {v | Waiting p C suf v ∧ p.level v ≠ p.currentLevel} =
      ((st.result.tail.map CNFLit.var).toFinset : Set CNFVar) := by
    ext v
    rw [Finset.mem_coe, List.mem_toFinset, Set.mem_ofPred_eq, ← h.waiting]
    constructor
    · exact fun hv => (h.walk.frontier.stamped_below v hv.2).mp hv.1
    · intro hv
      obtain ⟨x, hx, rfl⟩ := List.mem_map.mp hv
      have hlevel := h.walk.frontier.below x hx
      exact ⟨(h.walk.frontier.stamped_below _ hlevel).mpr hv, hlevel⟩
  unfold sizeAfter
  rw [hset, Set.ncard_coe_finset, List.toFinset_card_of_nodup h.walk.frontier.nodup_vars, List.length_map]
  exact congrArg List.length h.walk.frontier.head

section
variable (g : p.DecisionLevel T)
include g

theorem Down.feeds_iff {pre suf : List CNFLit} {st : State} (h : Down p T C pre suf st) {e : CNFLit}
    (he : e ∈ pre) :
    st.stamps e.var = true ↔ Feeds p C {m | m ∈ suf} e := by
  rw [← behind g h.split, ← h.walk.pending e he]
  have hlevel := g.level_eq e (h.split ▸ List.mem_append_left _ he)
  constructor
  · exact fun hs => .inr ⟨he, hs⟩
  · intro hf
    cases hf with
    | inl hf => exact absurd hlevel (h.walk.frontier.below (-e) hf)
    | inr hf => exact hf.2

theorem Down.start (hC : Conflicting p T C) :
    Down p T C p.levelAssignments [] (FirstUIPLearning.initializeResult p C .empty) where
  split := (List.append_nil _).symm
  walk := FirstUIPLearning.initializeResult_walk g hC
  waiting v := by
    rw [FirstUIPLearning.initializeResult_stamps fun x hx => g.graph.ne_undefinedLiteral (hC.isFalse x hx) rfl,
      List.mem_map]
    constructor
    · intro h
      obtain ⟨x, hx, hv⟩ := h.resolve_left Bool.false_ne_true
      exact ⟨List.not_mem_nil, -x, hv, .conflict (by rw [neg_neg]; exact hx)⟩
    · intro h
      obtain ⟨-, x, hv, hx⟩ := h
      cases hx with
      | conflict hx => exact .inr ⟨-x, hx, hv⟩
      | reason hm => cases hm
  reaches := by
    intro pre' w suf hL hp
    have hlen := hp.length_le
    rw [hL, List.length_append, List.length_cons] at hlen
    omega

variable {pre suf : List CNFLit} {lit : CNFLit} {st : State} (h : Down p T C (pre ++ [lit]) suf st)
include h

/-- When two entries are stamped, `lit` is not the first unique implication point. -/
theorem Down.resolvedAt (hs : st.stamps lit.var = true) (hlt : 1 < st.unresolvedCount) :
    ResolvedAt p C pre lit suf := by
  have hcount := h.walk.frontier.count
  rw [count_append, if_pos hs] at hcount
  obtain ⟨e, he, hes⟩ := List.countP_pos_iff.mp (show 0 < st.stamps.count pre by omega)
  have hlit := List.mem_append_right pre (List.mem_singleton_self lit)
  refine ⟨h.level_eq, (h.feeds_iff g hlit).mp hs, h.reaches.cons h.level_eq fun _ => ⟨e, he, ?_⟩⟩
  exact (h.feeds_iff g (List.mem_append_left _ he)).mp hes

theorem Down.skip (hs : ¬ st.stamps lit.var = true) : Down p T C pre (lit :: suf) st := by
  have hlit := List.mem_append_right pre (List.mem_singleton_self lit)
  have hnf : ¬ Feeds p C {m | m ∈ suf} lit := fun hf => hs ((h.feeds_iff g hlit).mpr hf)
  have hsame : ∀ x, Feeds p C {m | m ∈ lit :: suf} x ↔ Feeds p C {m | m ∈ suf} x := fun x =>
    (feeds_cons g h.level_eq x).trans (or_iff_left fun hf => hnf hf.1)
  refine ⟨h.level_eq, h.walk.skip g h.initial hs, fun v => ?_, h.reaches.cons h.level_eq fun hf => absurd hf hnf⟩
  rw [waiting_cons]
  simp only [hsame]
  rw [h.waiting]
  refine ⟨fun hv => ⟨?_, hv⟩, fun hv => hv.2⟩
  rintro rfl
  exact hs ((h.waiting _).mpr hv)

theorem Down.resolve {R : List CNFLit} (hR : p.reason lit.var = some R) (hs : st.stamps lit.var = true)
    (hlt : 1 < st.unresolvedCount) :
    Down p T C pre (lit :: suf)
      (FirstUIPLearning.addResolvent p R lit { st with unresolvedCount := st.unresolvedCount - 1 }) := by
  have hL := h.level_eq
  obtain ⟨-, hsuf⟩ := not_mem_around g hL
  have hra := h.resolvedAt g hs hlt
  have hlitT : lit ∈ T := g.graph.mem_of_levelAssignments hra.mem
  refine ⟨hL, h.walk.resolve g h.initial hR hs hlt, fun v => ?_, hra.reaches⟩
  rw [FirstUIPLearning.addResolvent_stamps (g.graph.ne_undefinedLiteral hlitT rfl)]
  show v ≠ lit.var ∧ st.stamps v = true ∨ _ ↔ _
  rw [h.waiting, waiting_cons]
  simp only [feeds_cons g hL]
  constructor
  · intro hv
    cases hv with
    | inl hv =>
      obtain ⟨hne, hv, x, hx, hf⟩ := hv
      exact ⟨hne, hv, x, hx, .inl hf⟩
    | inr hv =>
      obtain ⟨x, hx, hne, rfl⟩ := hv
      refine ⟨?_, ?_, -x, rfl, .inr ⟨hra.feeds, R, hR, by rw [neg_neg]; exact hx⟩⟩
      · exact (g.others hlitT hR).2 x hx (Ne.symm hne) |>.2
      · -- an entry of `suf` comes behind `lit`, where its reason does not look
        intro hm
        obtain ⟨m, hm, hv⟩ := List.mem_map.mp hm
        have hmL : m ∈ p.levelAssignments := hL ▸ List.mem_append_right _ (List.mem_cons_of_mem _ hm)
        obtain ⟨hxT, hpre⟩ := (g.graph.reason_here h.initial hR).2.2 x hx (Ne.symm hne)
        have hmx := g.eq_of_var_eq (g.graph.mem_of_levelAssignments hmL) hxT hv
        have hxp := hpre (by rw [← hv]; exact g.level_eq m hmL)
        have hn := FirstUIPLearning.nodup_level g
        rw [hL, List.nodup_append'] at hn
        exact hn.2.2 hxp (hmx ▸ List.mem_cons_of_mem _ hm)
  · intro hv
    obtain ⟨hne, hv, x, rfl, hf⟩ := hv
    cases hf with
    | inl hf => exact .inl ⟨hne, hv, x, rfl, hf⟩
    | inr hf =>
      obtain ⟨-, R', hR', hx⟩ := hf
      obtain rfl := Option.some.inj (hR.symm.trans hR')
      refine .inr ⟨-x, hx, ?_, rfl⟩
      rintro rfl
      exact hne rfl

omit h in
theorem Down.stampedAt_resize (h : Down p T C (pre ++ [lit]) suf st) (hra : ResolvedAt p C pre lit suf)
    (hgrow : capacityAfter G p C capacity suf < newSize p C suf lit.var) (v : CNFVar) :
    st.stamps.set lit.var false v = true ↔ StampedAt G p C capacity (.resize lit) v := by
  have hset : st.stamps.set lit.var false v = true ↔ v ≠ lit.var ∧ Waiting p C suf v := by
    rw [← h.waiting]
    by_cases hv : v = lit.var
    · simp [hv]
    · simp [set_of_ne st.stamps hv, hv]
  rw [hset]
  constructor
  · exact fun hv => ⟨pre, suf, hra, hgrow, hv⟩
  · intro hv
    obtain ⟨pre', suf', hra', -, hv⟩ := hv
    obtain ⟨-, rfl⟩ := split_eq g hra.split hra'.split
    exact hv

omit h in
theorem Down.stampedAt_injectedFault {st' : State} (h : Down p T C pre (lit :: suf) st')
    (hra : ResolvedAt p C pre lit suf) (v : CNFVar) :
    st'.stamps v = true ↔ StampedAt G p C capacity (.injectedFault lit) v := by
  rw [h.waiting]
  constructor
  · exact fun hv => .inr ⟨pre, suf, hra, hv⟩
  · intro hv
    cases hv with
    | inl hv => exact absurd hv.1 (g.graph.ne_undefinedLiteral (g.graph.mem_of_levelAssignments hra.mem) rfl)
    | inr hv =>
      obtain ⟨pre', suf', hra', hv⟩ := hv
      obtain ⟨-, rfl⟩ := split_eq g hra.split hra'.split
      exact hv

/-- The analysis ends at `lit`, the only entry that is stamped. -/
theorem Down.not_resolvedAt (hs : st.stamps lit.var = true) (hn : ¬ 1 < st.unresolvedCount) {l : CNFLit}
    (hl : l ∈ pre ++ [lit]) {pre' suf' : List CNFLit} : ¬ ResolvedAt p C pre' l suf' := by
  intro hra
  obtain ⟨a, b, hab⟩ := List.append_of_mem hl
  have hLa : p.levelAssignments = a ++ l :: (b ++ suf) := by
    rw [h.split, hab, List.append_assoc]
    rfl
  obtain ⟨rfl, -⟩ := split_eq g hLa hra.split
  have hpre : pre' <+: pre := by
    have hfront : pre' <+: pre ++ [lit] := ⟨l :: b, hab.symm⟩
    apply List.prefix_of_prefix_length_le hfront (List.prefix_append _ _)
    have hlen := congrArg List.length hab
    simp only [List.length_append, List.length_cons, List.length_nil] at hlen
    omega
  have hlit := List.mem_append_right pre (List.mem_singleton_self lit)
  obtain ⟨e, he, hf⟩ := hra.reaches pre lit suf h.level_eq hpre ((h.feeds_iff g hlit).mp hs)
  have hes := (h.feeds_iff g (List.mem_append_left _ he)).mpr hf
  have hcount := h.walk.frontier.count
  rw [count_append, if_pos hs] at hcount
  have hpos : 0 < st.stamps.count pre := List.countP_pos_iff.mpr ⟨e, he, hes⟩
  omega

end

/-! ## A call -/

theorem addResolvent_eq (fault : Option Allocation) (R : List CNFLit) {lit : CNFLit}
    (hne : lit ≠ CNFLit.undefinedLiteral) (st : BufferedState) :
    addResolvent G p fault R lit st =
      if st.capacity < st.result.length + R.length ∧ fault = some (.resize lit) then
        .error (st.stamps.set lit.var false)
      else if fault = some (.injectedFault lit) then
        .error (FirstUIPLearning.addResolvent p R lit st.toState).stamps
      else .ok ⟨FirstUIPLearning.addResolvent p R lit st.toState,
        G.reserve st.result.length st.capacity (st.result.length + R.length)⟩ := by
  unfold addResolvent JamSAT.FirstUIPLearning.addResolvent
  simp only [ne_eq, hne, not_false_eq_true, if_true]

section
variable (g : p.DecisionLevel T)
include g

/-- The walk throws with the stamps of the place where it does, or it is the one without faults. -/
theorem resolveUntilUIP_spec (fault : Option Allocation) (cursor suf : List CNFLit) (st : BufferedState)
    (h : Down p T C cursor.reverse suf st.toState) (hcap : st.capacity = capacityAfter G p C capacity suf) :
    (∃ stamps a, resolveUntilUIP G p fault cursor st = some (.error stamps) ∧ fault = some a ∧
      ∀ v, stamps v = true ↔ StampedAt G p C capacity a v) ∨
    ∃ st', resolveUntilUIP G p fault cursor st = some (.ok st') ∧
      FirstUIPLearning.resolveUntilUIP p cursor st.toState = some st'.toState ∧
      ∀ pre lit suf', lit ∈ cursor → ResolvedAt p C pre lit suf' →
        ¬ (capacityAfter G p C capacity suf' < newSize p C suf' lit.var ∧ fault = some (.resize lit)) ∧
        fault ≠ some (.injectedFault lit) := by
  induction cursor generalizing suf st with
  | nil =>
    have hcount := h.walk.count
    rw [h.walk.frontier.count] at hcount
    cases hcount
  | cons lit cursor ih =>
    rw [List.reverse_cons] at h
    have hL := h.level_eq
    have hlit := List.mem_append_right cursor.reverse (List.mem_singleton_self lit)
    unfold resolveUntilUIP JamSAT.FirstUIPLearning.resolveUntilUIP
    by_cases hs : st.stamps lit.var = true
    · by_cases hlt : 1 < st.unresolvedCount
      · have hra := h.resolvedAt g hs hlt
        obtain ⟨e, he, -⟩ := hra.reaches _ _ _ hL (List.prefix_refl _) hra.feeds
        have hne := g.graph.ne_undefinedLiteral (g.graph.mem_of_levelAssignments hra.mem) rfl
        simp only [hlt, if_true, hs]
        cases hr : p.reason lit.var with
        | none => exact absurd hr (g.everyForced _ _ h.initial (List.ne_nil_of_mem he))
        | some R =>
          have hsize : st.result.length + R.length = newSize p C suf lit.var := by
            unfold newSize
            rw [hr, h.length_eq]
            rfl
          simp only [addResolvent_eq G fault R hne, hsize, hcap]
          by_cases hf : capacityAfter G p C capacity suf < newSize p C suf lit.var ∧ fault = some (.resize lit)
          · rw [if_pos hf]
            exact .inl ⟨_, _, rfl, hf.2, h.stampedAt_resize G capacity g hra hf.1⟩
          · by_cases hf' : fault = some (.injectedFault lit)
            · rw [if_neg hf, if_pos hf']
              exact .inl ⟨_, _, rfl, hf', (h.resolve g hr hs hlt).stampedAt_injectedFault G capacity g hra⟩
            · rw [if_neg hf, if_neg hf']
              have hcap' : G.reserve st.result.length (capacityAfter G p C capacity suf) (newSize p C suf lit.var) =
                  capacityAfter G p C capacity (lit :: suf) := by
                rw [capacityAfter, if_pos hra.feeds, h.length_eq]
              refine (ih _ _ (h.resolve g hr hs hlt) hcap').imp_right fun hok => ?_
              obtain ⟨st', hst', hst'', hno⟩ := hok
              refine ⟨st', hst', hst'', fun pre l suf' hl hra' => ?_⟩
              cases List.mem_cons.mp hl with
              | inl hl =>
                subst hl
                obtain ⟨-, rfl⟩ := split_eq g hL hra'.split
                exact ⟨hf, hf'⟩
              | inr hl => exact hno pre l suf' hl hra'
      · simp only [hlt, if_false, hs, if_true]
        refine .inr ⟨_, rfl, rfl, fun pre l suf' hl hra => ?_⟩
        exact absurd hra (h.not_resolvedAt g hs hlt (by simpa [or_comm] using hl))
    · have hst : st.stamps lit.var = false := Bool.eq_false_of_not_eq_true hs
      have hnf : ¬ Feeds p C {m | m ∈ suf} lit := fun hf => hs ((h.feeds_iff g hlit).mpr hf)
      simp only [hst, Bool.false_eq_true, if_false, ite_self]
      refine (ih _ _ (h.skip g hs) (by rw [capacityAfter, if_neg hnf, hcap])).imp_right fun hok => ?_
      obtain ⟨st', hst', hst'', hno⟩ := hok
      refine ⟨st', hst', hst'', fun pre l suf' hl hra => ?_⟩
      cases List.mem_cons.mp hl with
      | inl hl =>
        subst hl
        obtain ⟨-, rfl⟩ := split_eq g hL hra.split
        exact absurd hra.feeds hnf
      | inr hl => exact hno pre l suf' hl hra

/-- The first call of `addResolvent`, and the fault behind it. -/
theorem initializeResult_spec (hC : Conflicting p T C) (fault : Option Allocation) :
    (∃ stamps a, initializeResult G p fault C capacity .empty = .error stamps ∧ fault = some a ∧
      ∀ v, stamps v = true ↔ StampedAt G p C capacity a v) ∨
    initializeResult G p fault C capacity .empty =
        .ok ⟨FirstUIPLearning.initializeResult p C .empty, capacityAfter G p C capacity []⟩ ∧
      fault ≠ some .initializationFault ∧ fault ≠ some (.injectedFault CNFLit.undefinedLiteral) := by
  have hstart := (Down.start g hC).waiting
  have hno : ∀ pre suf, ¬ ResolvedAt p C pre CNFLit.undefinedLiteral suf := by
    intro pre suf hra
    exact g.graph.ne_undefinedLiteral (g.graph.mem_of_levelAssignments hra.mem) rfl rfl
  have hempty : ∀ v, Stamps.empty v = true ↔ False := fun v => iff_of_false Bool.false_ne_true not_false
  unfold initializeResult addResolvent
  simp only [ne_eq, not_true_eq_false, if_false]
  by_cases h₁ : capacity < 1 ∧ fault = some .pushBack
  · rw [if_pos h₁]
    exact .inl ⟨_, _, rfl, h₁.2, hempty⟩
  rw [if_neg h₁]
  by_cases h₂ : G.reserve 0 capacity 1 < [CNFLit.undefinedLiteral].length + C.length ∧
      fault = some (.resize CNFLit.undefinedLiteral)
  · rw [if_pos h₂]
    refine .inl ⟨_, _, rfl, h₂.2, fun v => (hempty v).trans (iff_of_false not_false fun hv => ?_)⟩
    obtain ⟨pre, suf, hra, -⟩ := hv
    exact hno pre suf hra
  rw [if_neg h₂]
  by_cases h₃ : fault = some (.injectedFault CNFLit.undefinedLiteral)
  · rw [if_pos h₃]
    refine .inl ⟨_, _, rfl, h₃, fun v => (hstart v).trans ⟨fun hv => .inl ⟨rfl, hv⟩, fun hv => ?_⟩⟩
    cases hv with
    | inl hv => exact hv.2
    | inr hv =>
      obtain ⟨pre, suf, hra, -⟩ := hv
      exact absurd hra (hno pre suf)
  rw [if_neg h₃]
  dsimp only
  by_cases h₄ : fault = some .initializationFault
  · rw [if_pos h₄]
    exact .inl ⟨_, _, rfl, h₄, hstart⟩
  · rw [if_neg h₄]
    exact .inr ⟨rfl, h₄, h₃⟩

end

namespace FirstUIPLearning

theorem restoreInvariant_stamps (l : FirstUIPLearning) (stamps : Stamps) (v : CNFVar) :
    (l.restoreInvariant stamps).m_stamps v = true ↔ l.m_maxVar < v ∧ stamps v = true := by
  unfold restoreInvariant
  dsimp only
  rw [foldl_set_apply, List.map_id'' fun _ => rfl]
  by_cases hv : l.m_maxVar < v
  · rw [if_neg fun h => absurd (List.mem_range.mp h) (Nat.not_lt.mpr hv)]
    exact (and_iff_right hv).symm
  · rw [if_pos (List.mem_range.mpr (Nat.lt_succ_of_le (Nat.le_of_not_lt hv)))]
    exact iff_of_false Bool.false_ne_true fun h => hv h.1

/-- A call that begins without stamps returns the conflict clause that is found without faults, or throws, and the
stamps left are those of the place where it throws, above the constructor's maximum variable. -/
theorem computeConflictClause_exact (g : p.DecisionLevel T) (hC : Conflicting p T C) (l : FirstUIPLearning)
    (hl : l.m_stamps = .empty) (fault : Option Allocation) :
    ∃ r l', l.computeConflictClause G p fault C capacity = some (r, l') ∧ l'.m_maxVar = l.m_maxVar ∧
      l'.size = l.size ∧
      (∀ clause ∈ r, JamSAT.FirstUIPLearning.computeConflictClause p .empty C = some (clause, .empty)) ∧
      ∀ v, l'.m_stamps v = true ↔ l.m_maxVar < v ∧ ∃ a, fault = some a ∧ StampedAt G p C capacity a v := by
  have hthrown : ∀ stamps a, fault = some a → (∀ v, stamps v = true ↔ StampedAt G p C capacity a v) →
      ∀ v, (l.restoreInvariant stamps).m_stamps v = true ↔
        l.m_maxVar < v ∧ ∃ a, fault = some a ∧ StampedAt G p C capacity a v := by
    intro stamps a ha hst v
    rw [restoreInvariant_stamps, hst]
    refine and_congr_right fun _ => ⟨fun hv => ⟨a, ha, hv⟩, fun hv => ?_⟩
    obtain ⟨b, hb, hv⟩ := hv
    obtain rfl := Option.some.inj (ha.symm.trans hb)
    exact hv
  unfold computeConflictClause
  rw [hl]
  cases initializeResult_spec G capacity g hC fault with
  | inl h =>
    obtain ⟨stamps, a, hi, ha, hst⟩ := h
    rw [hi]
    exact ⟨none, _, rfl, rfl, rfl, nofun, hthrown stamps a ha hst⟩
  | inr h =>
    obtain ⟨hi, hinit, hinjected⟩ := h
    rw [hi]
    have hdown := Down.start g hC
    rw [← List.reverse_reverse p.levelAssignments] at hdown
    cases resolveUntilUIP_spec G capacity g fault p.levelAssignments.reverse []
      ⟨JamSAT.FirstUIPLearning.initializeResult p C .empty, capacityAfter G p C capacity []⟩ hdown rfl with
    | inl h =>
      obtain ⟨stamps, a, hr, ha, hst⟩ := h
      simp only [hr]
      exact ⟨none, _, rfl, rfl, rfl, nofun, hthrown stamps a ha hst⟩
    | inr h =>
      obtain ⟨st', hr, hr', hno⟩ := h
      obtain ⟨u, tail, he, -⟩ :=
        JamSAT.FirstUIPLearning.computeConflictClause_spec g.graph g.everyForced (Set.mem_univ _) hC
      have hout :
          (st'.result, JamSAT.FirstUIPLearning.clearStamps st'.result st'.stamps) = (-u :: tail, .empty) := by
        have hrun := he
        unfold JamSAT.FirstUIPLearning.computeConflictClause at hrun
        rw [hr'] at hrun
        exact Option.some.inj hrun
      obtain ⟨hres, hclear⟩ := Prod.mk.inj hout
      simp only [hr, hclear]
      refine ⟨_, _, rfl, rfl, rfl, ?_, fun v => iff_of_false Bool.false_ne_true fun hv => ?_⟩
      · intro clause hclause
        obtain rfl := Option.some.inj hclause
        rw [he, hres]
      · obtain ⟨-, a, ha, hv⟩ := hv
        cases a with
        | pushBack => exact hv
        | initializationFault => exact hinit ha
        | resize lit =>
          obtain ⟨pre, suf, hra, hgrow, -⟩ := hv
          exact (hno pre lit suf (List.mem_reverse.mpr hra.mem) hra).1 ⟨hgrow, ha⟩
        | injectedFault lit =>
          cases hv with
          | inl hv => exact hinjected (hv.1 ▸ ha)
          | inr hv =>
            obtain ⟨pre, suf, hra, -⟩ := hv
            exact (hno pre lit suf (List.mem_reverse.mpr hra.mem) hra).2 ha

end FirstUIPLearning

/-! ## Runs -/

/-- The implication graph is over the current variables, and the conflicting clause is false. -/
def Call.Regular (l : FirstUIPLearning) : Call → Prop
  | .increaseMaxVarTo newMaxVar => newMaxVar < CNFVar.undefinedVariable
  | .computeConflictClause p C _ _ =>
    ∃ T, p.DecisionLevel T ∧ Conflicting p T C ∧ ∀ x ∈ T, x.var < l.size

/-- When an allocation of the call fails, no variable above the constructor's maximum is stamped. -/
def Call.Clean (l : FirstUIPLearning) : Call → Prop
  | .increaseMaxVarTo _ => True
  | .computeConflictClause p C capacity fault =>
    ∀ a, fault = some a → ∀ v, StampedAt G p C capacity a v → v ≤ l.m_maxVar

theorem Waiting.mem (g : p.DecisionLevel T) (hC : Conflicting p T C) {pre suf : List CNFLit} {v : CNFVar}
    (hL : p.levelAssignments = pre ++ suf) (h : Waiting p C suf v) : v ∈ T.map CNFLit.var := by
  obtain ⟨hv, x, rfl, hf⟩ := h
  cases hf with
  | conflict hx => exact List.mem_map.mpr ⟨_, hC.isFalse _ hx, by rw [neg_neg]⟩
  | @reason _ m R hm hR hx _ =>
    have hmT := g.graph.mem_of_levelAssignments (hL ▸ List.mem_append_right _ hm)
    have hne : -x ≠ m := fun he => hv (List.mem_map.mpr ⟨m, hm, (congrArg CNFLit.var he).symm⟩)
    exact List.mem_map.mpr ⟨_, ((g.others hmT hR).2 _ hx hne).1, by rw [neg_neg]⟩

theorem StampedAt.mem (g : p.DecisionLevel T) (hC : Conflicting p T C) {a : Allocation} {v : CNFVar}
    (h : StampedAt G p C capacity a v) : v ∈ T.map CNFLit.var := by
  cases a with
  | pushBack => cases h
  | initializationFault => exact Waiting.mem g hC (List.append_nil _).symm h
  | resize lit =>
    obtain ⟨pre, suf, hra, -, -, hv⟩ := h
    exact hv.mem g hC (hra.split.trans (List.append_cons pre lit suf))
  | injectedFault lit =>
    cases h with
    | inl h => exact h.2.mem g hC (List.append_nil _).symm
    | inr h =>
      obtain ⟨pre, suf, hra, hv⟩ := h
      exact hv.mem g hC hra.split

namespace FirstUIPLearning

theorem step_spec (l : FirstUIPLearning) (hl : l.m_stamps = .empty) (c : Call) (hc : c.Regular l) :
    ∃ l', l.step G c = some l' ∧ (c.Clean G l → l'.m_stamps = .empty) ∧ (l'.InvariantA → c.Clean G l) := by
  cases c with
  | increaseMaxVarTo newMaxVar =>
    refine ⟨_, rfl, fun _ => ?_, fun _ => trivial⟩
    funext v
    unfold increaseMaxVarTo
    dsimp only
    rw [foldl_set_apply, hl]
    exact ite_self _
  | computeConflictClause p C capacity fault =>
    obtain ⟨T, g, hC, hT⟩ := hc
    obtain ⟨r, l', hr, -, hsize, -, hst⟩ := computeConflictClause_exact G capacity g hC l hl fault
    refine ⟨l', by rw [step, hr]; rfl, fun hclean => ?_, fun hinv a ha v hv => ?_⟩
    · funext v
      refine Bool.eq_false_of_not_eq_true fun hs => ?_
      obtain ⟨hlt, a, ha, hv⟩ := (hst v).mp hs
      exact absurd (hclean a ha v hv) (Nat.not_le.mpr hlt)
    · by_contra hlt
      obtain ⟨x, hx, rfl⟩ := List.mem_map.mp (hv.mem G capacity g hC)
      have hs := (hst x.var).mpr ⟨Nat.lt_of_not_le hlt, a, ha, hv⟩
      rw [hinv x.var (hsize ▸ hT x hx)] at hs
      cases hs

/-- In a run whose calls are clean, class invariant A holds after each of them. -/
theorem invariantA_of_clean (l : FirstUIPLearning)
    (h : Runs.Reachable (fun l => ∃ maxVar < CNFVar.undefinedVariable, l = new maxVar)
      (fun l l' => ∃ c : Call, c.Regular l ∧ c.Clean G l ∧ l.step G c = some l') l) :
    l.InvariantA ∧ ∀ c : Call, c.Regular l → ∃ l', l.step G c = some l' ∧ (l'.InvariantA ↔ c.Clean G l) := by
  have hempty : l.m_stamps = .empty := by
    refine h.invariant (I := fun l => l.m_stamps = .empty) (fun l hl => ?_) (fun l l' hl hstep => ?_)
    · obtain ⟨maxVar, -, rfl⟩ := hl
      rfl
    · obtain ⟨c, hreg, hclean, hc⟩ := hstep
      obtain ⟨t, ht, hkeep, -⟩ := step_spec G l hl c hreg
      obtain rfl := Option.some.inj (ht.symm.trans hc)
      exact hkeep hclean
  have hinv : ∀ l : FirstUIPLearning, l.m_stamps = .empty → l.InvariantA := fun l hl v _ => by rw [hl]; rfl
  refine ⟨hinv l hempty, fun c hc => ?_⟩
  obtain ⟨l', hl', hkeep, hclean⟩ := step_spec G l hempty c hc
  exact ⟨l', hl', hclean, fun hc => hinv l' (hkeep hc)⟩

def doubled : Growth := ⟨fun size _ newSize => size + max size (newSize - size), fun _ _ _ => by omega⟩

/-- The learner of the solver, which is made for variable 0. -/
theorem new_increased : (new 0 |>.increaseMaxVarTo 3).InvariantA ∧
    ∀ c : Call, c.Regular (new 0 |>.increaseMaxVarTo 3) →
      ∃ l', (new 0 |>.increaseMaxVarTo 3).step doubled c = some l' ∧
        (l'.InvariantA ↔ c.Clean doubled (new 0 |>.increaseMaxVarTo 3)) :=
  invariantA_of_clean doubled _
    (.step (.init ⟨0, by decide, rfl⟩)
      ⟨.increaseMaxVarTo 3, show 3 < CNFVar.undefinedVariable by decide, trivial, rfl⟩)

def longReason : Provider where
  currentLevel := 1
  level _ := 1
  levelAssignments := [⟨0, .positive⟩, ⟨1, .positive⟩, ⟨2, .positive⟩, ⟨3, .positive⟩]
  reason
    | 1 => some [⟨1, .positive⟩, ⟨0, .negative⟩]
    | 2 => some [⟨2, .positive⟩, ⟨1, .negative⟩]
    | 3 => some [⟨3, .positive⟩, ⟨0, .negative⟩, ⟨1, .negative⟩]
    | _ => none

theorem longReason_decisionLevel : longReason.DecisionLevel longReason.levelAssignments where
  nodup_vars := by decide
  reason := JamSAT.FirstUIPLearning.reason_of_inits (by decide)
  regular := by decide
  split := ⟨[], rfl, nofun⟩
  level_eq := by decide
  forced := by decide
  second l hl R hR _ := by
    have hall : ∀ l ∈ longReason.levelAssignments, ∀ R ∈ longReason.reason l.var, ∃ x ∈ R, x ≠ l := by decide
    obtain ⟨x, hx, hne⟩ := hall l hl R hR
    exact ⟨x, hx, hne, rfl⟩

/-- Three literals fit into `result` when the reason of 3 asks for four: out of memory, the stamp of 2 is left. -/
theorem new_increased_leftStamp :
    ∃ c : Call, c.Regular (new 0 |>.increaseMaxVarTo 3) ∧
      ∃ l', (new 0 |>.increaseMaxVarTo 3).step doubled c = some l' ∧ ¬ l'.InvariantA := by
  refine ⟨.computeConflictClause longReason [⟨2, .negative⟩, ⟨3, .negative⟩] 0 (some (.resize ⟨3, .positive⟩)),
    ?_, _, rfl, fun hinv => ?_⟩
  · refine ⟨_, longReason_decisionLevel, ?_, by decide⟩
    exact ⟨by decide, ⟨2, .negative⟩, by decide, ⟨3, .negative⟩, by decide, by decide, rfl, rfl⟩
  · have hleft := hinv 2 (by decide)
    revert hleft
    decide

end FirstUIPLearning

end LowMemory

end JamSAT
