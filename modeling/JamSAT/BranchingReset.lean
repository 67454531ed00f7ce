import JamSAT.BranchingSound

/-!
# Resetting the branching heuristic

`clear` leaves the indices of the elements in place, so that the heap takes them
for contained and `reset` inserts only the others. Apart from these indices the
heap behaves like one that has been emptied.
-/

namespace JamSAT

namespace BinaryMaxHeap

open Index

variable {K : Type} [Index K] {M : Set K} {h h' h₀ h₀' : BinaryMaxHeap K}

/-! ## Indices that have been left behind -/

/-- The heaps differ in the indices of `M` only, and `h` takes these elements for contained. -/
structure Agrees (M : Set K) (h h₀ : BinaryMaxHeap K) : Prop where
  heap : h.m_heap = h₀.m_heap
  size : h.m_size = h₀.m_size
  length : h.m_indices.length = h₀.m_indices.length
  index : ∀ x ∉ M, h.m_indices[getIndex x]? = h₀.m_indices[getIndex x]?
  marked : ∀ x ∈ M, h.contains x = true

def Follows (M : Set K) (r r₀ : Option (BinaryMaxHeap K)) : Prop :=
  ∀ h₀', r₀ = some h₀' → ∃ h', r = some h' ∧ Agrees M h' h₀'

theorem contains_placed {c : Nat} {e x : K} (hx : h.contains x = true) : (h.placed c e).contains x = true := by
  by_cases hxe : x = e
  · subst hxe
    have hlt : getIndex x < h.m_indices.length := by
      by_contra hlt
      unfold contains position at hx
      rw [List.getElem?_eq_none (Nat.le_of_not_lt hlt)] at hx
      cases hx
    unfold contains position
    rw [index_placed_self hlt, Option.bind_eq_bind, Option.bind_some, if_pos (Int.natCast_nonneg c)]
    rfl
  · unfold contains position at hx ⊢
    rwa [index_placed_of_ne hxe]

theorem Agrees.resize (ha : Agrees M h h₀) {n n₀ : Nat} (hn : n = n₀) :
    Agrees M { h with m_size := n } { h₀ with m_size := n₀ } :=
  ⟨ha.heap, hn, ha.length, ha.index, ha.marked⟩

theorem Agrees.position (ha : Agrees M h h₀) {e : K} (he : e ∉ M) : h.position e = h₀.position e := by
  unfold BinaryMaxHeap.position
  rw [ha.index e he]

theorem Agrees.put (ha : Agrees M h h₀) (c : Nat) (e : K) : Follows M (h.put c e) (h₀.put c e) := by
  intro h₀' hp
  unfold BinaryMaxHeap.put at hp ⊢
  rw [ha.heap, ha.length]
  split at hp
  · rename_i hc
    obtain rfl := Option.some.inj hp
    rw [if_pos hc]
    refine ⟨_, rfl, rfl, ha.size, ?_, fun x hx => ?_, fun x hx => ?_⟩
    · rw [List.length_set, List.length_set]
      exact ha.length
    · by_cases hxe : x = e
      · rw [hxe, List.getElem?_set_self (hc.2.trans_eq ha.length.symm), List.getElem?_set_self hc.2]
      · have hne : getIndex e ≠ getIndex x := fun he => hxe (unique he.symm)
        rw [List.getElem?_set_ne hne, List.getElem?_set_ne hne]
        exact ha.index x hx
    · have := contains_placed (c := c) (e := e) (ha.marked x hx)
      rw [placed, ha.heap] at this
      exact this
  · cases hp

theorem Agrees.unmark (ha : Agrees M h h₀) {e : K} (he : e ∉ M) : Follows M (h.unmark e) (h₀.unmark e) := by
  intro h₀' hp
  unfold BinaryMaxHeap.unmark at hp ⊢
  rw [ha.length]
  split at hp
  · rename_i hc
    obtain rfl := Option.some.inj hp
    rw [if_pos hc]
    have hne : ∀ x, x ≠ e → getIndex e ≠ getIndex x := fun x hx he => hx (unique he.symm)
    refine ⟨_, rfl, ha.heap, ha.size, ?_, fun x hx => ?_, fun x hx => ?_⟩
    · rw [List.length_set, List.length_set]
      exact ha.length
    · by_cases hxe : x = e
      · rw [hxe, List.getElem?_set_self (hc.trans_eq ha.length.symm), List.getElem?_set_self hc]
      · rw [List.getElem?_set_ne (hne x hxe), List.getElem?_set_ne (hne x hxe)]
        exact ha.index x hx
    · have hold := ha.marked x hx
      unfold contains BinaryMaxHeap.position at hold ⊢
      rwa [List.getElem?_set_ne (hne x fun hxe => he (hxe ▸ hx))]
  · cases hp

variable (m_lessThan : K → K → Bool)

theorem Agrees.moveUp (e : K) : ∀ (steps : Nat) {h h₀ : BinaryMaxHeap K} (c : Nat), Agrees M h h₀ →
    Follows M (moveUp m_lessThan e steps h c) (moveUp m_lessThan e steps h₀ c) := by
  intro steps
  induction steps with
  | zero =>
    intro h h₀ c _ h₀' hr
    cases hr
  | succ steps ih =>
    intro h h₀ c ha
    unfold BinaryMaxHeap.moveUp
    split
    · exact ha.put c e
    · rw [ha.heap]
      intro h₀' hr
      obtain ⟨y, hy, hr⟩ := Option.bind_eq_some_iff.mp hr
      rw [hy, Option.bind_eq_bind, Option.bind_some]
      split at hr
      · rename_i hless
        rw [if_pos hless]
        exact ha.put c e h₀' hr
      · rename_i hless
        obtain ⟨h₁, hp, hr⟩ := Option.bind_eq_some_iff.mp hr
        obtain ⟨h₁', hp', ha'⟩ := ha.put c y h₁ hp
        rw [if_neg hless, hp', Option.bind_eq_bind, Option.bind_some]
        exact ih (getParentIdx c) ha' h₀' hr

theorem Agrees.increasingUpdate (ha : Agrees M h h₀) {e : K} (he : e ∉ M) :
    Follows M (h.increasingUpdate m_lessThan e) (h₀.increasingUpdate m_lessThan e) := by
  intro h₀' hr
  unfold BinaryMaxHeap.increasingUpdate at hr ⊢
  rw [ha.position he]
  obtain ⟨c, hc, hr⟩ := Option.bind_eq_some_iff.mp hr
  rw [hc, Option.bind_eq_bind, Option.bind_some]
  split at hr
  · rename_i h0
    rw [if_pos h0]
    obtain rfl := Option.some.inj hr
    exact ⟨h, rfl, ha⟩
  · rename_i h0
    rw [if_neg h0]
    exact ha.moveUp m_lessThan e (c + 1) c h₀' hr

theorem Agrees.maxChildIdx (ha : Agrees M h h₀) (c : Nat) :
    h.maxChildIdx m_lessThan c = h₀.maxChildIdx m_lessThan c := by
  unfold BinaryMaxHeap.maxChildIdx
  rw [ha.heap, ha.size]

theorem Agrees.moveDown (e : K) : ∀ (steps : Nat) {h h₀ : BinaryMaxHeap K} (c : Nat), Agrees M h h₀ →
    Follows M (moveDown m_lessThan e steps h c) (moveDown m_lessThan e steps h₀ c) := by
  intro steps
  induction steps with
  | zero =>
    intro h h₀ c _ h₀' hr
    cases hr
  | succ steps ih =>
    intro h h₀ c ha
    unfold BinaryMaxHeap.moveDown
    rw [ha.size, ha.maxChildIdx, ha.heap]
    split
    · intro h₀' hr
      obtain ⟨m, hm, hr⟩ := Option.bind_eq_some_iff.mp hr
      obtain ⟨y, hy, hr⟩ := Option.bind_eq_some_iff.mp hr
      rw [hm, Option.bind_eq_bind, Option.bind_some, hy, Option.bind_eq_bind, Option.bind_some]
      split at hr
      · rename_i hless
        obtain ⟨h₁, hp, hr⟩ := Option.bind_eq_some_iff.mp hr
        obtain ⟨h₁', hp', ha'⟩ := ha.put c y h₁ hp
        rw [if_pos hless, hp', Option.bind_eq_bind, Option.bind_some]
        exact ih m ha' h₀' hr
      · rename_i hless
        rw [if_neg hless]
        exact ha.put c e h₀' hr
    · split
      · exact ha.put c e
      · intro h₀' hr
        cases hr

theorem Agrees.decreasingUpdate (ha : Agrees M h h₀) {e : K} (he : e ∉ M) :
    Follows M (h.decreasingUpdate m_lessThan e) (h₀.decreasingUpdate m_lessThan e) := by
  intro h₀' hr
  unfold BinaryMaxHeap.decreasingUpdate at hr ⊢
  rw [ha.position he, ha.size]
  obtain ⟨c, hc, hr⟩ := Option.bind_eq_some_iff.mp hr
  rw [hc, Option.bind_eq_bind, Option.bind_some]
  exact Agrees.moveDown m_lessThan e h₀.m_size c ha h₀' hr

theorem Agrees.insert (ha : Agrees M h h₀) {e : K} (he : e ∉ M) :
    Follows M (h.insert m_lessThan e) (h₀.insert m_lessThan e) := by
  intro h₀' hr
  have hcontains : h.contains e = h₀.contains e := by
    unfold contains
    rw [ha.position he]
  unfold BinaryMaxHeap.insert at hr ⊢
  rw [hcontains, ha.size, ha.heap]
  split at hr
  · rename_i hc
    rw [if_pos hc]
    obtain rfl := Option.some.inj hr
    exact ⟨h, rfl, ha⟩
  · rename_i hc
    rw [if_neg hc]
    split at hr
    · rename_i hfit
      obtain ⟨h₁, hp, hr⟩ := Option.bind_eq_some_iff.mp hr
      obtain ⟨h₁', hp', ha'⟩ := (ha.resize rfl).put h₀.m_size e h₁ hp
      rw [ha.heap] at hp'
      rw [if_pos hfit, hp', Option.bind_eq_bind, Option.bind_some]
      exact ha'.increasingUpdate m_lessThan he h₀' hr
    · cases hr

/-- The elements of the heap are not in `M`. -/
theorem Agrees.removeMax (ha : Agrees M h h₀) (hM : ∀ i x, h₀.elementAt i = some x → x ∉ M) {x : K}
    (hr : h₀.removeMax m_lessThan = some (h₀', x)) :
    ∃ h', h.removeMax m_lessThan = some (h', x) ∧ Agrees M h' h₀' := by
  unfold BinaryMaxHeap.removeMax at hr ⊢
  rw [ha.size, ha.heap]
  split at hr
  · rename_i hpos
    rw [if_pos hpos]
    obtain ⟨result, hres, hr⟩ := Option.bind_eq_some_iff.mp hr
    obtain ⟨h₁, hu, hr⟩ := Option.bind_eq_some_iff.mp hr
    have helem : ∀ i y, i < h₀.m_size → h₀.m_heap[i]? = some y → y ∉ M := fun i y hi hy => by
      apply hM i y
      unfold elementAt
      rwa [if_pos hi]
    obtain ⟨h₁', hu', ha₁⟩ := ha.unmark (helem 0 result hpos hres) h₁ hu
    have hsame : h₁.m_size = h₀.m_size ∧ h₁.m_heap = h₀.m_heap := by
      unfold BinaryMaxHeap.unmark at hu
      split at hu
      · obtain rfl := Option.some.inj hu
        exact ⟨rfl, rfl⟩
      · cases hu
    rw [hres, Option.bind_eq_bind, Option.bind_some, hu', Option.bind_eq_bind, Option.bind_some, ha₁.size]
    split at hr
    · rename_i hone
      rw [if_pos hone]
      obtain ⟨last, hlast, hr⟩ := Option.bind_eq_some_iff.mp hr
      obtain ⟨h₂, hp, hr⟩ := Option.bind_eq_some_iff.mp hr
      obtain ⟨h₃, hd, hr⟩ := Option.bind_eq_some_iff.mp hr
      obtain ⟨rfl, rfl⟩ := Prod.mk.inj (Option.some.inj hr)
      have hlastM : last ∉ M := by
        rw [hsame.1, hsame.2] at hlast
        exact helem _ last (by omega) hlast
      obtain ⟨h₂', hp', ha₂⟩ := ha₁.put 0 last h₂ hp
      have hsize : h₂'.m_size - 1 = h₂.m_size - 1 := by rw [ha₂.size]
      obtain ⟨h₃', hd', ha₃⟩ := (ha₂.resize hsize).decreasingUpdate m_lessThan hlastM h₃ hd
      simp only [ha₁.heap, hlast, Option.bind_some, hp', hd']
      exact ⟨h₃', rfl, ha₃⟩
    · rename_i hone
      obtain ⟨rfl, rfl⟩ := Prod.mk.inj (Option.some.inj hr)
      rw [if_neg hone]
      exact ⟨_, rfl, ha₁.resize rfl⟩
  · cases hr

end BinaryMaxHeap

namespace VSIDSBranchingHeuristic

open BinaryMaxHeap

variable {D : Type} {h h' : VSIDSBranchingHeuristic D} {N : Nat} {S T M : Set CNFVar}

/-- The heap contains the variables of `S`, and has left-over indices for those of `M`. -/
def Marked (h : VSIDSBranchingHeuristic D) (N : Nat) (S M : Set CNFVar) : Prop :=
  ∃ order, Agrees M h.m_variableOrder order ∧ Holds { h with m_variableOrder := order } N S ∧ ∀ v ∈ S, v ∉ M

theorem Holds.marked (hh : h.Holds N S) : h.Marked N S ∅ :=
  ⟨h.m_variableOrder, ⟨rfl, rfl, rfl, fun _ _ => rfl, fun _ hx => hx.elim⟩, hh, fun _ _ => Set.notMem_empty _⟩

theorem Marked.holds (hm : h.Marked N S ∅) : h.Holds N S := by
  obtain ⟨order, ha, hh, -⟩ := hm
  have hindices : h.m_variableOrder.m_indices = order.m_indices :=
    List.ext_getElem? fun i => ha.index (i : CNFVar) (Set.notMem_empty _)
  have horder : h.m_variableOrder = order := by
    obtain ⟨i, p, n⟩ := order
    obtain rfl : _ = i := hindices
    obtain rfl : _ = p := ha.heap
    obtain rfl : _ = n := ha.size
    rfl
  subst horder
  exact hh

/-- Clearing leaves the indices of all elements behind. -/
theorem Holds.clear (hh : h.Holds N S) : Marked { h with m_variableOrder := h.m_variableOrder.clear } N ∅ S := by
  have hi := hh.indexed
  refine ⟨⟨List.replicate h.m_variableOrder.m_indices.length (-1), h.m_variableOrder.m_heap, 0⟩,
    ⟨rfl, rfl, List.length_replicate.symm, fun x hx => ?_, fun x hx => hi.contains_iff.mpr hx⟩,
    ⟨⟨Nat.zero_le _, List.length_replicate.trans hi.length, ?_, fun hx => hx.elim, fun _ hlt => ?_⟩, hh.heap_length,
      hh.activity, hh.decisions, hh.bound⟩, fun _ hv => hv.elim⟩
  · by_cases hlt : Index.getIndex x < h.m_variableOrder.m_indices.length
    · rw [List.getElem?_replicate_of_lt hlt]
      exact hi.absent hx hlt
    · have hge := Nat.le_of_not_lt hlt
      refine (List.getElem?_eq_none hge).trans (List.getElem?_eq_none ?_).symm
      rwa [List.length_replicate]
  · intro i x hx
    rw [elementAt_of_size_le (Nat.zero_le i)] at hx
    cases hx
  · rw [List.length_replicate] at hlt
    exact List.getElem?_replicate_of_lt hlt

section
variable [OfScientific D] [LT D] [DecidableLT D]

theorem Marked.reset_of_mem (hm : h.Marked N S M) {v : CNFVar} (hv : v ∈ M) : h.reset v = some h := by
  obtain ⟨order, ha, -⟩ := hm
  unfold VSIDSBranchingHeuristic.reset BinaryMaxHeap.insert
  rw [if_pos (ha.marked v hv)]
  rfl

theorem Marked.reset (hm : h.Marked N S M) {v : CNFVar} (hv : v < N) (hvM : v ∉ M) :
    ∃ h', h.reset v = some h' ∧ h'.Marked N (Insert.insert v S) M ∧
      h'.m_decisionVariables = h.m_decisionVariables := by
  obtain ⟨order, ha, hh, hd⟩ := hm
  have hlt : Index.getIndex v < order.m_heap.length := hv.trans_eq hh.heap_length.symm
  have hfit : v ∉ S → order.m_size ≤ maxIndex := fun _ =>
    (hh.indexed.size_le.trans_eq hh.heap_length).trans hh.bound
  obtain ⟨order', he, hi, hlen, -⟩ := insert_spec h.lessThan hh.indexed hlt hfit
  obtain ⟨order'', he', ha'⟩ := ha.insert h.lessThan hvM order' he
  refine ⟨{ h with m_variableOrder := order'' }, ?_, ⟨order', ha', ?_, ?_⟩, rfl⟩
  · unfold VSIDSBranchingHeuristic.reset
    rw [he']
    rfl
  · exact ⟨hi, hlen.trans hh.heap_length, hh.activity, hh.decisions, hh.bound⟩
  · intro w hw
    cases hw with
    | inl hw => exact hw ▸ hvM
    | inr hw => exact hd w hw

theorem Marked.foldlM_reset (vars : List CNFVar) :
    ∀ {h : VSIDSBranchingHeuristic D} {S : Set CNFVar}, h.Marked N S M →
    (∀ v ∈ vars, v < N) → ∃ h', vars.foldlM VSIDSBranchingHeuristic.reset h = some h' ∧
      h'.Marked N (S ∪ {v | v ∈ vars ∧ v ∉ M}) M ∧ h'.m_decisionVariables = h.m_decisionVariables := by
  induction vars with
  | nil =>
    intro h S hm _
    refine ⟨h, rfl, ?_, rfl⟩
    have : S ∪ {v | v ∈ [] ∧ v ∉ M} = S := Set.union_eq_left.mpr fun v hv => absurd hv.1 List.not_mem_nil
    rwa [this]
  | cons v vars ih =>
    intro h S hm hlt
    obtain ⟨hv, hvars⟩ := List.forall_mem_cons.mp hlt
    by_cases hvM : v ∈ M
    · obtain ⟨h', he, hm', hd⟩ := ih hm hvars
      refine ⟨h', ?_, ?_, hd⟩
      · rw [List.foldlM_cons, hm.reset_of_mem hvM]
        exact he
      · have : {w | w ∈ v :: vars ∧ w ∉ M} = {w | w ∈ vars ∧ w ∉ M} := by
          ext w
          refine and_congr_left fun hw => ⟨fun hm => ?_, List.mem_cons_of_mem v⟩
          exact (List.mem_cons.mp hm).resolve_left fun he => hw (he ▸ hvM)
        rwa [this]
    · obtain ⟨h₁, he₁, hm₁, hd₁⟩ := hm.reset hv hvM
      obtain ⟨h', he, hm', hd⟩ := ih hm₁ hvars
      refine ⟨h', ?_, ?_, hd.trans hd₁⟩
      · rw [List.foldlM_cons, he₁]
        exact he
      · have : S ∪ {w | w ∈ v :: vars ∧ w ∉ M} = Insert.insert v S ∪ {w | w ∈ vars ∧ w ∉ M} := by
          ext w
          constructor
          · intro hw
            cases hw with
            | inl hw => exact .inl (.inr hw)
            | inr hw =>
              cases List.mem_cons.mp hw.1 with
              | inl he => exact .inl (.inl he)
              | inr hw' => exact .inr ⟨hw', hw.2⟩
          · intro hw
            rcases hw with (he | hw) | hw
            · exact .inr ⟨he ▸ List.mem_cons_self, he ▸ hvM⟩
            · exact .inl hw
            · exact .inr ⟨List.mem_cons_of_mem v hw.1, hw.2⟩
        rwa [this]

/-- After `reset` the heap contains what it has not contained before. -/
theorem Holds.resetAll (hh : h.Holds N S) : ∃ h', h.resetAll = some h' ∧ h'.Marked N {v | v < N ∧ v ∉ S} S ∧
    h'.m_decisionVariables = h.m_decisionVariables := by
  have hlt : ∀ v ∈ List.range h.m_activity.length, v < N := fun v hv => (List.mem_range.mp hv).trans_eq hh.activity
  obtain ⟨h', he, hm, hd⟩ := hh.clear.foldlM_reset (List.range h.m_activity.length) hlt
  refine ⟨h', he, ?_, hd⟩
  have : (∅ : Set CNFVar) ∪ {v | v ∈ List.range h.m_activity.length ∧ v ∉ S} = {v | v < N ∧ v ∉ S} := by
    rw [Set.empty_union]
    ext v
    show v ∈ List.range _ ∧ _ ↔ v < N ∧ _
    rw [List.mem_range, hh.activity]
  rwa [this] at hm

/-! ## Picking -/

def Candidate (h : VSIDSBranchingHeuristic D) (s : Assignment) (v : CNFVar) : Prop :=
  s.assignments v = .INDETERMINATE ∧ h.isEligibleForDecisions v = true

omit [OfScientific D] [LT D] [DecidableLT D] in
theorem candidate_congr (hd : h'.m_decisionVariables = h.m_decisionVariables) {s : Assignment} {v : CNFVar} :
    h'.Candidate s v ↔ h.Candidate s v := by
  unfold Candidate isEligibleForDecisions
  rw [hd]

theorem Marked.removeMax (hm : h.Marked N S M) (hpos : 0 < h.m_variableOrder.m_size) :
    ∃ order x, h.m_variableOrder.removeMax h.lessThan = some (order, x) ∧ x ∈ S ∧
      Marked { h with m_variableOrder := order } N (S \ {x}) M ∧ order.m_size < h.m_variableOrder.m_size := by
  obtain ⟨order, ha, hh, hd⟩ := hm
  have hi : order.Indexed S := hh.indexed
  obtain ⟨order', x, he, hx, hi', hlen, hsize, -⟩ := removeMax_spec h.lessThan hi (hpos.trans_eq ha.size)
  obtain ⟨order'', he', ha'⟩ := ha.removeMax h.lessThan (fun i y hy => hd y (hi.at_index hy).1) he
  refine ⟨order'', x, he', hx, ⟨order', ha', ?_, fun v hv => hd v hv.1⟩, ?_⟩
  · exact ⟨hi', hlen.trans hh.heap_length, hh.activity, hh.decisions, hh.bound⟩
  · rw [ha'.size, ha.size]
    exact hsize

structure Picked (s : Assignment) (h : VSIDSBranchingHeuristic D) (N : Nat) (S M : Set CNFVar) (l : CNFLit)
    (h' : VSIDSBranchingHeuristic D) (S' : Set CNFVar) : Prop where
  marked : h'.Marked N S' M
  subset : S' ⊆ S
  decisions : h'.m_decisionVariables = h.m_decisionVariables
  cases : l = CNFLit.undefinedLiteral ∧ (∀ v ∈ S, ¬ h.Candidate s v) ∨
    (l.var ∈ S ∧ h.Candidate s l.var) ∧ l.var ∉ S' ∧ (∀ v ∈ S, h.Candidate s v → v ∈ S' ∨ v = l.var) ∧
      h'.m_variableOrder.m_size < h.m_variableOrder.m_size

theorem Marked.pickLoop (s : Assignment) : ∀ {steps : Nat} {h : VSIDSBranchingHeuristic D} {S : Set CNFVar},
    h.Marked N S M → h.m_variableOrder.m_size < steps →
    ∃ l h' S', pickLoop s steps h = some (l, h') ∧ Picked s h N S M l h' S' := by
  intro steps
  induction steps with
  | zero => exact fun _ hlt => absurd hlt (Nat.not_lt_zero _)
  | succ steps ih =>
    intro h S hm hlt
    unfold VSIDSBranchingHeuristic.pickLoop
    by_cases hpos : 0 < h.m_variableOrder.m_size
    · obtain ⟨order, x, he, hx, hm', hsize⟩ := hm.removeMax hpos
      have hne : h.m_variableOrder.empty = false := decide_eq_false hpos.ne'
      rw [hne, he]
      dsimp only [Option.bind_eq_bind, Option.bind_some]
      by_cases hp : h.Candidate s x
      · have hcond := (picks_iff { h with m_variableOrder := order } s x).mpr hp
        rw [hcond]
        refine ⟨_, _, _, rfl, hm', Set.sdiff_subset, rfl,
          .inr ⟨⟨hx, hp⟩, fun hs => hs.2 rfl, fun w hw _ => ?_, hsize⟩⟩
        by_cases hwx : w = x
        · exact .inr hwx
        · exact .inl ⟨hw, hwx⟩
      · have hcond := Bool.eq_false_of_not_eq_true
          (mt (picks_iff { h with m_variableOrder := order } s x).mp hp)
        rw [hcond]
        obtain ⟨l, h', S', hrun, hpick⟩ := ih hm' (Nat.lt_of_lt_of_le hsize (Nat.lt_succ_iff.mp hlt))
        have hother : ∀ v ∈ S, h.Candidate s v → v ∈ S \ {x} := fun v hv hc => ⟨hv, fun he => hp (he ▸ hc)⟩
        refine ⟨l, h', S', hrun, hpick.marked, hpick.subset.trans Set.sdiff_subset, hpick.decisions, ?_⟩
        cases hpick.cases with
        | inl hnone => exact .inl ⟨hnone.1, fun v hv hc => hnone.2 v (hother v hv hc) hc⟩
        | inr hone =>
          obtain ⟨hl, hl', hrest, hlt'⟩ := hone
          exact .inr ⟨⟨hl.1.1, hl.2⟩, hl', fun v hv hvc => hrest v (hother v hv hvc) hvc, hlt'.trans hsize⟩
    · have hempty : h.m_variableOrder.empty = true := decide_eq_true (Nat.eq_zero_of_not_pos hpos)
      rw [hempty]
      refine ⟨_, _, S, rfl, hm, subset_rfl, rfl, .inl ⟨rfl, fun v hv => ?_⟩⟩
      obtain ⟨order, ha, hh, -⟩ := hm
      obtain ⟨i, hi⟩ := hh.indexed.contained hv
      have := lt_of_elementAt hi
      exact absurd (Nat.zero_lt_of_lt (this.trans_eq ha.size.symm)) hpos

theorem Marked.pickBranchLiteral (hm : h.Marked N S M) (s : Assignment) :
    ∃ l h' S', h.pickBranchLiteral s = some (l, h') ∧ Picked s h N S M l h' S' :=
  hm.pickLoop s (Nat.lt_succ_self _)

/-- Repeated calls of `pickBranchLiteral` return these literals, and then the undefined one. -/
inductive Picks (s : Assignment) : VSIDSBranchingHeuristic D → List CNFLit → Prop
  | stop {h h' : VSIDSBranchingHeuristic D} : h.pickBranchLiteral s = some (CNFLit.undefinedLiteral, h') → Picks s h []
  | pick {h h' : VSIDSBranchingHeuristic D} {l : CNFLit} {ls : List CNFLit} : h.pickBranchLiteral s = some (l, h') →
    l ≠ CNFLit.undefinedLiteral → Picks s h' ls → Picks s h (l :: ls)

theorem Picks.unique {s : Assignment} {ls ls' : List CNFLit} (hp : Picks s h ls) (hp' : Picks s h ls') :
    ls = ls' := by
  induction hp generalizing ls' with
  | stop he =>
    cases hp' with
    | stop => rfl
    | pick he' hne =>
      obtain ⟨rfl, -⟩ := Prod.mk.inj (Option.some.inj (he.symm.trans he'))
      exact absurd rfl hne
  | pick he hne _ ih =>
    cases hp' with
    | stop he' =>
      obtain ⟨rfl, -⟩ := Prod.mk.inj (Option.some.inj (he.symm.trans he'))
      exact absurd rfl hne
    | pick he' _ hrest =>
      obtain ⟨rfl, rfl⟩ := Prod.mk.inj (Option.some.inj (he.symm.trans he'))
      rw [ih hrest]

omit [OfScientific D] [LT D] [DecidableLT D] in
theorem Marked.lt (hm : h.Marked N S M) {v : CNFVar} (hv : v ∈ S) : v < N := by
  obtain ⟨order, -, hh, -⟩ := hm
  exact hh.lt hv

theorem Marked.picks {s : Assignment} (hN : N ≤ CNFVar.undefinedVariable) (hm : h.Marked N S M) :
    ∃ ls, Picks s h ls ∧ (ls.map CNFLit.var).Nodup ∧ ∀ v, v ∈ ls.map CNFLit.var ↔ v ∈ S ∧ h.Candidate s v := by
  induction hn : h.m_variableOrder.m_size using Nat.strongRecOn generalizing h S with
  | ind n ih =>
    obtain ⟨l, h', S', he, hp⟩ := hm.pickBranchLiteral s
    cases hp.cases with
    | inl hnone =>
      obtain ⟨rfl, hnone⟩ := hnone
      refine ⟨[], .stop he, List.nodup_nil, fun v => ⟨fun hv => absurd hv List.not_mem_nil, fun hv => ?_⟩⟩
      exact absurd hv.2 (hnone v hv.1)
    | inr hone =>
      obtain ⟨⟨hl, hc⟩, hl', hrest, hlt⟩ := hone
      obtain ⟨ls, hpicks, hnodup, hls⟩ := ih _ (hn ▸ hlt) hp.marked rfl
      have hcongr : ∀ v, h'.Candidate s v ↔ h.Candidate s v := fun v => candidate_congr hp.decisions
      have hne : l ≠ CNFLit.undefinedLiteral := by
        intro heq
        have hvar := hm.lt hl
        rw [heq] at hvar
        exact absurd (hvar.trans_le hN) (Nat.lt_irrefl _)
      refine ⟨l :: ls, .pick he hne hpicks, ?_, fun v => ?_⟩
      · exact List.nodup_cons.mpr ⟨fun hmem => hl' ((hls _).mp hmem).1, hnodup⟩
      · rw [List.map_cons, List.mem_cons, hls, hcongr]
        constructor
        · intro hv
          cases hv with
          | inl hv => exact hv ▸ ⟨hl, hc⟩
          | inr hv => exact ⟨hp.subset hv.1, hv.2⟩
        · intro hv
          exact (hrest v hv.1 hv.2).symm.imp_right fun hv' => ⟨hv', hv.2⟩

end

/-! ## Runs -/

inductive Call
  | pickBranchLiteral (s : Assignment)
  | seenInConflict (var : CNFVar)
  | reset (var : CNFVar)
  | setEligibleForDecisions (var : CNFVar) (isEligible : Bool)
  | increaseMaxVarTo (newMaxVar : CNFVar)

section
variable [OfScientific D] [LT D] [DecidableLT D] [Add D] [Mul D] [LE D] [DecidableLE D]

def Call.run (h : VSIDSBranchingHeuristic D) : Call → Option (VSIDSBranchingHeuristic D)
  | pickBranchLiteral s => (h.pickBranchLiteral s).map Prod.snd
  | seenInConflict v => h.seenInConflict v
  | reset v => h.reset v
  | setEligibleForDecisions v isEligible => some (h.setEligibleForDecisions v isEligible)
  | increaseMaxVarTo newMaxVar => h.increaseMaxVarTo newMaxVar

/-- The variables are known, and the maximum variable is regular and does not get smaller. -/
def Call.Legal (h : VSIDSBranchingHeuristic D) : Call → Prop
  | pickBranchLiteral _ => True
  | seenInConflict v => v < h.m_activity.length
  | reset v => v < h.m_activity.length
  | setEligibleForDecisions v _ => v < h.m_activity.length
  | increaseMaxVarTo newMaxVar => h.m_activity.length ≤ newMaxVar + 1 ∧ newMaxVar < CNFVar.undefinedVariable

def Reachable : VSIDSBranchingHeuristic D → Prop :=
  Runs.Reachable (fun h => ∃ maxVar < CNFVar.undefinedVariable, new maxVar = some h)
    fun h h' => ∃ c : Call, c.Legal h ∧ c.run h = some h'

theorem Reachable.holds (hr : Reachable h) :
    h.m_activity.length ≤ CNFVar.undefinedVariable ∧ ∃ S, h.Holds h.m_activity.length S := by
  refine Runs.Reachable.invariant
    (I := fun h => h.m_activity.length ≤ CNFVar.undefinedVariable ∧ ∃ S, h.Holds h.m_activity.length S) hr ?_ ?_
  · intro h hinit
    obtain ⟨maxVar, hlt, he⟩ := hinit
    have hle : maxVar + 1 ≤ maxIndex := (Nat.succ_le_of_lt hlt).trans (by decide)
    obtain ⟨h', S, he', hh, -⟩ := new_spec (D := D) hle
    obtain rfl := Option.some.inj (he.symm.trans he')
    rw [hh.activity]
    exact ⟨hlt, S, hh⟩
  · intro h h' hinv hstep
    obtain ⟨hN, S, hh⟩ := hinv
    obtain ⟨c, hc, hrun⟩ := hstep
    have keep : ∀ {S'}, h'.Holds h.m_activity.length S' →
        h'.m_activity.length ≤ CNFVar.undefinedVariable ∧ ∃ S, h'.Holds h'.m_activity.length S := by
      intro S' hh'
      rw [hh'.activity]
      exact ⟨hN, S', hh'⟩
    cases c with
    | pickBranchLiteral s =>
      obtain ⟨l, h₁, S', he, hp⟩ := hh.marked.pickBranchLiteral s
      have hrun : (h.pickBranchLiteral s).map Prod.snd = some h' := hrun
      rw [he] at hrun
      obtain rfl := Option.some.inj hrun
      exact keep hp.marked.holds
    | seenInConflict v =>
      obtain ⟨h₁, he, hh', -⟩ := hh.seenInConflict [v]
      rw [List.foldlM_cons, show h.seenInConflict v = some h' from hrun] at he
      obtain rfl := Option.some.inj he
      exact keep hh'
    | reset v =>
      obtain ⟨h₁, S', he, hi, -⟩ := hh.reset hc
      obtain rfl := Option.some.inj (he.symm.trans hrun)
      exact keep hi.holds
    | setEligibleForDecisions v isEligible =>
      obtain rfl := Option.some.inj hrun
      exact keep (hh.setEligible v isEligible)
    | increaseMaxVarTo newMaxVar =>
      have hle : newMaxVar + 1 ≤ maxIndex := (Nat.succ_le_of_lt hc.2).trans (by decide)
      obtain ⟨h₁, S', he, hh', -⟩ := hh.increaseMaxVarTo hc.1 hle
      obtain rfl := Option.some.inj (he.symm.trans hrun)
      rw [hh'.activity]
      exact ⟨hc.2, S', hh'⟩

omit [OfScientific D] [LT D] [DecidableLT D] [Add D] [Mul D] [LE D] [DecidableLE D] in
theorem Holds.lt_of_candidate {N : Nat} {S : Set Nat} {s : Assignment} {v : CNFVar} (hh : h.Holds N S)
    (hv : h.Candidate s v) : v < N := by
  by_contra hge
  have hnone : h.isEligibleForDecisions v = false := by
    unfold isEligibleForDecisions
    rw [List.getD_eq_getElem?_getD, List.getElem?_eq_none (hh.decisions.trans_le (Nat.le_of_not_lt hge))]
    rfl
  exact Bool.false_ne_true (hnone.symm.trans hv.2)

/-- After `reset` exactly the candidates are picked, once each, if and only if
the heap has contained none of them. -/
theorem reset_picks_iff (hr : Reachable h) (s : Assignment) : ∃ h', h.resetAll = some h' ∧
    ((∃ ls, Picks s h' ls ∧ (ls.map CNFLit.var).Nodup ∧ ∀ v, v ∈ ls.map CNFLit.var ↔ h.Candidate s v) ↔
      ∀ v, h.Candidate s v → h.m_variableOrder.contains v = false) := by
  obtain ⟨hN, S, hh⟩ := hr.holds
  obtain ⟨h', he, hm, hd⟩ := hh.resetAll
  obtain ⟨ls, hpicks, hnodup, hls⟩ := hm.picks (s := s) hN
  have hcongr : ∀ v, h'.Candidate s v ↔ h.Candidate s v := fun v => candidate_congr hd
  have hcontains : ∀ v, h.m_variableOrder.contains v = false ↔ v ∉ S := fun v => by
    rw [← Bool.not_eq_true, hh.indexed.contains_iff]
  refine ⟨h', he, fun hall v hv => ?_, fun hnone => ⟨ls, hpicks, hnodup, fun v => ?_⟩⟩
  · obtain ⟨ls', hpicks', -, hls'⟩ := hall
    obtain rfl := hpicks.unique hpicks'
    exact (hcontains v).mpr ((hls v).mp ((hls' v).mpr hv)).1.2
  · rw [hls, hcongr]
    exact ⟨fun hv => hv.2, fun hv => ⟨⟨hh.lt_of_candidate hv, (hcontains v).mp (hnone v hv)⟩, hv⟩⟩

end

def threeUnassigned : Assignment := .new (fun _ => .ofLits []) 2

def drained : Option (VSIDSBranchingHeuristic Rat) :=
  (new 2).bind fun h => (List.replicate 3 (Call.pickBranchLiteral threeUnassigned)).foldlM Call.run
    ((h.setEligibleForDecisions 0 true).setEligibleForDecisions 2 true)

theorem length_of_new {maxVar : CNFVar} {h : VSIDSBranchingHeuristic Rat} (hlt : maxVar < maxIndex)
    (he : new maxVar = some h) : h.m_activity.length = maxVar + 1 := by
  obtain ⟨h', S, he', hh, -⟩ := new_spec (D := Rat) (Nat.succ_le_of_lt hlt)
  obtain rfl := Option.some.inj (he.symm.trans he')
  exact hh.activity

theorem drained_reachable {h : VSIDSBranchingHeuristic Rat} (he : drained = some h) : Reachable h := by
  obtain ⟨h₀, he₀, he⟩ := Option.bind_eq_some_iff.mp he
  have hlen : h₀.m_activity.length = 3 := length_of_new (by decide) he₀
  have hnew : Reachable h₀ := .init ⟨2, by decide, he₀⟩
  have hfirst : Reachable (h₀.setEligibleForDecisions 0 true) :=
    .step hnew ⟨.setEligibleForDecisions 0 true, (Nat.zero_lt_succ 2).trans_eq hlen.symm, rfl⟩
  have hsecond : Reachable ((h₀.setEligibleForDecisions 0 true).setEligibleForDecisions 2 true) :=
    .step hfirst ⟨.setEligibleForDecisions 2 true, (Nat.lt_succ_self 2).trans_eq hlen.symm, rfl⟩
  refine Runs.Reachable.foldlM hsecond (fun c hc _ _ hs => ⟨c, ?_, hs⟩) he
  obtain rfl := List.eq_of_mem_replicate hc
  trivial

theorem drained_picks_iff : ∃ h, drained = some h ∧ h.Candidate threeUnassigned 0 ∧ h.Candidate threeUnassigned 2 ∧
    (∀ v, h.Candidate threeUnassigned v → h.m_variableOrder.contains v = false) ∧
    ∃ h', h.resetAll = some h' ∧
      ((∃ ls, Picks threeUnassigned h' ls ∧ (ls.map CNFLit.var).Nodup ∧
        ∀ v, v ∈ ls.map CNFLit.var ↔ h.Candidate threeUnassigned v) ↔
        ∀ v, h.Candidate threeUnassigned v → h.m_variableOrder.contains v = false) := by
  have hrun : drained.map (fun h => decide (h.isEligibleForDecisions 0 = true ∧ h.isEligibleForDecisions 2 = true ∧
      h.m_activity.length = 3 ∧ ∀ v ∈ List.range 3, h.m_variableOrder.contains v = false)) = some true := by
    decide +kernel
  obtain ⟨h, he, hfacts⟩ := Option.map_eq_some_iff.mp hrun
  obtain ⟨hzero, htwo, hlen, hempty⟩ := of_decide_eq_true hfacts
  have hr := drained_reachable he
  obtain ⟨-, S, hh⟩ := hr.holds
  rw [hlen] at hh
  exact ⟨h, he, ⟨rfl, hzero⟩, ⟨rfl, htwo⟩, fun v hv => hempty v (List.mem_range.mpr (hh.lt_of_candidate hv)),
    reset_picks_iff hr threeUnassigned⟩

def single : Option (VSIDSBranchingHeuristic Rat) := (new 0).map fun h => h.setEligibleForDecisions 0 true

theorem single_reachable {h : VSIDSBranchingHeuristic Rat} (he : single = some h) : Reachable h := by
  obtain ⟨h₀, he₀, rfl⟩ := Option.map_eq_some_iff.mp he
  have hlen : h₀.m_activity.length = 1 := length_of_new (by decide) he₀
  exact .step (.init ⟨0, by decide, he₀⟩) ⟨.setEligibleForDecisions 0 true, Nat.zero_lt_one.trans_eq hlen.symm, rfl⟩

def unassigned : Assignment := .new (fun _ => .ofLits []) 0

/-- It is not picked after `reset`, as the heap has contained it. -/
theorem single_reset : ∃ h : VSIDSBranchingHeuristic Rat, Reachable h ∧ h.Candidate unassigned 0 ∧
    ∃ h', h.resetAll = some h' ∧ Picks unassigned h' [] := by
  have hrun : (single.bind fun h => h.resetAll.bind fun h' => (h'.pickBranchLiteral unassigned).map Prod.fst) =
      some CNFLit.undefinedLiteral := by decide +kernel
  obtain ⟨h, he, hrun⟩ := Option.bind_eq_some_iff.mp hrun
  obtain ⟨h', hr, hrun⟩ := Option.bind_eq_some_iff.mp hrun
  obtain ⟨⟨l, h''⟩, hp, rfl⟩ := Option.map_eq_some_iff.mp hrun
  refine ⟨h, single_reachable he, ⟨rfl, ?_⟩, h', hr, .stop hp⟩
  have heligible : single.map (fun h => h.isEligibleForDecisions 0) = some true := by decide +kernel
  rw [he] at heligible
  exact Option.some.inj heligible

end VSIDSBranchingHeuristic

end JamSAT
