import JamSAT.BinaryHeap
import JamSAT.HeapOrder
import JamSAT.VecEdit
import Mathlib.Data.Fintype.EquivFin
import Mathlib.Data.Set.Insert

/-!
# The arrays of a heap

`m_indices` and `m_heap` are inverse to each other in every heap that the operations
reach, and the elements are in heap order. While an element moves, the arrays are those
of a heap in which it has been written at the cursor.
-/

namespace JamSAT.BinaryMaxHeap

open Index HeapOrder

variable {K : Type} [Index K] {h h' : BinaryMaxHeap K} {S : Set K}

def elementAt (h : BinaryMaxHeap K) (i : Nat) : Option K := if i < h.m_size then h.m_heap[i]? else none

structure Indexed (h : BinaryMaxHeap K) (S : Set K) : Prop where
  size_le : h.m_size ≤ h.m_heap.length
  length : h.m_indices.length = h.m_heap.length
  at_index : ∀ {i x}, h.elementAt i = some x → x ∈ S ∧ h.m_indices[getIndex x]? = some (i : Int)
  contained : ∀ {x}, x ∈ S → ∃ i, h.elementAt i = some x
  absent : ∀ {x}, x ∉ S → getIndex x < h.m_indices.length → h.m_indices[getIndex x]? = some (-1)

omit [Index K] in
theorem lt_of_elementAt {i : Nat} {x : K} (hx : h.elementAt i = some x) : i < h.m_size := by
  unfold elementAt at hx
  split at hx
  · assumption
  · cases hx

omit [Index K] in
theorem heap_of_elementAt {i : Nat} {x : K} (hx : h.elementAt i = some x) : h.m_heap[i]? = some x := by
  have hlt := lt_of_elementAt hx
  unfold elementAt at hx
  rwa [if_pos hlt] at hx

namespace Indexed

theorem isSome (hi : h.Indexed S) {i : Nat} : (h.elementAt i).isSome ↔ i < h.m_size := by
  constructor
  · intro hs
    obtain ⟨x, hx⟩ := Option.isSome_iff_exists.mp hs
    exact lt_of_elementAt hx
  · intro hlt
    have hlen := hi.size_le
    unfold elementAt
    rw [if_pos hlt, List.getElem?_eq_getElem (by omega)]
    rfl

theorem exists_elementAt (hi : h.Indexed S) {i : Nat} (hlt : i < h.m_size) : ∃ x, h.elementAt i = some x :=
  Option.isSome_iff_exists.mp (hi.isSome.mpr hlt)

theorem index_lt (hi : h.Indexed S) {x : K} (hx : x ∈ S) : getIndex x < h.m_indices.length := by
  obtain ⟨i, hix⟩ := hi.contained hx
  exact (List.getElem?_eq_some_iff.mp (hi.at_index hix).2).1

theorem pos_unique (hi : h.Indexed S) {i j : Nat} {x : K} (hx : h.elementAt i = some x)
    (hx' : h.elementAt j = some x) : i = j := by
  have heq := (hi.at_index hx).2.symm.trans (hi.at_index hx').2
  exact Int.ofNat_inj.mp (Option.some.inj heq)

theorem position_eq (hi : h.Indexed S) {i : Nat} {x : K} (hx : h.elementAt i = some x) : h.position x = some i := by
  unfold position
  rw [(hi.at_index hx).2, Option.bind_eq_bind, Option.bind_some, if_pos (Int.natCast_nonneg i), Int.toNat_natCast]

theorem position_none (hi : h.Indexed S) {x : K} (hx : x ∉ S) : h.position x = none := by
  unfold position
  by_cases hlt : getIndex x < h.m_indices.length
  · rw [hi.absent hx hlt]
    rfl
  · rw [List.getElem?_eq_none (Nat.le_of_not_lt hlt)]
    rfl

theorem contains_iff (hi : h.Indexed S) {x : K} : h.contains x = true ↔ x ∈ S := by
  unfold contains
  constructor
  · intro hc
    by_contra hx
    rw [hi.position_none hx] at hc
    cases hc
  · intro hx
    obtain ⟨i, hix⟩ := hi.contained hx
    rw [hi.position_eq hix]
    rfl

end Indexed

/-! ## Writing an element -/

def placed (h : BinaryMaxHeap K) (idx : Nat) (element : K) : BinaryMaxHeap K :=
  { h with m_heap := h.m_heap.set idx element, m_indices := h.m_indices.set (getIndex element) idx }

section
variable {c p : Nat} {e x : K}

@[simp] theorem placed_size : (h.placed c e).m_size = h.m_size := rfl

@[simp] theorem placed_heap_length : (h.placed c e).m_heap.length = h.m_heap.length := List.length_set

@[simp] theorem placed_indices_length : (h.placed c e).m_indices.length = h.m_indices.length := List.length_set

theorem elementAt_placed_self (hc : c < h.m_size) (hle : h.m_size ≤ h.m_heap.length) :
    (h.placed c e).elementAt c = some e := by
  unfold elementAt placed
  rw [if_pos hc, List.getElem?_set_self (by omega)]

theorem elementAt_placed_of_ne {i : Nat} (hi : i ≠ c) : (h.placed c e).elementAt i = h.elementAt i := by
  unfold elementAt placed
  rw [List.getElem?_set_ne (Ne.symm hi)]

theorem index_placed_self (he : getIndex e < h.m_indices.length) :
    (h.placed c e).m_indices[getIndex e]? = some (c : Int) := List.getElem?_set_self he

theorem index_placed_of_ne (hx : x ≠ e) : (h.placed c e).m_indices[getIndex x]? = h.m_indices[getIndex x]? :=
  List.getElem?_set_ne fun he => hx (unique he.symm)

/-- With `e` at the cursor `c` the arrays are those of a heap with the elements `S`. -/
structure Hole (h : BinaryMaxHeap K) (S : Set K) (c : Nat) (e : K) : Prop where
  cursor : c < h.m_size
  index : getIndex e < h.m_indices.length
  indexed : (h.placed c e).Indexed S

namespace Hole

theorem put_eq (ho : Hole h S c e) : h.put c e = some (h.placed c e) := by
  have hle := ho.indexed.size_le
  have hc := ho.cursor
  rw [placed_size, placed_heap_length] at hle
  exact if_pos ⟨by omega, ho.index⟩

theorem elementAt_cursor (ho : Hole h S c e) : (h.placed c e).elementAt c = some e := by
  have hle := ho.indexed.size_le
  rw [placed_size, placed_heap_length] at hle
  exact elementAt_placed_self ho.cursor hle

theorem placed_eq (hi : h.Indexed S) (hc : h.elementAt c = some e) : h.placed c e = h := by
  have hheap := heap_of_elementAt hc
  have hindex := (hi.at_index hc).2
  unfold placed
  rw [VecEdit.set_of_getElem? hheap, VecEdit.set_of_getElem? hindex]

theorem of_position (hi : h.Indexed S) (hc : h.elementAt c = some e) : Hole h S c e :=
  ⟨lt_of_elementAt hc, hi.index_lt (hi.at_index hc).1, by rwa [placed_eq hi hc]⟩

end Hole

/-- The element `y` at `p` moves to the hole, and the hole to `p`. -/
theorem Hole.move (ho : Hole h S c e) {y : K} (hy : h.elementAt p = some y) (hpc : p ≠ c) :
    h.put c y = some (h.placed c y) ∧ Hole (h.placed c y) S p e ∧
      ((h.placed c y).placed p e).elementAt = swapped (h.placed c e).elementAt c p := by
  have hi := ho.indexed
  have hle := hi.size_le
  rw [placed_size, placed_heap_length] at hle
  have hp : p < h.m_size := lt_of_elementAt hy
  have hgy : (h.placed c e).elementAt p = some y := by rw [elementAt_placed_of_ne hpc, hy]
  have hge := ho.elementAt_cursor
  have hye : y ≠ e := by
    rintro rfl
    exact hpc (hi.pos_unique hgy hge)
  have hylt : getIndex y < h.m_indices.length := by
    have hlt := hi.index_lt (hi.at_index hgy).1
    rwa [placed_indices_length] at hlt
  have hswap : ((h.placed c y).placed p e).elementAt = swapped (h.placed c e).elementAt c p := by
    funext i
    by_cases hip : i = p
    · subst hip
      rw [swapped_right, hge]
      exact elementAt_placed_self hp (by rwa [placed_heap_length])
    rw [elementAt_placed_of_ne hip]
    by_cases hic : i = c
    · subst hic
      rw [swapped_left, hgy, elementAt_placed_self ho.cursor hle]
    · rw [swapped_of_ne hic hip, elementAt_placed_of_ne hic, elementAt_placed_of_ne hic]
  have hput : h.put c y = some (h.placed c y) := if_pos ⟨ho.cursor.trans_le hle, hylt⟩
  refine ⟨hput, ⟨hp, by rw [placed_indices_length]; exact ho.index, ?_, ?_, ?_, ?_, ?_⟩, hswap⟩
  · rw [placed_size, placed_heap_length, placed_size, placed_heap_length]
    exact hle
  · have hlen := hi.length
    rw [placed_indices_length, placed_heap_length] at hlen
    rw [placed_indices_length, placed_heap_length, placed_indices_length, placed_heap_length]
    exact hlen
  · intro i x hx
    rw [hswap] at hx
    by_cases hip : i = p
    · subst hip
      rw [swapped_right, hge] at hx
      obtain rfl := Option.some.inj hx
      exact ⟨(hi.at_index hge).1, index_placed_self (by rw [placed_indices_length]; exact ho.index)⟩
    by_cases hic : i = c
    · subst hic
      rw [swapped_left, hgy] at hx
      obtain rfl := Option.some.inj hx
      refine ⟨(hi.at_index hgy).1, ?_⟩
      rw [index_placed_of_ne hye, index_placed_self hylt]
    · rw [swapped_of_ne hic hip] at hx
      have hxe : x ≠ e := by
        rintro rfl
        exact hic (hi.pos_unique hx hge)
      have hxy : x ≠ y := by
        rintro rfl
        exact hip (hi.pos_unique hx hgy)
      have hold := hi.at_index hx
      rw [index_placed_of_ne hxe] at hold
      rw [index_placed_of_ne hxe, index_placed_of_ne hxy]
      exact hold
  · intro x hx
    obtain ⟨i, hix⟩ := hi.contained hx
    refine ⟨Equiv.swap c p i, ?_⟩
    rw [hswap, swapped, Equiv.swap_apply_self]
    exact hix
  · intro x hx hlt
    have hxe : x ≠ e := fun he => hx (he ▸ (hi.at_index hge).1)
    have hxy : x ≠ y := fun he => hx (he ▸ (hi.at_index hgy).1)
    rw [placed_indices_length, placed_indices_length] at hlt
    have hold := hi.absent hx (by rwa [placed_indices_length])
    rw [index_placed_of_ne hxe] at hold
    rw [index_placed_of_ne hxe, index_placed_of_ne hxy]
    exact hold

end

/-! ## Moving elements -/

structure Kept (h h' : BinaryMaxHeap K) (S : Set K) : Prop where
  indexed : h'.Indexed S
  size : h'.m_size = h.m_size
  length : h'.m_heap.length = h.m_heap.length

abbrev Less (m_lessThan : K → K → Bool) (x y : K) : Prop := m_lessThan x y = true

variable (m_lessThan : K → K → Bool)

theorem parent_eq_getParentIdx : parent = getParentIdx := rfl

theorem Hole.placed_kept {c : Nat} {e : K} (ho : Hole h S c e) : Kept h (h.placed c e) S :=
  ⟨ho.indexed, rfl, placed_heap_length⟩

theorem moveUp_spec {e : K} : ∀ {steps c : Nat} {h : BinaryMaxHeap K}, Hole h S c e → c < steps →
    ∃ h', moveUp m_lessThan e steps h c = some h' ∧ Kept h h' S ∧
      (IsStrictWeakOrder K (Less m_lessThan) → UpReady (Less m_lessThan) (h.placed c e).elementAt c →
        Ordered (Less m_lessThan) h'.elementAt) := by
  intro steps
  induction steps with
  | zero => exact fun _ hlt => absurd hlt (Nat.not_lt_zero _)
  | succ steps ih =>
    intro c h ho hsteps
    rw [moveUp]
    by_cases hc : c = 0
    · rw [if_pos hc]
      exact ⟨_, ho.put_eq, ho.placed_kept, fun _ hr => hr.ordered fun hpos => absurd hc (Nat.ne_of_gt hpos)⟩
    rw [if_neg hc]
    have hpos : 0 < c := Nat.pos_of_ne_zero hc
    have hlt : getParentIdx c < c := parent_lt hpos
    obtain ⟨y, hgy⟩ := ho.indexed.exists_elementAt (i := getParentIdx c) (hlt.trans ho.cursor)
    have hy : h.elementAt (getParentIdx c) = some y := by rwa [elementAt_placed_of_ne (Nat.ne_of_lt hlt)] at hgy
    rw [heap_of_elementAt hy, Option.bind_eq_bind, Option.bind_some]
    by_cases hless : m_lessThan e y = true
    · rw [if_pos hless]
      refine ⟨_, ho.put_eq, ho.placed_kept, ?_⟩
      intro _ hr
      apply hr.ordered
      intro _
      exact .of_some ho.elementAt_cursor hgy (fun hye => asymm_of (Less m_lessThan) hless hye)
    · rw [if_neg hless]
      obtain ⟨hput, ho', hswap⟩ := ho.move hy (Nat.ne_of_lt hlt)
      obtain ⟨h', hrun, hkept, hord⟩ := ih ho' (by omega)
      refine ⟨h', ?_, ⟨hkept.indexed, hkept.size, hkept.length.trans placed_heap_length⟩, ?_⟩
      · rw [hput, Option.bind_eq_bind, Option.bind_some, hrun]
      · intro hswo hr
        apply hord hswo
        rw [hswap]
        apply hr.swap hpos
        · rw [parent_eq_getParentIdx, hgy]
          rfl
        · exact .of_some hgy ho.elementAt_cursor hless

omit [Index K] in
theorem elementAt_of_size_le {i : Nat} (hi : h.m_size ≤ i) : h.elementAt i = none := if_neg (Nat.not_lt.mpr hi)

theorem maxChildIdx_spec {c : Nat} {e : K} (ho : Hole h S c e) (hc : getLeftChildIdx c < h.m_size) :
    ∃ m y, h.maxChildIdx m_lessThan c = some m ∧ h.elementAt m = some y ∧ c < m ∧ parent m = c ∧
      (IsStrictWeakOrder K (Less m_lessThan) → ∀ i, 0 < i → parent i = c →
        NotGreater (Less m_lessThan) (h.placed c e).elementAt i m) := by
  have hleft : c < getLeftChildIdx c := by unfold getLeftChildIdx; omega
  have hright : c < getRightChildIdx c := by unfold getRightChildIdx; omega
  have hpl : parent (getLeftChildIdx c) = c := by unfold parent getLeftChildIdx; omega
  have hpr : parent (getRightChildIdx c) = c := by unfold parent getRightChildIdx; omega
  obtain ⟨l, hgl⟩ := ho.indexed.exists_elementAt (i := getLeftChildIdx c) hc
  have hl : h.elementAt (getLeftChildIdx c) = some l := by rwa [elementAt_placed_of_ne (Nat.ne_of_gt hleft)] at hgl
  unfold maxChildIdx
  dsimp only
  by_cases hr : getRightChildIdx c < h.m_size
  · obtain ⟨r, hgr⟩ := ho.indexed.exists_elementAt (i := getRightChildIdx c) hr
    have hre : h.elementAt (getRightChildIdx c) = some r := by
      rwa [elementAt_placed_of_ne (Nat.ne_of_gt hright)] at hgr
    rw [if_pos hr, heap_of_elementAt hl, heap_of_elementAt hre]
    by_cases hless : m_lessThan l r = true
    · refine ⟨_, r, congrArg some (if_pos hless), hre, hright, hpr, ?_⟩
      intro _ i hi hpar
      cases (parent_eq hi).mp hpar with
      | inl hil =>
        rw [hil]
        exact .of_some hgl hgr (fun hlt => asymm_of (Less m_lessThan) hless hlt)
      | inr hir =>
        rw [hir]
        exact .refl _
    · refine ⟨_, l, congrArg some (if_neg hless), hl, hleft, hpl, ?_⟩
      intro _ i hi hpar
      cases (parent_eq hi).mp hpar with
      | inl hil =>
        rw [hil]
        exact .refl _
      | inr hir =>
        rw [hir]
        exact .of_some hgr hgl hless
  · rw [if_neg hr]
    refine ⟨_, l, rfl, hl, hleft, hpl, ?_⟩
    intro _ i hi hpar
    cases (parent_eq hi).mp hpar with
    | inl hil =>
      rw [hil]
      exact .refl _
    | inr hir =>
      rw [hir]
      exact .of_none (elementAt_of_size_le (Nat.not_lt.mp hr))

theorem moveDown_spec {e : K} : ∀ {steps c : Nat} {h : BinaryMaxHeap K}, Hole h S c e → h.m_size ≤ steps + c →
    ∃ h', moveDown m_lessThan e steps h c = some h' ∧ Kept h h' S ∧
      (IsStrictWeakOrder K (Less m_lessThan) → DownReady (Less m_lessThan) (h.placed c e).elementAt c →
        Ordered (Less m_lessThan) h'.elementAt) := by
  intro steps
  induction steps with
  | zero =>
    intro c h ho hle
    have hcur := ho.cursor
    omega
  | succ steps ih =>
    intro c h ho hle
    rw [moveDown]
    by_cases hc : getLeftChildIdx c < h.m_size
    · obtain ⟨m, y, hm, hy, hlt, hpar, hmax⟩ := maxChildIdx_spec m_lessThan ho hc
      have hgy : (h.placed c e).elementAt m = some y := by rw [elementAt_placed_of_ne (Nat.ne_of_gt hlt), hy]
      rw [if_pos hc, hm, Option.bind_eq_bind, Option.bind_some, heap_of_elementAt hy, Option.bind_eq_bind,
        Option.bind_some]
      by_cases hless : m_lessThan e y = true
      · obtain ⟨hput, ho', hswap⟩ := ho.move hy (Nat.ne_of_gt hlt)
        obtain ⟨h', hrun, hkept, hord⟩ := ih ho' (by rw [placed_size]; omega)
        refine ⟨h', ?_, ⟨hkept.indexed, hkept.size, hkept.length.trans placed_heap_length⟩, ?_⟩
        · rw [if_pos hless, hput, Option.bind_eq_bind, Option.bind_some, hrun]
        · intro hswo hr
          apply hord hswo
          rw [hswap]
          apply hr.swap (Nat.zero_lt_of_lt hlt) hpar _ (hmax hswo)
          exact .of_some ho.elementAt_cursor hgy (fun hye => asymm_of (Less m_lessThan) hless hye)
      · rw [if_neg hless]
        refine ⟨_, ho.put_eq, ho.placed_kept, ?_⟩
        intro hswo hr
        apply hr.ordered
        intro i hi hchild
        have hmc : NotGreater (Less m_lessThan) (h.placed c e).elementAt m c :=
          .of_some hgy ho.elementAt_cursor hless
        exact (hmax hswo i hi hchild).trans hmc (by rw [hgy]; rfl)
    · rw [if_neg hc, if_pos ho.cursor]
      refine ⟨_, ho.put_eq, ho.placed_kept, ?_⟩
      intro _ hr
      apply hr.ordered
      intro i hi hchild
      apply NotGreater.of_none
      apply elementAt_of_size_le
      rw [placed_size]
      unfold getLeftChildIdx at hc
      have hpos := (parent_eq hi).mp hchild
      omega

/-! ## The operations -/

theorem increasingUpdate_spec {x : K} (hi : h.Indexed S) (hx : x ∈ S) :
    ∃ h', h.increasingUpdate m_lessThan x = some h' ∧ Kept h h' S ∧
      (IsStrictWeakOrder K (Less m_lessThan) →
        (∀ c, h.elementAt c = some x → UpReady (Less m_lessThan) h.elementAt c) →
        Ordered (Less m_lessThan) h'.elementAt) := by
  obtain ⟨c, hc⟩ := hi.contained hx
  unfold increasingUpdate
  rw [hi.position_eq hc, Option.bind_eq_bind, Option.bind_some]
  by_cases hzero : c = 0
  · rw [if_pos hzero]
    exact ⟨h, rfl, ⟨hi, rfl, rfl⟩, fun _ hr => (hr c hc).ordered fun hpos => absurd hzero (Nat.ne_of_gt hpos)⟩
  · rw [if_neg hzero]
    have ho := Hole.of_position hi hc
    obtain ⟨h', hrun, hkept, hord⟩ := moveUp_spec m_lessThan ho (Nat.lt_succ_self c)
    rw [Hole.placed_eq hi hc] at hord
    exact ⟨h', hrun, hkept, fun hswo hr => hord hswo (hr c hc)⟩

theorem decreasingUpdate_spec {x : K} (hi : h.Indexed S) (hx : x ∈ S) :
    ∃ h', h.decreasingUpdate m_lessThan x = some h' ∧ Kept h h' S ∧
      (IsStrictWeakOrder K (Less m_lessThan) →
        (∀ c, h.elementAt c = some x → DownReady (Less m_lessThan) h.elementAt c) →
        Ordered (Less m_lessThan) h'.elementAt) := by
  obtain ⟨c, hc⟩ := hi.contained hx
  unfold decreasingUpdate
  rw [hi.position_eq hc, Option.bind_eq_bind, Option.bind_some]
  have ho := Hole.of_position hi hc
  obtain ⟨h', hrun, hkept, hord⟩ := moveDown_spec m_lessThan ho (Nat.le_add_right _ _)
  rw [Hole.placed_eq hi hc] at hord
  exact ⟨h', hrun, hkept, fun hswo hr => hord hswo (hr c hc)⟩

theorem Indexed.size_lt {x : K} (hi : h.Indexed S) (hx : x ∉ S) (hlt : getIndex x < h.m_heap.length) :
    h.m_size < h.m_heap.length := by
  by_contra hge
  have hsize : ∀ i : Fin h.m_heap.length, ∃ y, h.elementAt i = some y := fun i =>
    hi.exists_elementAt (i.isLt.trans_le (Nat.not_lt.mp hge))
  choose y hy using hsize
  have hbound : ∀ i, getIndex (y i) < h.m_heap.length := fun i => hi.length ▸ hi.index_lt (hi.at_index (hy i)).1
  have hinj : Function.Injective fun i => (⟨getIndex (y i), hbound i⟩ : Fin h.m_heap.length) := by
    intro i j hij
    have heq : y i = y j := unique (Fin.mk.inj hij)
    exact Fin.ext (hi.pos_unique (hy i) (heq ▸ hy j))
  obtain ⟨i, hix⟩ := Finite.surjective_of_injective hinj ⟨getIndex x, hlt⟩
  have heq : y i = x := unique (Fin.mk.inj hix)
  exact hx (heq ▸ (hi.at_index (hy i)).1)

theorem Indexed.insert_last {x : K} (hi : h.Indexed S) (hx : x ∉ S) (hlt : getIndex x < h.m_heap.length) :
    (placed { h with m_size := h.m_size + 1 } h.m_size x).Indexed (Insert.insert x S) ∧
      (placed { h with m_size := h.m_size + 1 } h.m_size x).elementAt h.m_size = some x ∧
      ∀ i, i ≠ h.m_size → (placed { h with m_size := h.m_size + 1 } h.m_size x).elementAt i = h.elementAt i := by
  have hroom := hi.size_lt hx hlt
  have hself : (placed { h with m_size := h.m_size + 1 } h.m_size x).elementAt h.m_size = some x :=
    elementAt_placed_self (Nat.lt_succ_self _) hroom
  have hother : ∀ i, i ≠ h.m_size →
      (placed { h with m_size := h.m_size + 1 } h.m_size x).elementAt i = h.elementAt i := by
    intro i hne
    rw [elementAt_placed_of_ne hne]
    by_cases hi' : i < h.m_size
    · exact (if_pos (Nat.lt_succ_of_lt hi')).trans (if_pos hi').symm
    · rw [elementAt_of_size_le (Nat.not_lt.mp hi')]
      exact if_neg (by dsimp only; omega)
  have hindex : getIndex x < h.m_indices.length := hi.length.symm ▸ hlt
  refine ⟨⟨?_, ?_, ?_, ?_, ?_⟩, hself, hother⟩
  · rw [placed_heap_length]
    exact hroom
  · rw [placed_indices_length, placed_heap_length]
    exact hi.length
  · intro i y hy
    by_cases hne : i = h.m_size
    · subst hne
      rw [hself] at hy
      obtain rfl := Option.some.inj hy
      exact ⟨Set.mem_insert _ _, index_placed_self hindex⟩
    · rw [hother i hne] at hy
      have hold := hi.at_index hy
      have hyx : y ≠ x := by
        rintro rfl
        exact hx hold.1
      rw [index_placed_of_ne hyx]
      exact ⟨Set.mem_insert_of_mem _ hold.1, hold.2⟩
  · intro y hy
    cases hy with
    | inl he => exact ⟨h.m_size, he ▸ hself⟩
    | inr hS =>
      obtain ⟨i, hiy⟩ := hi.contained hS
      exact ⟨i, (hother i (Nat.ne_of_lt (lt_of_elementAt hiy))).trans hiy⟩
  · intro y hy hlt'
    rw [placed_indices_length] at hlt'
    rw [index_placed_of_ne (fun he => hy (Or.inl he))]
    exact hi.absent (fun hS => hy (Or.inr hS)) hlt'

theorem insert_spec {x : K} (hi : h.Indexed S) (hx : getIndex x < h.m_heap.length)
    (hfit : x ∉ S → h.m_size ≤ maxIndex) :
    ∃ h', h.insert m_lessThan x = some h' ∧ h'.Indexed (Insert.insert x S) ∧ h'.m_heap.length = h.m_heap.length ∧
      (IsStrictWeakOrder K (Less m_lessThan) → Ordered (Less m_lessThan) h.elementAt →
        Ordered (Less m_lessThan) h'.elementAt) := by
  unfold insert
  by_cases hS : x ∈ S
  · rw [if_pos (hi.contains_iff.mpr hS), Set.insert_eq_of_mem hS]
    exact ⟨h, rfl, hi, rfl, fun _ ho => ho⟩
  · have hroom := hi.size_lt hS hx
    obtain ⟨hi', hself, hother⟩ := hi.insert_last hS hx
    obtain ⟨h', hrun, hkept, hord⟩ := increasingUpdate_spec m_lessThan hi' (Set.mem_insert _ _)
    have hindex : getIndex x < h.m_indices.length := hi.length.symm ▸ hx
    have hput : put { h with m_size := h.m_size + 1 } h.m_size x =
        some (placed { h with m_size := h.m_size + 1 } h.m_size x) := if_pos ⟨hroom, hindex⟩
    refine ⟨h', ?_, hkept.indexed, hkept.length.trans placed_heap_length, ?_⟩
    · rw [if_neg (hS ∘ hi.contains_iff.mp), if_pos ⟨Nat.ne_of_lt hroom, hfit hS⟩, hput, Option.bind_eq_bind,
        Option.bind_some, hrun]
    · intro hswo ho
      apply hord hswo
      intro c hc
      obtain rfl := hi'.pos_unique hc hself
      constructor
      · intro i hpos hne
        by_cases hlt : i < h.m_size
        · have hp := parent_lt hpos
          exact (ho i hpos).congr (hother i hne) (hother _ (by omega))
        · exact .of_none (elementAt_of_size_le (show h.m_size + 1 ≤ i by omega))
      · intro _ i hpos hpar
        have hp := parent_lt hpos
        exact .of_none (elementAt_of_size_le (show h.m_size + 1 ≤ i by omega))

theorem new_spec [Inhabited K] (maxElement : K) : (new maxElement).Indexed ∅ := by
  have hnone : ∀ i, (new maxElement).elementAt i = none := fun i => elementAt_of_size_le (Nat.zero_le i)
  refine ⟨Nat.zero_le _, ?_, ?_, fun hx => absurd hx (Set.notMem_empty _), ?_⟩
  · unfold new
    rw [List.length_replicate, List.length_replicate]
  · intro i x hx
    rw [hnone i] at hx
    cases hx
  · intro x _ hlt
    unfold new at hlt ⊢
    rw [List.length_replicate] at hlt
    exact List.getElem?_replicate_of_lt hlt

theorem increaseMaxSizeTo_spec [Inhabited K] (hi : h.Indexed S) {newMaxElement : K}
    (hle : h.m_heap.length ≤ getIndex newMaxElement + 1) :
    ∃ h', h.increaseMaxSizeTo newMaxElement = some h' ∧ h'.Indexed S ∧
      h'.m_heap.length = getIndex newMaxElement + 1 ∧ h'.elementAt = h.elementAt := by
  have hsize := hi.size_le
  have hlen := hi.length
  unfold increaseMaxSizeTo
  dsimp only
  rw [if_pos hle]
  refine ⟨_, rfl, ?_⟩
  generalize hg : ({ h with
      m_heap := h.m_heap ++ List.replicate (getIndex newMaxElement + 1 - h.m_heap.length) default
      m_indices := h.m_indices ++ List.replicate (getIndex newMaxElement + 1 - h.m_indices.length) (-1) } :
      BinaryMaxHeap K) = g
  have hheap : g.m_heap = h.m_heap ++ List.replicate (getIndex newMaxElement + 1 - h.m_heap.length) default := by
    rw [← hg]
  have hindices :
      g.m_indices = h.m_indices ++ List.replicate (getIndex newMaxElement + 1 - h.m_indices.length) (-1) := by
    rw [← hg]
  have hgsize : g.m_size = h.m_size := by rw [← hg]
  have hglen : g.m_heap.length = getIndex newMaxElement + 1 := by
    rw [hheap, List.length_append, List.length_replicate]
    omega
  have hgilen : g.m_indices.length = getIndex newMaxElement + 1 := by
    rw [hindices, List.length_append, List.length_replicate]
    omega
  have hat : g.elementAt = h.elementAt := by
    funext i
    unfold elementAt
    rw [hgsize]
    split
    · rw [hheap, List.getElem?_append_left (by omega)]
    · rfl
  have hold : ∀ {x : K}, getIndex x < h.m_indices.length → g.m_indices[getIndex x]? = h.m_indices[getIndex x]? := by
    intro x hx
    rw [hindices, List.getElem?_append_left hx]
  refine ⟨⟨by omega, by omega, ?_, ?_, ?_⟩, hglen, hat⟩
  · intro i x hx
    rw [hat] at hx
    have hx' := hi.at_index hx
    exact ⟨hx'.1, (hold (hi.index_lt hx'.1)).trans hx'.2⟩
  · intro x hx
    rw [hat]
    exact hi.contained hx
  · intro x hx hlt
    by_cases hx' : getIndex x < h.m_indices.length
    · exact (hold hx').trans (hi.absent hx hx')
    · rw [hindices, List.getElem?_append_right (Nat.le_of_not_lt hx')]
      exact List.getElem?_replicate_of_lt (by omega)

def rootReplaced (h : BinaryMaxHeap K) (result replacement : K) : BinaryMaxHeap K :=
  { placed { h with m_indices := h.m_indices.set (getIndex result) (-1) } 0 replacement with m_size := h.m_size - 1 }

theorem elementAt_rootReplaced {x y : K} (hi : h.Indexed S) (hsize : 1 < h.m_size) :
    (h.rootReplaced x y).elementAt 0 = some y ∧
      (∀ i, 0 < i → i < h.m_size - 1 → (h.rootReplaced x y).elementAt i = h.elementAt i) ∧
      ∀ i, h.m_size - 1 ≤ i → (h.rootReplaced x y).elementAt i = none := by
  have hle := hi.size_le
  refine ⟨?_, ?_, fun i hge => elementAt_of_size_le hge⟩
  · unfold elementAt rootReplaced placed
    dsimp only
    rw [if_pos (by omega), List.getElem?_set_self (by omega)]
  · intro i hpos hlt
    unfold elementAt rootReplaced placed
    dsimp only
    rw [if_pos hlt, if_pos (by omega), List.getElem?_set_ne (Nat.ne_of_lt hpos)]

theorem Indexed.rootReplaced {x y : K} (hi : h.Indexed S) (hsize : 1 < h.m_size) (hx : h.elementAt 0 = some x)
    (hy : h.elementAt (h.m_size - 1) = some y) : (h.rootReplaced x y).Indexed (S \ {x}) := by
  obtain ⟨hroot, hmid, hend⟩ := elementAt_rootReplaced (x := x) (y := y) hi hsize
  have hle := hi.size_le
  have hyx : y ≠ x := by
    rintro rfl
    have heq := hi.pos_unique hx hy
    omega
  have hyS := (hi.at_index hy).1
  have hylt := hi.index_lt hyS
  have hindex_y : (h.rootReplaced x y).m_indices[getIndex y]? = some 0 :=
    List.getElem?_set_self (by rwa [List.length_set])
  have hindex : ∀ {z}, z ≠ x → z ≠ y → (h.rootReplaced x y).m_indices[getIndex z]? = h.m_indices[getIndex z]? := by
    intro z hzx hzy
    exact (index_placed_of_ne hzy).trans (List.getElem?_set_ne fun he => hzx (unique he.symm))
  have hlen : (h.rootReplaced x y).m_indices.length = h.m_indices.length := by
    unfold BinaryMaxHeap.rootReplaced placed
    rw [List.length_set, List.length_set]
  have hhlen : (h.rootReplaced x y).m_heap.length = h.m_heap.length := List.length_set
  refine ⟨?_, hlen.trans (hi.length.trans hhlen.symm), ?_, ?_, ?_⟩
  · rw [hhlen]
    exact (Nat.sub_le _ _).trans hle
  · intro i z hz
    by_cases hzero : i = 0
    · subst hzero
      rw [hroot] at hz
      obtain rfl := Option.some.inj hz
      exact ⟨⟨hyS, hyx⟩, hindex_y⟩
    have hlt : i < h.m_size - 1 := lt_of_elementAt hz
    rw [hmid i (Nat.pos_of_ne_zero hzero) hlt] at hz
    have hzx : z ≠ x := by
      rintro rfl
      exact hzero (hi.pos_unique hz hx)
    have hzy : z ≠ y := by
      rintro rfl
      have heq := hi.pos_unique hz hy
      omega
    have hz' := hi.at_index hz
    exact ⟨⟨hz'.1, hzx⟩, (hindex hzx hzy).trans hz'.2⟩
  · rintro z ⟨hzS, hzx⟩
    obtain ⟨i, hiz⟩ := hi.contained hzS
    have hlt := lt_of_elementAt hiz
    have hzero : i ≠ 0 := by
      rintro rfl
      exact hzx (Option.some.inj (hiz.symm.trans hx))
    by_cases hlast : i = h.m_size - 1
    · subst hlast
      obtain rfl := Option.some.inj (hiz.symm.trans hy)
      exact ⟨0, hroot⟩
    · exact ⟨i, (hmid i (Nat.pos_of_ne_zero hzero) (by omega)).trans hiz⟩
  · intro z hz hlt
    rw [hlen] at hlt
    have hzy : z ≠ y := by
      rintro rfl
      exact hz ⟨hyS, hyx⟩
    by_cases hzx : z = x
    · subst hzx
      exact (index_placed_of_ne hzy).trans (List.getElem?_set_self hlt)
    · exact (hindex hzx hzy).trans (hi.absent (fun hS => hz ⟨hS, hzx⟩) hlt)

/-- The heap after `removeMax` has removed the only element. -/
theorem Indexed.emptied {x : K} (hi : h.Indexed S) (hsize : h.m_size ≤ 1) (hx : h.elementAt 0 = some x) :
    Indexed { h with m_indices := h.m_indices.set (getIndex x) (-1), m_size := 0 } (S \ {x}) := by
  have hone : ∀ {z}, z ∈ S → z = x := by
    intro z hz
    obtain ⟨i, hiz⟩ := hi.contained hz
    have hlt := lt_of_elementAt hiz
    obtain rfl : i = 0 := by omega
    exact Option.some.inj (hiz.symm.trans hx)
  refine ⟨Nat.zero_le _, List.length_set.trans hi.length, ?_, ?_, ?_⟩
  · intro i z hz
    rw [elementAt_of_size_le (Nat.zero_le i)] at hz
    cases hz
  · intro z hz
    exact absurd (hone hz.1) hz.2
  · intro z hz hlt
    rw [List.length_set] at hlt
    by_cases hzx : z = x
    · subst hzx
      exact List.getElem?_set_self hlt
    · rw [List.getElem?_set_ne fun he => hzx (unique he.symm)]
      exact hi.absent (fun hS => hzx (hone hS)) hlt

theorem Indexed.not_less_root [IsStrictWeakOrder K (Less m_lessThan)] {x y : K} (hi : h.Indexed S)
    (ho : Ordered (Less m_lessThan) h.elementAt) (hx : h.elementAt 0 = some x) (hy : y ∈ S) :
    ¬ m_lessThan x y = true := by
  obtain ⟨i, hiy⟩ := hi.contained hy
  refine ho.root ?_ i y hiy x hx
  intro j hj
  rw [hi.isSome] at hj ⊢
  by_cases hjz : 0 < j
  · exact (parent_lt hjz).trans hj
  · obtain rfl : j = 0 := by omega
    exact hj

theorem removeMax_spec (hi : h.Indexed S) (hpos : 0 < h.m_size) :
    ∃ h' x, h.removeMax m_lessThan = some (h', x) ∧ x ∈ S ∧ h'.Indexed (S \ {x}) ∧
      h'.m_heap.length = h.m_heap.length ∧ h'.m_size < h.m_size ∧
      (IsStrictWeakOrder K (Less m_lessThan) → Ordered (Less m_lessThan) h.elementAt →
        Ordered (Less m_lessThan) h'.elementAt ∧ ∀ y ∈ S, ¬ m_lessThan x y = true) := by
  obtain ⟨x, hx⟩ := hi.exists_elementAt hpos
  have hxS := (hi.at_index hx).1
  have hxlt := hi.index_lt hxS
  have hunmark : h.unmark x = some { h with m_indices := h.m_indices.set (getIndex x) (-1) } := if_pos hxlt
  unfold removeMax
  rw [if_pos hpos, heap_of_elementAt hx, Option.bind_eq_bind, Option.bind_some, hunmark,
    Option.bind_eq_bind, Option.bind_some]
  dsimp only
  by_cases hsize : h.m_size > 1
  · obtain ⟨y, hy⟩ := hi.exists_elementAt (i := h.m_size - 1) (by omega)
    have hylt := hi.index_lt (hi.at_index hy).1
    have hle := hi.size_le
    have hput : put { h with m_indices := h.m_indices.set (getIndex x) (-1) } 0 y =
        some (placed { h with m_indices := h.m_indices.set (getIndex x) (-1) } 0 y) :=
      if_pos ⟨by dsimp only; omega, by rwa [List.length_set]⟩
    have hi' := hi.rootReplaced hsize hx hy
    obtain ⟨hroot, hmid, hend⟩ := elementAt_rootReplaced (x := x) (y := y) hi hsize
    obtain ⟨h', hrun, hkept, hord⟩ := decreasingUpdate_spec m_lessThan hi' (hi'.at_index hroot).1
    refine ⟨h', x, ?_, hxS, hkept.indexed, hkept.length.trans List.length_set, ?_, ?_⟩
    · rw [if_pos hsize, heap_of_elementAt hy, Option.bind_some, hput, Option.bind_some]
      change (decreasingUpdate m_lessThan (h.rootReplaced x y) y).bind _ = _
      rw [hrun]
      rfl
    · exact hkept.size.trans_lt (Nat.sub_lt hpos Nat.one_pos)
    · intro hswo ho
      refine ⟨hord hswo ?_, fun z hz => hi.not_less_root m_lessThan ho hx hz⟩
      intro c hc
      obtain rfl := hi'.pos_unique hc hroot
      constructor
      · intro i hipos hpar
        by_cases hlt : i < h.m_size - 1
        · have hp := parent_lt hipos
          exact (ho i hipos).congr (hmid i hipos hlt) (hmid _ (Nat.pos_of_ne_zero hpar) (by omega))
        · exact .of_none (hend i (Nat.not_lt.mp hlt))
      · exact fun hzero => absurd hzero (Nat.lt_irrefl 0)
  · rw [if_neg hsize]
    refine ⟨_, x, rfl, hxS, hi.emptied (Nat.not_lt.mp hsize) hx, rfl, hpos, fun hswo ho => ⟨?_, ?_⟩⟩
    · exact fun i _ => .of_none (elementAt_of_size_le (Nat.zero_le i))
    · exact fun z hz => hi.not_less_root m_lessThan ho hx hz

end JamSAT.BinaryMaxHeap

namespace JamSAT

open Index HeapOrder BinaryMaxHeap

/-! ## Runs -/

structure KeyedHeap (K : Type) where
  heap : BinaryMaxHeap K
  m_lessThan : K → K → Bool

/-- A call of an operation. An update comes with the keys after the change; `changeKeys` is a
change of keys of elements that are not contained. -/
inductive HeapCall (K : Type)
  | insert (element : K)
  | removeMax
  | increasingUpdate (element : K) (m_lessThan : K → K → Bool)
  | decreasingUpdate (element : K) (m_lessThan : K → K → Bool)
  | increaseMaxSizeTo (newMaxElement : K)
  | changeKeys (m_lessThan : K → K → Bool)

variable {K : Type} [Index K] [Inhabited K]

namespace HeapCall

def run (s : KeyedHeap K) : HeapCall K → Option (KeyedHeap K × Option K)
  | insert element => (s.heap.insert s.m_lessThan element).map fun h => ({ s with heap := h }, none)
  | removeMax => (s.heap.removeMax s.m_lessThan).map fun (h, result) => ({ s with heap := h }, some result)
  | increasingUpdate element m_lessThan =>
    (s.heap.increasingUpdate m_lessThan element).map fun h => (⟨h, m_lessThan⟩, none)
  | decreasingUpdate element m_lessThan =>
    (s.heap.decreasingUpdate m_lessThan element).map fun h => (⟨h, m_lessThan⟩, none)
  | increaseMaxSizeTo newMaxElement =>
    (s.heap.increaseMaxSizeTo newMaxElement).map fun h => ({ s with heap := h }, none)
  | changeKeys m_lessThan => some ({ s with m_lessThan := m_lessThan }, none)

/-- The preconditions. Positions have to fit into the type of the indices. -/
def Legal (s : KeyedHeap K) : HeapCall K → Prop
  | insert element => getIndex element < s.heap.m_heap.length ∧ (s.heap.contains element = false → s.heap.m_size ≤ maxIndex)
  | removeMax => s.heap.empty = false
  | increasingUpdate element m_lessThan => s.heap.contains element = true ∧ IsStrictWeakOrder K (Less m_lessThan) ∧
      Increased (Less s.m_lessThan) (Less m_lessThan) element
  | decreasingUpdate element m_lessThan => s.heap.contains element = true ∧ IsStrictWeakOrder K (Less m_lessThan) ∧
      Decreased (Less s.m_lessThan) (Less m_lessThan) element
  | increaseMaxSizeTo newMaxElement => s.heap.m_heap.length ≤ getIndex newMaxElement + 1
  | changeKeys m_lessThan => IsStrictWeakOrder K (Less m_lessThan) ∧
      ∀ x y, s.heap.contains x = true → s.heap.contains y = true → m_lessThan x y = s.m_lessThan x y

def effect (S : Set K) (result : Option K) : HeapCall K → Set K
  | insert element => Insert.insert element S
  | removeMax => S \ {x | result = some x}
  | _ => S

end HeapCall

inductive KeyedHeap.Reached : KeyedHeap K → Set K → Prop
  | new (maxElement : K) {m_lessThan : K → K → Bool} (hlt : IsStrictWeakOrder K (Less m_lessThan)) :
    Reached ⟨.new maxElement, m_lessThan⟩ ∅
  | call {s s' : KeyedHeap K} {S : Set K} {c : HeapCall K} {r : Option K} (hs : Reached s S) (hc : c.Legal s)
    (hr : c.run s = some (s', r)) : Reached s' (c.effect S r)

structure KeyedHeap.Represents (s : KeyedHeap K) (S : Set K) : Prop where
  order : IsStrictWeakOrder K (Less s.m_lessThan)
  indexed : s.heap.Indexed S
  ordered : Ordered (Less s.m_lessThan) s.heap.elementAt

namespace KeyedHeap

variable {s : KeyedHeap K} {S : Set K}

theorem Represents.run (hs : s.Represents S) {c : HeapCall K} (hc : c.Legal s) :
    ∃ s' result, c.run s = some (s', result) ∧ s'.Represents (c.effect S result) ∧
      (c = .removeMax → ∃ x ∈ S, result = some x ∧ ∀ y ∈ S, ¬ s.m_lessThan x y = true) := by
  have hi := hs.indexed
  cases c with
  | insert x =>
    obtain ⟨h', hrun, hi', -, hord⟩ := insert_spec s.m_lessThan hi hc.1
      (fun hx => hc.2 (Bool.eq_false_iff.mpr (hx ∘ hi.contains_iff.mp)))
    exact ⟨_, _, congrArg (Option.map _) hrun, ⟨hs.order, hi', hord hs.order hs.ordered⟩, nofun⟩
  | removeMax =>
    have hpos : 0 < s.heap.m_size := Nat.pos_of_ne_zero (of_decide_eq_false hc)
    obtain ⟨h', x, hrun, hx, hi', -, -, hord⟩ := removeMax_spec s.m_lessThan hi hpos
    obtain ⟨ho, hmax⟩ := hord hs.order hs.ordered
    refine ⟨_, _, congrArg (Option.map _) hrun, ⟨hs.order, ?_, ho⟩, fun _ => ⟨x, hx, rfl, hmax⟩⟩
    have hset : {y | some x = some y} = ({x} : Set K) := by
      ext y
      exact ⟨fun he => (Option.some.inj he).symm, fun he => congrArg some (Eq.symm he)⟩
    change h'.Indexed (S \ {y | some x = some y})
    rw [hset]
    exact hi'
  | increasingUpdate x lt' =>
    obtain ⟨hx, hswo, hkey⟩ := hc
    obtain ⟨h', hrun, hkept, hord⟩ := increasingUpdate_spec lt' hi (hi.contains_iff.mp hx)
    refine ⟨_, _, congrArg (Option.map _) hrun, ⟨hswo, hkept.indexed, hord hswo ?_⟩, nofun⟩
    intro c hc
    have horder := hs.order
    exact hs.ordered.increased hkey hc fun i hi' => hi.pos_unique hi' hc
  | decreasingUpdate x lt' =>
    obtain ⟨hx, hswo, hkey⟩ := hc
    obtain ⟨h', hrun, hkept, hord⟩ := decreasingUpdate_spec lt' hi (hi.contains_iff.mp hx)
    refine ⟨_, _, congrArg (Option.map _) hrun, ⟨hswo, hkept.indexed, hord hswo ?_⟩, nofun⟩
    intro c hc
    have horder := hs.order
    exact hs.ordered.decreased hkey hc fun i hi' => hi.pos_unique hi' hc
  | increaseMaxSizeTo x =>
    obtain ⟨h', hrun, hi', -, hat⟩ := increaseMaxSizeTo_spec hi hc
    refine ⟨_, _, congrArg (Option.map _) hrun, ⟨hs.order, hi', ?_⟩, nofun⟩
    change Ordered _ h'.elementAt
    rw [hat]
    exact hs.ordered
  | changeKeys lt' =>
    refine ⟨_, _, rfl, ⟨hc.1, hi, ?_⟩, nofun⟩
    intro i hpos x hx y hy hlt
    have hyx := hc.2 y x (hi.contains_iff.mpr (hi.at_index hy).1) (hi.contains_iff.mpr (hi.at_index hx).1)
    exact hs.ordered i hpos x hx y hy (hyx.symm.trans hlt)

theorem Reached.represents (h : s.Reached S) : s.Represents S := by
  induction h with
  | new maxElement hlt =>
    exact ⟨hlt, new_spec maxElement, fun i _ => .of_none (elementAt_of_size_le (Nat.zero_le i))⟩
  | call _ hc hr ih =>
    obtain ⟨s₁, result₁, hrun, hrep, -⟩ := ih.run hc
    obtain ⟨rfl, rfl⟩ := Prod.mk.inj (Option.some.inj (hrun.symm.trans hr))
    exact hrep

/-- After every sequence of calls the arrays and the order are as documented, and the next call succeeds. -/
theorem heap_correct (h : s.Reached S) :
    s.heap.Indexed S ∧ Ordered (Less s.m_lessThan) s.heap.elementAt ∧
      (∀ x, s.heap.contains x = true ↔ x ∈ S) ∧
      ∀ c : HeapCall K, c.Legal s → ∃ s' result, c.run s = some (s', result) ∧ s'.Represents (c.effect S result) ∧
        (c = .removeMax → ∃ x ∈ S, result = some x ∧ ∀ y ∈ S, ¬ s.m_lessThan x y = true) := by
  have hs := h.represents
  exact ⟨hs.indexed, hs.ordered, fun _ => hs.indexed.contains_iff, fun _ hc => hs.run hc⟩

def numbered (x y : CNFVar) : Bool := decide (x < y)

theorem numbered_order : IsStrictWeakOrder CNFVar (Less numbered) := by
  have hlt : Less numbered = fun x y => x < y := by
    funext x y
    exact decide_eq_true_eq
  rw [hlt]
  exact {
    irrefl := Nat.lt_irrefl
    trans := fun _ _ _ hxy hyz => Nat.lt_trans hxy hyz
    incomp_trans := fun _ _ _ hxy hyz => ⟨Nat.not_lt.mpr (Nat.le_trans (Nat.not_lt.mp hyz.1) (Nat.not_lt.mp hxy.1)),
      Nat.not_lt.mpr (Nat.le_trans (Nat.not_lt.mp hxy.2) (Nat.not_lt.mp hyz.2))⟩ }

def twoInserted : KeyedHeap CNFVar := ⟨⟨[1, -1, 0], [2, 0, 0], 2⟩, numbered⟩

theorem twoInserted_reached : twoInserted.Reached (Insert.insert 2 (Insert.insert 0 ∅)) := by
  have hnew : Reached ⟨.new 2, numbered⟩ ∅ := .new 2 numbered_order
  have hone : Reached ⟨⟨[0, -1, -1], [0, 0, 0], 1⟩, numbered⟩ (Insert.insert 0 ∅) :=
    hnew.call (c := .insert 0) (r := none) ⟨by decide, fun _ => by decide⟩ rfl
  exact hone.call (c := .insert 2) (r := none) ⟨by decide, fun _ => by decide⟩ rfl

theorem twoInserted_correct :
    twoInserted.heap.Indexed (Insert.insert 2 (Insert.insert 0 ∅)) ∧
      Ordered (Less twoInserted.m_lessThan) twoInserted.heap.elementAt ∧
      (∀ x, twoInserted.heap.contains x = true ↔ x ∈ (Insert.insert 2 (Insert.insert 0 ∅) : Set CNFVar)) ∧
      ∀ c : HeapCall CNFVar, c.Legal twoInserted → ∃ s' result, c.run twoInserted = some (s', result) ∧
        s'.Represents (c.effect (Insert.insert 2 (Insert.insert 0 ∅)) result) ∧
        (c = .removeMax → ∃ x ∈ (Insert.insert 2 (Insert.insert 0 ∅) : Set CNFVar), result = some x ∧
          ∀ y ∈ (Insert.insert 2 (Insert.insert 0 ∅) : Set CNFVar), ¬ twoInserted.m_lessThan x y = true) :=
  heap_correct twoInserted_reached

end KeyedHeap

end JamSAT
