import Mathlib.Logic.Equiv.Basic
import Mathlib.Order.Defs.Unbundled

/-!
# The order of a binary heap

A partly filled array is a function from positions. The parent of position `i` is
`(i - 1) / 2`. An array is ordered when no element is greater than its parent. While an
element moves, one position may be out of order: `UpReady` when the element there may be
greater than its parent, `DownReady` when it may be smaller than its children. A swap
with the parent or with a greatest child moves that position on.
-/

namespace HeapOrder

variable {α : Type*}

def parent (i : Nat) : Nat := (i - 1) / 2

theorem parent_lt {i : Nat} (h : 0 < i) : parent i < i := by
  unfold parent
  omega

theorem parent_eq {i j : Nat} (h : 0 < j) : parent j = i ↔ j = 2 * i + 1 ∨ j = 2 * i + 2 := by
  unfold parent
  omega

section
variable (lt : α → α → Prop) (f : Nat → Option α)

def NotGreater (j i : Nat) : Prop := ∀ x ∈ f j, ∀ y ∈ f i, ¬ lt y x

def Ordered : Prop := ∀ i, 0 < i → NotGreater lt f i (parent i)

/-- `c` may be greater than its parent. -/
structure UpReady (c : Nat) : Prop where
  except : ∀ i, 0 < i → i ≠ c → NotGreater lt f i (parent i)
  grand : 0 < c → ∀ i, 0 < i → parent i = c → NotGreater lt f i (parent c)

/-- `c` may be smaller than its children. -/
structure DownReady (c : Nat) : Prop where
  except : ∀ i, 0 < i → parent i ≠ c → NotGreater lt f i (parent i)
  grand : 0 < c → ∀ i, 0 < i → parent i = c → NotGreater lt f i (parent c)

structure Increased (lt' : α → α → Prop) (e : α) : Prop where
  others : ∀ {x y}, x ≠ e → y ≠ e → (lt' x y ↔ lt x y)
  than : ∀ {x}, lt' e x → lt e x

structure Decreased (lt' : α → α → Prop) (e : α) : Prop where
  others : ∀ {x y}, x ≠ e → y ≠ e → (lt' x y ↔ lt x y)
  than : ∀ {x}, lt' x e → lt x e

def swapped (i j k : Nat) : Option α := f (Equiv.swap i j k)

end

variable {lt : α → α → Prop} {f : Nat → Option α}

@[simp] theorem swapped_left (i j : Nat) : swapped f i j i = f j := congrArg f (Equiv.swap_apply_left i j)

@[simp] theorem swapped_right (i j : Nat) : swapped f i j j = f i := congrArg f (Equiv.swap_apply_right i j)

theorem swapped_of_ne {i j k : Nat} (hi : k ≠ i) (hj : k ≠ j) : swapped f i j k = f k :=
  congrArg f (Equiv.swap_apply_of_ne_of_ne hi hj)

theorem NotGreater.congr {g : Nat → Option α} {j i j' i' : Nat} (h : NotGreater lt f j i) (hj : g j' = f j)
    (hi : g i' = f i) : NotGreater lt g j' i' := by
  unfold NotGreater
  rw [hj, hi]
  exact h

theorem NotGreater.of_some {i j : Nat} {x y : α} (hx : f j = some x) (hy : f i = some y) (h : ¬ lt y x) :
    NotGreater lt f j i := by
  intro x' hx' y' hy'
  obtain rfl := Option.some.inj (hx.symm.trans hx')
  obtain rfl := Option.some.inj (hy.symm.trans hy')
  exact h

theorem NotGreater.of_none {i j : Nat} (hj : f j = none) : NotGreater lt f j i := by
  intro x hx
  rw [hj] at hx
  cases hx

theorem UpReady.ordered {c : Nat} (h : UpReady lt f c) (hc : 0 < c → NotGreater lt f c (parent c)) :
    Ordered lt f := by
  intro i hi
  by_cases hic : i = c
  · subst hic
    exact hc hi
  · exact h.except i hi hic

theorem DownReady.ordered {c : Nat} (h : DownReady lt f c) (hc : ∀ i, 0 < i → parent i = c → NotGreater lt f i c) :
    Ordered lt f := by
  intro i hi
  by_cases hpar : parent i = c
  · rw [hpar]
    exact hc i hi hpar
  · exact h.except i hi hpar

section
variable [IsStrictWeakOrder α lt]

theorem not_lt_trans {a b c : α} (hab : ¬ lt a b) (hbc : ¬ lt b c) : ¬ lt a c := by
  intro hac
  have hba : ¬ lt b a := fun hba => hbc (IsTrans.trans _ _ _ hba hac)
  have hcb : ¬ lt c b := fun hcb => hab (IsTrans.trans _ _ _ hac hcb)
  exact (IsStrictWeakOrder.incomp_trans a b c ⟨hab, hba⟩ ⟨hbc, hcb⟩).1 hac

theorem NotGreater.refl (i : Nat) : NotGreater lt f i i := by
  intro x hx y hy
  obtain rfl := Option.mem_unique hx hy
  exact irrefl x

theorem NotGreater.trans {i j k : Nat} (h : NotGreater lt f i j) (h' : NotGreater lt f j k)
    (hj : (f j).isSome) : NotGreater lt f i k := by
  obtain ⟨y, hy⟩ := Option.isSome_iff_exists.mp hj
  intro x hx z hz
  exact not_lt_trans (h' y hy z hz) (h x hx y hy)

/-! ## Moving up -/

/-- `c` is not smaller than its parent: they change places. -/
theorem UpReady.swap {c : Nat} (h : UpReady lt f c) (hc : 0 < c) (hp : (f (parent c)).isSome)
    (hle : NotGreater lt f (parent c) c) : UpReady lt (swapped f c (parent c)) (parent c) := by
  have hlt : parent c < c := parent_lt hc
  have hsibling : ∀ i, 0 < i → i ≠ c → parent i = parent c → NotGreater lt f i (parent c) := by
    intro i hi hne hpar
    have hi' := h.except i hi hne
    rwa [hpar] at hi'
  constructor
  · intro i hi hne
    by_cases hic : i = c
    · subst hic
      exact hle.congr (swapped_left _ _) (swapped_right _ _)
    have hfi : swapped f c (parent c) i = f i := swapped_of_ne hic hne
    by_cases hchild : parent i = c
    · rw [hchild]
      exact (h.grand hc i hi hchild).congr hfi (swapped_left _ _)
    by_cases hsib : parent i = parent c
    · rw [hsib]
      exact ((hsibling i hi hic hsib).trans hle hp).congr hfi (swapped_right _ _)
    · exact (h.except i hi hic).congr hfi (swapped_of_ne hchild hsib)
  · intro hpos i hi hpar
    have hup := h.except (parent c) hpos (Nat.ne_of_lt hlt)
    have hgp := parent_lt hpos
    have hfg : swapped f c (parent c) (parent (parent c)) = f (parent (parent c)) :=
      swapped_of_ne (by omega) (Nat.ne_of_lt hgp)
    by_cases hic : i = c
    · subst hic
      exact hup.congr (swapped_left _ _) hfg
    · have hne : i ≠ parent c := fun he => absurd (parent_lt hi) (by omega)
      exact ((hsibling i hi hic hpar).trans hup hp).congr (swapped_of_ne hic hne) hfg

/-! ## Moving down -/

omit [IsStrictWeakOrder α lt] in
/-- `c` is smaller than its greatest child `m`: they change places. -/
theorem DownReady.swap {c m : Nat} (h : DownReady lt f c) (hm : 0 < m) (hpar : parent m = c)
    (hle : NotGreater lt f c m) (hmax : ∀ i, 0 < i → parent i = c → NotGreater lt f i m) :
    DownReady lt (swapped f c m) m := by
  have hlt : c < m := hpar ▸ parent_lt hm
  constructor
  · intro i hi hne
    by_cases him : i = m
    · subst him
      rw [hpar]
      exact hle.congr (swapped_right _ _) (swapped_left _ _)
    by_cases hic : i = c
    · subst hic
      have hp := parent_lt hi
      exact (h.grand hi m hm hpar).congr (swapped_left _ _) (swapped_of_ne (Nat.ne_of_lt hp) hne)
    have hfi : swapped f c m i = f i := swapped_of_ne hic him
    by_cases hchild : parent i = c
    · rw [hchild]
      exact (hmax i hi hchild).congr hfi (swapped_left _ _)
    · exact (h.except i hi hchild).congr hfi (swapped_of_ne hchild hne)
  · intro _ i hi hchild
    have hlt' := parent_lt hi
    have hne : parent i ≠ c := by omega
    have hi' := h.except i hi hne
    rw [hchild] at hi'
    rw [hpar]
    exact hi'.congr (swapped_of_ne (by omega) (by omega)) (swapped_left _ _)

/-! ## The root, and changes of keys -/

theorem Ordered.root (h : Ordered lt f) (hf : ∀ i, (f i).isSome → (f (parent i)).isSome) (i : Nat) :
    NotGreater lt f i 0 := by
  induction i using Nat.strongRecOn with
  | ind i ih =>
    by_cases hi : 0 < i
    · intro x hx
      have hsome : (f (parent i)).isSome := hf i (Option.isSome_of_mem hx)
      exact (h i hi).trans (ih (parent i) (parent_lt hi)) hsome x hx
    · obtain rfl : i = 0 := by omega
      exact .refl 0

variable {lt' : α → α → Prop} {e : α} {c : Nat}

theorem Ordered.grand (h : Ordered lt f) (hf : (f c).isSome) (hc : 0 < c) {i : Nat} (hi : 0 < i)
    (hpar : parent i = c) : NotGreater lt f i (parent c) := by
  have hi' := h i hi
  rw [hpar] at hi'
  exact hi'.trans (h c hc) hf

theorem Ordered.increased (h : Ordered lt f) (hk : Increased lt lt' e) (hc : f c = some e)
    (hone : ∀ i, f i = some e → i = c) : UpReady lt' f c := by
  have hne : ∀ i, i ≠ c → ∀ x ∈ f i, x ≠ e := by
    rintro i hi x hx rfl
    exact hi (hone i hx)
  constructor
  · intro i hi hic x hx y hy hlt
    refine h i hi x hx y hy ?_
    by_cases hye : y = e
    · subst hye
      exact hk.than hlt
    · exact (hk.others hye (hne i hic x hx)).mp hlt
  · intro hpos i hi hpar x hx y hy hlt
    have hp := parent_lt hpos
    have hi' := parent_lt hi
    refine h.grand (by rw [hc]; rfl) hpos hi hpar x hx y hy ?_
    exact (hk.others (hne _ (Nat.ne_of_lt hp) y hy) (hne i (by omega) x hx)).mp hlt

theorem Ordered.decreased (h : Ordered lt f) (hk : Decreased lt lt' e) (hc : f c = some e)
    (hone : ∀ i, f i = some e → i = c) : DownReady lt' f c := by
  have hne : ∀ i, i ≠ c → ∀ x ∈ f i, x ≠ e := by
    rintro i hi x hx rfl
    exact hi (hone i hx)
  constructor
  · intro i hi hic x hx y hy hlt
    refine h i hi x hx y hy ?_
    by_cases hxe : x = e
    · subst hxe
      exact hk.than hlt
    · exact (hk.others (hne _ hic y hy) hxe).mp hlt
  · intro hpos i hi hpar x hx y hy hlt
    have hp := parent_lt hpos
    have hi' := parent_lt hi
    refine h.grand (by rw [hc]; rfl) hpos hi hpar x hx y hy ?_
    exact (hk.others (hne _ (Nat.ne_of_lt hp) y hy) (hne i (by omega) x hx)).mp hlt

end

end HeapOrder
