import Mathlib.Data.List.Basic
import Mathlib.Data.List.Nodup
import Mathlib.Data.List.Perm.Basic

/-!
# In-place vector edits

Two edits that keep the elements of a vector up to order: exchanging two
entries, and removing an entry by moving the last one into its place. Both
are given as list functions; what a client needs is where the entries went
and that the result is a permutation.
-/

namespace VecEdit

variable {α β : Type*}

/-- Exchanges the entries at `i` and `j`; nothing happens out of bounds. -/
def swapAt (xs : List α) (i j : Nat) : List α :=
  match xs[i]?, xs[j]? with
  | some x, some y => (xs.set i y).set j x
  | _, _ => xs

/-- Removes the entry at `k` by overwriting it with the last one. -/
def removeAt (xs : List α) (k : Nat) : List α :=
  match xs.getLast? with
  | some x => (xs.set k x).dropLast
  | none => xs

/-! ## Exchanging entries -/

theorem swapAt_eq {xs : List α} {i j : Nat} (hi : i < xs.length) (hj : j < xs.length) :
    swapAt xs i j = (xs.set i xs[j]).set j xs[i] := by
  simp [swapAt, List.getElem?_eq_getElem hi, List.getElem?_eq_getElem hj]

theorem swapAt_perm (xs : List α) (i j : Nat) : (swapAt xs i j).Perm xs := by
  by_cases hi : i < xs.length
  · by_cases hj : j < xs.length
    · rw [swapAt_eq hi hj]; exact List.set_set_perm hi hj
    · simp [swapAt, List.getElem?_eq_none (Nat.le_of_not_lt hj)]
  · simp [swapAt, List.getElem?_eq_none (Nat.le_of_not_lt hi)]

@[simp] theorem length_swapAt (xs : List α) (i j : Nat) : (swapAt xs i j).length = xs.length :=
  (swapAt_perm xs i j).length_eq

@[simp] theorem mem_swapAt {xs : List α} {i j : Nat} {x : α} : x ∈ swapAt xs i j ↔ x ∈ xs :=
  (swapAt_perm xs i j).mem_iff

theorem getElem?_swapAt_left {xs : List α} {i j : Nat} (hi : i < xs.length) (hj : j < xs.length) :
    (swapAt xs i j)[i]? = xs[j]? := by
  rw [swapAt_eq hi hj]
  by_cases h : j = i
  · subst h; simp [hi]
  · rw [List.getElem?_set_ne h]; simp [hi, hj]

theorem getElem?_swapAt_right {xs : List α} {i j : Nat} (hi : i < xs.length) (hj : j < xs.length) :
    (swapAt xs i j)[j]? = xs[i]? := by
  rw [swapAt_eq hi hj]; simp [hi, hj]

theorem getElem?_swapAt_of_ne {xs : List α} {i j k : Nat} (hi : k ≠ i) (hj : k ≠ j) :
    (swapAt xs i j)[k]? = xs[k]? := by
  unfold swapAt
  split
  · rw [List.getElem?_set_ne (Ne.symm hj), List.getElem?_set_ne (Ne.symm hi)]
  · rfl

/-! ## Removing an entry -/

theorem removeAt_eq {xs : List α} {k : Nat} (h : k < xs.length) :
    removeAt xs k = (xs.set k (xs.get ⟨xs.length - 1, by omega⟩)).dropLast := by
  have hne : xs ≠ [] := by rintro rfl; exact absurd h (Nat.not_lt_zero k)
  simp [removeAt, List.getLast?_eq_some_getLast hne, List.getLast_eq_getElem]

theorem length_removeAt {xs : List α} {k : Nat} (h : k < xs.length) :
    (removeAt xs k).length = xs.length - 1 := by
  rw [removeAt_eq h]; simp

theorem take_removeAt {xs : List α} {k : Nat} (h : k < xs.length) :
    (removeAt xs k).take k = xs.take k := by
  rw [removeAt_eq h, List.dropLast_eq_take, List.take_take, List.length_set,
    Nat.min_eq_left (by omega)]
  exact List.take_set_of_le (Nat.le_refl k)

theorem removeAt_perm {xs : List α} {k : Nat} (h : k < xs.length) :
    (removeAt xs k).Perm (xs.eraseIdx k) := by
  have hne : xs ≠ [] := by rintro rfl; exact absurd h (Nat.not_lt_zero k)
  obtain ⟨ys, y, rfl⟩ : ∃ ys y, xs = ys ++ [y] :=
    ⟨xs.dropLast, xs.getLast hne, (List.dropLast_append_getLast hne).symm⟩
  rw [removeAt_eq h]
  simp only [List.length_append, List.length_singleton, Nat.add_sub_cancel] at h ⊢
  have hy : (ys ++ [y]).get ⟨ys.length, by simp⟩ = y := by simp
  rw [hy]
  by_cases hk : k < ys.length
  · rw [List.set_append_left _ _ hk, List.dropLast_concat, List.eraseIdx_append_of_lt_length hk]
    have hs : ys.set k y = ys.take k ++ y :: ys.drop (k + 1) := by
      rw [List.set_eq_take_append_cons_drop, if_pos hk]
    rw [hs, List.eraseIdx_eq_take_drop_succ, List.append_assoc]
    refine List.Perm.append_left _ ?_
    exact (List.perm_append_singleton y (ys.drop (k + 1))).symm
  · have : k = ys.length := by omega
    subst this
    rw [List.eraseIdx_append_of_length_le (Nat.le_refl _)]
    simp

theorem mem_of_mem_removeAt {xs : List α} {k : Nat} {x : α} (hx : x ∈ removeAt xs k) : x ∈ xs := by
  by_cases h : k < xs.length
  · exact List.mem_of_mem_eraseIdx ((removeAt_perm h).mem_iff.mp hx)
  · unfold removeAt at hx
    split at hx
    · rw [List.set_eq_of_length_le (Nat.le_of_not_lt h)] at hx
      exact List.dropLast_subset _ hx
    · exact hx

theorem mem_removeAt_of_ne {xs : List α} {k : Nat} (h : k < xs.length) {x : α} (hx : x ∈ xs)
    (hne : x ≠ xs[k]) : x ∈ removeAt xs k := by
  rw [(removeAt_perm h).mem_iff, List.mem_eraseIdx_iff_getElem?]
  obtain ⟨i, hi, rfl⟩ := List.getElem_of_mem hx
  refine ⟨i, ?_, List.getElem?_eq_getElem hi⟩
  rintro rfl; exact hne rfl

theorem key_not_mem_removeAt {xs : List α} {f : α → β} {k : Nat} (h : k < xs.length)
    (hn : (xs.map f).Nodup) : ∀ x ∈ removeAt xs k, f x ≠ f xs[k] := by
  intro x hx he
  rw [(removeAt_perm h).mem_iff, List.mem_eraseIdx_iff_getElem?] at hx
  obtain ⟨i, hik, hi⟩ := hx
  obtain ⟨hi', rfl⟩ := List.getElem?_eq_some_iff.mp hi
  apply hik
  have := @List.Nodup.getElem_inj_iff _ _ hn i (by simpa using hi') k (by simpa using h)
  exact this.mp (by simpa using he)

theorem nodup_map_removeAt {xs : List α} {f : α → β} {k : Nat} (hn : (xs.map f).Nodup) :
    ((removeAt xs k).map f).Nodup := by
  by_cases h : k < xs.length
  · rw [((removeAt_perm h).map f).nodup_iff]
    exact hn.sublist ((List.eraseIdx_sublist xs k).map f)
  · unfold removeAt
    split
    · rw [List.set_eq_of_length_le (Nat.le_of_not_lt h)]
      exact hn.sublist ((List.dropLast_sublist xs).map f)
    · exact hn

/-! ## Traversing -/

theorem getElem?_eq_some_getD {xs : List α} {k : Nat} (h : k < xs.length) (d : α) :
    xs[k]? = some (xs.getD k d) := by
  rw [List.getD_eq_getElem?_getD, List.getElem?_eq_getElem h]; rfl

theorem set_of_getElem? {xs : List α} {k : Nat} {x : α} (h : xs[k]? = some x) : xs.set k x = xs := by
  obtain ⟨hlt, rfl⟩ := List.getElem?_eq_some_iff.mp h
  exact List.set_getElem_self hlt

theorem forall_mem_take_succ {xs : List α} {k : Nat} {x : α} {P : α → Prop} (hx : xs[k]? = some x)
    (h : ∀ y ∈ xs.take k, P y) (hP : P x) : ∀ y ∈ xs.take (k + 1), P y := by
  intro y hy
  rw [List.take_add_one, hx] at hy
  rcases List.mem_append.mp hy with hy | hy
  · exact h y hy
  · obtain rfl : y = x := by simpa using hy
    exact hP

end VecEdit
