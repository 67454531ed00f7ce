import JamSAT.VecEdit
import Mathlib.Logic.Function.Basic

/-!
# Keyed items spread over lists

A family of lists holds items, each identified by a key. `Placed` says that no
key occurs twice anywhere, that only permitted keys occur and that the required
ones do. The edits are those of a vector: an item is appended to one list, or
removed from one by overwriting it with the last item of that list.
-/

namespace KeyedLists

open VecEdit

variable {P α K : Type*} {key : α → K}

structure Placed (key : α → K) (may must : K → Prop) (lists : P → List α) : Prop where
  nodup : ∀ p, ((lists p).map key).Nodup
  unique : ∀ p q, ∀ x ∈ lists p, ∀ y ∈ lists q, key x = key y → p = q
  sound : ∀ p, ∀ x ∈ lists p, may (key x)
  complete : ∀ k, must k → ∃ p, ∃ x ∈ lists p, key x = k

namespace Placed

variable {may must : K → Prop} {lists : P → List α} (h : Placed key may must lists)
include h

theorem mono {may' must' : K → Prop} (h₁ : ∀ k, may k → may' k) (h₂ : ∀ k, must' k → must k) :
    Placed key may' must' lists :=
  ⟨h.nodup, h.unique, fun p x hx => h₁ _ (h.sound p x hx), fun k hk => h.complete k (h₂ k hk)⟩

theorem of_perm {lists' : P → List α} (hp : ∀ p, (lists' p).Perm (lists p)) : Placed key may must lists' where
  nodup p := ((hp p).map key).nodup_iff.mpr (h.nodup p)
  unique p q x hx y hy := h.unique p q x ((hp p).mem_iff.mp hx) y ((hp q).mem_iff.mp hy)
  sound p x hx := h.sound p x ((hp p).mem_iff.mp hx)
  complete k hk := by
    obtain ⟨p, x, hx, rfl⟩ := h.complete k hk
    exact ⟨p, x, (hp p).mem_iff.mpr hx, rfl⟩

theorem eq_of_key_eq {p q : P} {x y : α} (hx : x ∈ lists p) (hy : y ∈ lists q) (hk : key x = key y) :
    x = y := by
  obtain rfl := h.unique p q x hx y hy hk
  exact List.inj_on_of_nodup_map (h.nodup p) hx hy hk

end Placed

variable [DecidableEq P]

def push (lists : P → List α) (p : P) (x : α) : P → List α := Function.update lists p (lists p ++ [x])

def erase (lists : P → List α) (p : P) (i : Nat) : P → List α :=
  Function.update lists p (removeAt (lists p) i)

theorem mem_push {lists : P → List α} {p q : P} {x y : α} :
    y ∈ push lists p x q ↔ y ∈ lists q ∨ q = p ∧ y = x := by
  by_cases h : q = p
  · subst h; simp [push]
  · simp [push, h]

theorem mem_of_mem_erase {lists : P → List α} {p q : P} {i : Nat} {x : α} (h : x ∈ erase lists p i q) :
    x ∈ lists q := by
  by_cases hq : q = p
  · subst hq
    simp only [erase, Function.update_self] at h
    exact mem_of_mem_removeAt h
  · simpa [erase, hq] using h

theorem erase_of_ne {lists : P → List α} {p q : P} {i : Nat} (h : q ≠ p) : erase lists p i q = lists q := by
  simp [erase, h]

theorem erase_self {lists : P → List α} {p : P} {i : Nat} : erase lists p i p = removeAt (lists p) i := by
  simp [erase]

theorem push_of_ne {lists : P → List α} {p q : P} {x : α} (h : q ≠ p) : push lists p x q = lists q := by
  simp [push, h]

theorem erase_push_perm {lists : P → List α} {p q : P} {i : Nat} {x : α} (hi : i < (lists p).length)
    (r : P) : (erase (push lists q x) p i r).Perm (push (erase lists p i) q x r) := by
  by_cases hr : r = p
  · subst hr
    by_cases hq : r = q
    · subst hq
      simp only [erase, push, Function.update_self]
      refine (removeAt_perm (by simp; omega)).trans ?_
      rw [List.eraseIdx_append_of_lt_length hi]
      exact (removeAt_perm hi).symm.append_right _
    · simp [erase, push, hq]
  · by_cases hq : r = q
    · subst hq; simp [erase, push, hr]
    · simp [erase, push, hr, hq]

namespace Placed

variable {may must : K → Prop} {lists : P → List α}
  (h : Placed key may must lists)
include h

theorem push {p : P} {x : α} (hnew : ∀ q, ∀ y ∈ lists q, key y ≠ key x) (hx : may (key x)) :
    Placed key may (fun k => must k ∨ k = key x) (push lists p x) where
  nodup q := by
    by_cases hq : q = p
    · subst hq
      simp only [KeyedLists.push, Function.update_self, List.map_append, List.map_singleton]
      refine List.nodup_append.mpr ⟨h.nodup q, List.nodup_singleton _, ?_⟩
      intro a ha b hb
      obtain ⟨y, hy, rfl⟩ := List.mem_map.mp ha
      rw [List.mem_singleton.mp hb]; exact hnew q y hy
    · rw [push_of_ne hq]; exact h.nodup q
  unique q r y hy z hz hk := by
    rcases mem_push.mp hy with hy' | ⟨rfl, rfl⟩ <;> rcases mem_push.mp hz with hz' | ⟨rfl, rfl⟩
    · exact h.unique q r y hy' z hz' hk
    · exact absurd hk (hnew q y hy')
    · exact absurd hk.symm (hnew r z hz')
    · rfl
  sound q y hy := by
    rcases mem_push.mp hy with hy | ⟨-, rfl⟩
    · exact h.sound q y hy
    · exact hx
  complete k hk := by
    rcases hk with hk | rfl
    · obtain ⟨q, y, hy, rfl⟩ := h.complete k hk
      exact ⟨q, y, mem_push.mpr (.inl hy), rfl⟩
    · exact ⟨p, x, mem_push.mpr (.inr ⟨rfl, rfl⟩), rfl⟩

theorem key_ne_of_mem_erase {p q : P} {i : Nat} {x y : α} (hx : (lists p)[i]? = some x)
    (hy : y ∈ KeyedLists.erase lists p i q) : key y ≠ key x := by
  obtain ⟨hi, rfl⟩ := List.getElem?_eq_some_iff.mp hx
  by_cases hq : q = p
  · subst hq
    rw [erase_self] at hy
    exact key_not_mem_removeAt hi (h.nodup q) y hy
  · intro hk
    exact hq (h.unique q p y (mem_of_mem_erase hy) _ (List.getElem_mem hi) hk)

theorem erase {p : P} {i : Nat} {x : α} (hx : (lists p)[i]? = some x) :
    Placed key (fun k => may k ∧ k ≠ key x) (fun k => must k ∧ k ≠ key x) (erase lists p i) where
  nodup q := by
    by_cases hq : q = p
    · subst hq; rw [erase_self]; exact nodup_map_removeAt (h.nodup q)
    · rw [erase_of_ne hq]; exact h.nodup q
  unique q r y hy z hz := h.unique q r y (mem_of_mem_erase hy) z (mem_of_mem_erase hz)
  sound q y hy := ⟨h.sound q y (mem_of_mem_erase hy), h.key_ne_of_mem_erase hx hy⟩
  complete k hk := by
    obtain ⟨q, y, hy, rfl⟩ := h.complete k hk.1
    refine ⟨q, y, ?_, rfl⟩
    by_cases hq : q = p
    · subst hq
      obtain ⟨hi, rfl⟩ := List.getElem?_eq_some_iff.mp hx
      rw [erase_self]
      exact mem_removeAt_of_ne hi hy fun e => hk.2 (congrArg key e)
    · rw [erase_of_ne hq]; exact hy

/-- An item is replaced by one with its key at the end of some list. -/
theorem relocate {p q : P} {i : Nat} {x y : α} (hx : (lists p)[i]? = some x) (hy : key y = key x) :
    Placed key may must (KeyedLists.erase (KeyedLists.push lists q y) p i) := by
  obtain ⟨hi, -⟩ := List.getElem?_eq_some_iff.mp hx
  have hmay : may (key y) := hy ▸ h.sound p x (List.mem_of_getElem? hx)
  have he : Placed key may (fun k => must k ∧ k ≠ key x) (KeyedLists.erase lists p i) :=
    (h.erase hx).mono (fun _ hk => hk.1) fun _ hk => hk
  have hp := he.push (p := q) (x := y) (fun r z hz => by rw [hy]; exact h.key_ne_of_mem_erase hx hz) hmay
  refine (hp.of_perm (erase_push_perm hi)).mono (fun _ hk => hk) fun k hk => ?_
  by_cases hkx : k = key x
  · exact .inr (hkx.trans hy.symm)
  · exact .inl ⟨hk, hkx⟩

theorem mem_relocate {p q r : P} {i : Nat} {x y z : α} (hx : (lists p)[i]? = some x)
    (hz : z ∈ KeyedLists.erase (KeyedLists.push lists q y) p i r) :
    z ∈ lists r ∧ key z ≠ key x ∨ r = q ∧ z = y := by
  obtain ⟨hi, -⟩ := List.getElem?_eq_some_iff.mp hx
  rcases mem_push.mp ((erase_push_perm hi r).mem_iff.mp hz) with hz | hz
  · exact .inl ⟨mem_of_mem_erase hz, h.key_ne_of_mem_erase hx hz⟩
  · exact .inr hz

end Placed

end KeyedLists
