import JamSAT.CNFLiteral
import Mathlib.Data.List.GetD
import JamSAT.VecEdit

/-!
# Clauses and watchers

`Clause` keeps the literals and the three flags of the clause record. Clauses
are shared mutable objects; `ClauseRef` stands for a pointer to one.
-/

namespace JamSAT

open VecEdit

structure Clause where
  lits : List CNFLit
  redundant : Bool
  scheduledForDeletion : Bool
  modified : Bool
  deriving DecidableEq, Repr

abbrev ClauseRef := Nat

theorem val_one_sub (i : Fin 2) : (1 - i).val = 1 - i.val := by revert i; decide

theorem eq_or_eq_one_sub (i j : Fin 2) : j = i ∨ j = 1 - i := by revert i j; decide

namespace Clause

def ofLits (lits : List CNFLit) : Clause := ⟨lits, false, false, false⟩

instance : Inhabited Clause := ⟨ofLits []⟩

def size (c : Clause) : Nat := c.lits.length

def lit (c : Clause) (i : Nat) : CNFLit := c.lits.getD i CNFLit.undefinedLiteral

def swapLits (c : Clause) (i j : Nat) : Clause := { c with lits := swapAt c.lits i j }

def litSet (c : Clause) : Finset CNFLit := c.lits.toFinset

structure WellFormed (c : Clause) : Prop where
  two_le_size : 2 ≤ c.size
  nodup_vars : (c.lits.map CNFLit.var).Nodup

instance (c : Clause) : Decidable c.WellFormed :=
  decidable_of_iff (2 ≤ c.size ∧ (c.lits.map CNFLit.var).Nodup)
    ⟨fun h => ⟨h.1, h.2⟩, fun h => ⟨h.two_le_size, h.nodup_vars⟩⟩

theorem lit_eq {c : Clause} {i : Nat} (h : i < c.size) : c.lits[i]? = some (c.lit i) := by
  unfold size at h
  rw [lit, List.getD_eq_getElem _ _ h, List.getElem?_eq_getElem h]

theorem lit_mem {c : Clause} {i : Nat} (h : i < c.size) : c.lit i ∈ c.lits :=
  List.mem_of_getElem? (lit_eq h)

theorem exists_lit_of_mem {c : Clause} {l : CNFLit} (h : l ∈ c.lits) : ∃ i < c.size, c.lit i = l := by
  obtain ⟨i, hi, rfl⟩ := List.getElem_of_mem h
  exact ⟨i, hi, List.getD_eq_getElem _ _ hi⟩

theorem lit_cases {c : Clause} (i : Fin 2) {x : CNFLit} (hx : x ∈ c.lits) :
    x = c.lit i ∨ x = c.lit (1 - i) ∨ ∃ j, 2 ≤ j ∧ j < c.size ∧ x = c.lit j := by
  obtain ⟨j, hj, rfl⟩ := exists_lit_of_mem hx
  rcases Nat.lt_or_ge j 2 with h2 | h2
  · obtain he | he := eq_or_eq_one_sub i ⟨j, h2⟩
    · exact .inl (by rw [← he])
    · exact .inr (.inl (by rw [← val_one_sub, ← he]))
  · exact .inr (.inr ⟨j, h2, hj, rfl⟩)

@[simp] theorem mem_litSet {c : Clause} {l : CNFLit} : l ∈ c.litSet ↔ l ∈ c.lits := by simp [litSet]

@[simp] theorem swapLits_size (c : Clause) (i j : Nat) : (c.swapLits i j).size = c.size := by
  simp [swapLits, size]

@[simp] theorem mem_swapLits {c : Clause} {i j : Nat} {l : CNFLit} :
    l ∈ (c.swapLits i j).lits ↔ l ∈ c.lits := by simp [swapLits]

theorem swapLits_perm (c : Clause) (i j : Nat) : (c.swapLits i j).lits.Perm c.lits :=
  swapAt_perm _ _ _

theorem swapLits_lit_left {c : Clause} {i j : Nat} (hi : i < c.size) (hj : j < c.size) :
    (c.swapLits i j).lit i = c.lit j := by
  simp [swapLits, lit, List.getD_eq_getElem?_getD, getElem?_swapAt_left hi hj]

theorem swapLits_lit_of_ne {c : Clause} {i j k : Nat} (hi : k ≠ i) (hj : k ≠ j) :
    (c.swapLits i j).lit k = c.lit k := by
  simp [swapLits, lit, List.getD_eq_getElem?_getD, getElem?_swapAt_of_ne hi hj]

namespace WellFormed

variable {c : Clause} (h : c.WellFormed)
include h

theorem nodup : c.lits.Nodup := h.nodup_vars.of_map _

theorem eq_of_var_eq {l m : CNFLit} (hl : l ∈ c.lits) (hm : m ∈ c.lits) (hv : l.var = m.var) : l = m :=
  List.inj_on_of_nodup_map h.nodup_vars hl hm hv

theorem lit_inj {i j : Nat} (hi : i < c.size) (hj : j < c.size) (he : c.lit i = c.lit j) : i = j :=
  (List.getElem?_inj hi h.nodup).mp (by rw [lit_eq hi, lit_eq hj, he])

theorem watch_lt (i : Fin 2) : i.val < c.size := lt_of_lt_of_le i.isLt h.two_le_size

theorem exists_lit_ne (u : CNFLit) : ∃ i : Fin 2, c.lit i ≠ u := by
  by_contra hn
  have hcon : ∀ i : Fin 2, c.lit i = u := fun i => by_contra fun hi => hn ⟨i, hi⟩
  exact absurd (h.lit_inj (h.watch_lt 0) (h.watch_lt 1) ((hcon 0).trans (hcon 1).symm)) (by decide)

theorem of_perm {d : Clause} (hp : d.lits.Perm c.lits) : d.WellFormed where
  two_le_size := by rw [size, hp.length_eq]; exact h.two_le_size
  nodup_vars := (hp.map _).nodup_iff.mpr h.nodup_vars

end WellFormed

end Clause

/-- A watcher: the clause, the index (0 or 1) of the literal it watches, a
blocker literal and a copy of the clause's `REDUNDANT` flag. -/
structure Watcher where
  clause : ClauseRef
  otherWatchedLiteral : CNFLit
  index : Fin 2
  isRedundant : Bool
  deriving DecidableEq, Repr, Inhabited

def Watcher.key (w : Watcher) : ClauseRef × Fin 2 := (w.clause, w.index)

end JamSAT
