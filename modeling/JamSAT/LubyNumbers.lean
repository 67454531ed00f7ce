import Mathlib.Algebra.BigOperators.Group.Finset.Basic
import Mathlib.Algebra.Order.BigOperators.Group.Finset
import Mathlib.Data.Nat.Log
import Mathlib.Tactic.Ring

/-!
# Luby numbers

The Luby numbers by their recursion, and as the second components of pairs `(u, 2 ^ e)`:
`e` runs up to the exponent of the highest power of two that divides `u`, then `u` is
increased. The pairs after `(2 ^ m, 2 ^ m)` are those from the start, moved by `2 ^ m`.
-/

namespace LubyNumbers

def luby (i : Nat) : Nat :=
  if i = 0 then 0
  else if i + 1 = 2 ^ (Nat.log 2 i + 1) then 2 ^ Nat.log 2 i
  else luby (i - 2 ^ Nat.log 2 i + 1)
termination_by i
decreasing_by
  rename_i hi hne
  have hle : 2 ^ Nat.log 2 i ≤ i := Nat.pow_log_le_self 2 hi
  cases hl : Nat.log 2 i with
  | zero =>
    have hlt : i < 2 ^ (Nat.log 2 i + 1) := Nat.lt_pow_succ_log_self (by omega) i
    rw [hl] at hlt hne
    omega
  | succ l =>
    have hpos : 0 < 2 ^ l := Nat.pow_pos (by omega)
    rw [hl, pow_succ] at hle
    rw [pow_succ]
    omega

theorem log_eq {k i : Nat} (hk : 2 ^ k ≤ i) (hi : i + 1 ≤ 2 ^ (k + 1)) : Nat.log 2 i = k :=
  Nat.log_eq_of_pow_le_of_lt_pow hk hi

theorem luby_of_eq {k i : Nat} (h : i + 1 = 2 ^ (k + 1)) : luby i = 2 ^ k := by
  have hpos : 0 < 2 ^ k := Nat.pow_pos (by omega)
  have hs : 2 ^ (k + 1) = 2 ^ k + 2 ^ k := by rw [pow_succ, mul_two]
  rw [luby, log_eq (k := k) (by omega) (by omega), if_neg (by omega), if_pos h]

theorem luby_of_lt {k i : Nat} (hk : 2 ^ k ≤ i) (hi : i + 1 < 2 ^ (k + 1)) : luby i = luby (i - 2 ^ k + 1) := by
  have hpos : 0 < 2 ^ k := Nat.pow_pos (by omega)
  rw [luby, log_eq hk hi.le, if_neg (by omega), if_neg hi.ne]

/-! ## Pairs -/

/-- `(u, e)` stands for the pair `(u, 2 ^ e)`. -/
def next (s : Nat × Nat) : Nat × Nat := if 2 ^ (s.2 + 1) ∣ s.1 then (s.1, s.2 + 1) else (s.1 + 1, 0)

def pair (n : Nat) : Nat × Nat := next^[n] (1, 0)

@[simp] theorem pair_zero : pair 0 = (1, 0) := rfl

theorem pair_succ (n : Nat) : pair (n + 1) = next (pair n) := Function.iterate_succ_apply' next n (1, 0)

theorem pair_dvd (n : Nat) : 2 ^ (pair n).2 ∣ (pair n).1 := by
  cases n with
  | zero => simp
  | succ n =>
    rw [pair_succ, next]
    split
    · assumption
    · exact one_dvd _

theorem pair_pos (n : Nat) : 0 < (pair n).1 := by
  induction n with
  | zero => simp
  | succ n ih =>
    rw [pair_succ, next]
    split
    · exact ih
    · exact Nat.succ_pos _

/-- Adding a higher power of two does not change how a pair goes on. -/
theorem next_add {m u e : Nat} (h : e < m) : next (2 ^ m + u, e) = (2 ^ m + (next (u, e)).1, (next (u, e)).2) := by
  have hd : 2 ^ (e + 1) ∣ 2 ^ m := pow_dvd_pow 2 h
  unfold next
  simp only [Nat.dvd_add_right hd]
  split
  · rfl
  · rfl

structure Block (m : Nat) : Prop where
  last : pair (2 ^ (m + 1) - 2) = (2 ^ m, m)
  lt : ∀ j < 2 ^ (m + 1) - 2, (pair j).2 < m
  le : ∀ j ≤ 2 ^ (m + 1) - 2, (pair j).1 ≤ 2 ^ m

theorem Block.exponent_le {m j : Nat} (h : Block m) (hj : j ≤ 2 ^ (m + 1) - 2) : (pair j).2 ≤ m := by
  cases Nat.lt_or_eq_of_le hj with
  | inl hlt => exact (h.lt j hlt).le
  | inr heq => rw [heq, h.last]

theorem Block.shift {m : Nat} (h : Block m) {j : Nat} (hj : j ≤ 2 ^ (m + 1) - 2) :
    pair (2 ^ (m + 1) - 1 + j) = (2 ^ m + (pair j).1, (pair j).2) := by
  have hpos : 0 < 2 ^ m := Nat.pow_pos (by omega)
  have hs : 2 ^ (m + 1) = 2 ^ m + 2 ^ m := by rw [pow_succ, mul_two]
  induction j with
  | zero =>
    -- `2 ^ m` is used up, the next pair is `(2 ^ m + 1, 1)`
    have hn : ¬ 2 ^ (m + 1) ∣ 2 ^ m := fun hd => absurd (Nat.le_of_dvd hpos hd) (by omega)
    rw [show 2 ^ (m + 1) - 1 + 0 = 2 ^ (m + 1) - 2 + 1 by omega, pair_succ, h.last, next, if_neg hn]
    rfl
  | succ j ih => rw [← Nat.add_assoc, pair_succ, ih (by omega), next_add (h.lt j (by omega)), pair_succ]

theorem block_zero : Block 0 where
  last := rfl
  lt j hj := absurd hj (by simp)
  le j hj := by
    obtain rfl : j = 0 := by simpa using hj
    simp

theorem Block.succ {m : Nat} (h : Block m) : Block (m + 1) := by
  have hpos : 0 < 2 ^ m := Nat.pow_pos (by omega)
  have hs : 2 ^ (m + 1) = 2 ^ m + 2 ^ m := by rw [pow_succ, mul_two]
  have hss : 2 ^ (m + 1 + 1) = 2 ^ (m + 1) + 2 ^ (m + 1) := by rw [pow_succ, mul_two]
  have hlow : ∀ j ≤ 2 ^ (m + 1 + 1) - 3, (pair j).2 ≤ m ∧ (pair j).1 ≤ 2 ^ (m + 1) := by
    intro j hj
    by_cases hb : j ≤ 2 ^ (m + 1) - 2
    · exact ⟨h.exponent_le hb, (h.le j hb).trans (by omega)⟩
    · obtain ⟨i, rfl⟩ : ∃ i, j = 2 ^ (m + 1) - 1 + i := Nat.exists_eq_add_of_le (by omega)
      have hi : i ≤ 2 ^ (m + 1) - 2 := by omega
      rw [h.shift hi]
      exact ⟨h.exponent_le hi, by have := h.le i hi; simp only; omega⟩
  have hlast : pair (2 ^ (m + 1 + 1) - 2) = (2 ^ (m + 1), m + 1) := by
    have he : 2 ^ (m + 1 + 1) - 2 = 2 ^ (m + 1) - 1 + (2 ^ (m + 1) - 2) + 1 := by omega
    rw [he, pair_succ, h.shift le_rfl, h.last, next, if_pos (by simp only; rw [← hs])]
    simp only [← hs]
  refine ⟨hlast, fun j hj => ?_, fun j hj => ?_⟩
  · exact Nat.lt_succ_of_le (hlow j (by omega)).1
  · by_cases he : j = 2 ^ (m + 1 + 1) - 2
    · rw [he, hlast]
    · exact (hlow j (by omega)).2

theorem block (m : Nat) : Block m := by
  induction m with
  | zero => exact block_zero
  | succ m ih => exact ih.succ

/-- The pairs carry the Luby numbers. -/
theorem luby_eq (n : Nat) : luby (n + 1) = 2 ^ (pair n).2 := by
  induction n using Nat.strong_induction_on with
  | h n ih =>
    obtain ⟨k, hk⟩ : ∃ k, Nat.log 2 (n + 1) = k := ⟨_, rfl⟩
    have hle : 2 ^ k ≤ n + 1 := hk ▸ Nat.pow_log_le_self 2 (Nat.succ_ne_zero n)
    have hlt : n + 1 < 2 ^ (k + 1) := hk ▸ Nat.lt_pow_succ_log_self (by omega) (n + 1)
    by_cases he : n + 1 + 1 = 2 ^ (k + 1)
    · rw [luby_of_eq he, show n = 2 ^ (k + 1) - 2 by omega, (block k).last]
    · cases k with
      | zero => omega
      | succ m =>
        obtain ⟨j, hj⟩ : ∃ j, n = 2 ^ (m + 1) - 1 + j := Nat.exists_eq_add_of_le (by omega)
        have hpos : 0 < 2 ^ m := Nat.pow_pos (by omega)
        have hs : 2 ^ (m + 1) = 2 ^ m + 2 ^ m := by rw [pow_succ, mul_two]
        have hss : 2 ^ (m + 1 + 1) = 2 ^ (m + 1) + 2 ^ (m + 1) := by rw [pow_succ, mul_two]
        have hb : j ≤ 2 ^ (m + 1) - 2 := by omega
        rw [luby_of_lt hle (by omega), show n + 1 - 2 ^ (m + 1) + 1 = j + 1 by omega, ih j (by omega), hj,
          (block m).shift hb]

theorem luby_pos (n : Nat) : 0 < luby (n + 1) := luby_eq n ▸ Nat.pow_pos (by omega)

/-! ## Sums -/

open Finset in
def lubySum (n : Nat) : Nat := ∑ i ∈ range n, luby (i + 1)

@[simp] theorem lubySum_zero : lubySum 0 = 0 := rfl

theorem lubySum_succ (n : Nat) : lubySum (n + 1) = lubySum n + luby (n + 1) := Finset.sum_range_succ _ n

theorem lubySum_strictMono : StrictMono lubySum :=
  strictMono_nat_of_lt_succ fun n => lubySum_succ n ▸ Nat.lt_add_of_pos_right (luby_pos n)

theorem le_lubySum (n : Nat) : n ≤ lubySum n := lubySum_strictMono.id_le n

/-- The powers below `2 ^ e` come right before it, and `u > 1` is not the first. -/
theorem two_mul_le_lubySum (n : Nat) : 2 * 2 ^ (pair n).2 ≤ lubySum (n + 1) + 1 ∧
    (1 < (pair n).1 → 2 * 2 ^ (pair n).2 ≤ lubySum (n + 1)) := by
  induction n with
  | zero => simp [lubySum_succ, luby_eq]
  | succ n ih =>
    have hpos := pair_pos n
    have hsum := le_lubySum (n + 1)
    rw [lubySum_succ (n + 1), luby_eq (n + 1), pair_succ, next]
    split
    · rename_i hd
      have hu : 2 ^ ((pair n).2 + 1) ≤ (pair n).1 := Nat.le_of_dvd hpos hd
      have he : 0 < 2 ^ (pair n).2 := Nat.pow_pos (by omega)
      rw [pow_succ] at hu
      have := ih.2 (by omega)
      simp only [pow_succ]
      omega
    · simp only [pow_zero]
      omega

theorem luby_le_lubySum (n : Nat) : luby (n + 1 + 1) ≤ lubySum (n + 1) := by
  have hsum := le_lubySum (n + 1)
  rw [luby_eq, pair_succ, next]
  split
  · rename_i hd
    have hu : 2 ^ ((pair n).2 + 1) ≤ (pair n).1 := Nat.le_of_dvd (pair_pos n) hd
    have he : 0 < 2 ^ (pair n).2 := Nat.pow_pos (by omega)
    rw [pow_succ] at hu ⊢
    have := (two_mul_le_lubySum n).2 (by omega)
    omega
  · rw [pow_zero]
    omega

/-! ## Lowest set bits -/

theorem and_neg_eq_iff {w u e : Nat} (he : e < w) (hd : 2 ^ e ∣ u) :
    BitVec.ofNat w u &&& -BitVec.ofNat w u = BitVec.ofNat w (2 ^ e) ↔ ¬ 2 ^ (e + 1) ∣ u := by
  have hlow : ∀ i < e, u.testBit i = false := by
    intro i hi
    obtain ⟨q, rfl⟩ := hd
    rw [Nat.testBit_two_pow_mul]
    simp [Nat.not_le.mpr hi]
  have hbit : u.testBit e = true ↔ ¬ 2 ^ (e + 1) ∣ u := by
    obtain ⟨q, rfl⟩ := hd
    rw [Nat.testBit_two_pow_mul, pow_succ, Nat.mul_dvd_mul_iff_left (Nat.pow_pos (by omega))]
    simp [Nat.dvd_iff_mod_eq_zero]
  rw [← hbit]
  constructor
  · intro h
    have hget := congrArg (fun x => x.getLsbD e) h
    simp only [BitVec.getLsbD_and, BitVec.getLsbD_ofNat, Nat.testBit_two_pow_self, he, decide_true, Bool.and_true,
      Bool.true_and, Bool.and_eq_true] at hget
    exact hget.1
  · intro h
    apply BitVec.eq_of_getLsbD_eq
    intro i hi
    have hbelow : decide (∃ j < i, (BitVec.ofNat w u).getLsbD j = true) = decide (e < i) := by
      apply decide_eq_decide.mpr
      constructor
      · intro ⟨j, hj, hset⟩
        rw [BitVec.getLsbD_ofNat, Bool.and_eq_true] at hset
        by_contra hle
        rw [hlow j (by omega)] at hset
        exact absurd hset.2 Bool.false_ne_true
      · intro hlt
        exact ⟨e, hlt, by rw [BitVec.getLsbD_ofNat, h, decide_eq_true he]; rfl⟩
    rw [BitVec.getLsbD_and, BitVec.getLsbD_neg, hbelow]
    simp only [BitVec.getLsbD_ofNat, hi, decide_true, Bool.true_and]
    rcases Nat.lt_trichotomy i e with hlt | heq | hgt
    · simp [hlow i hlt, Nat.testBit_two_pow_of_ne hlt.ne']
    · simp [heq, h]
    · simp [hgt, Nat.testBit_two_pow_of_ne hgt.ne]

end LubyNumbers
