import Mathlib.Data.List.Basic
import Mathlib.Data.Nat.Bitwise

/-!
# Little-endian base-128 numbers

A number is written in groups of seven bits, lowest group first. All bytes but the
last one have their high bit set. The last group may be zero in what is accepted;
`encode` writes no such group, except for the number zero.
-/

namespace Base128

inductive IsNumber : List UInt8 → Nat → Prop
  | last {b : UInt8} (h : b.toNat < 128) : IsNumber [b] b.toNat
  | more {b : UInt8} {bytes : List UInt8} {n : Nat} (h : 128 ≤ b.toNat) (hn : IsNumber bytes n) :
    IsNumber (b :: bytes) (b.toNat - 128 + 128 * n)

variable {bytes bytes' rest rest' : List UInt8} {n n' : Nat}

/-- Where a number begins, it also ends in only one way. -/
theorem IsNumber.unique (h : IsNumber bytes n) (h' : IsNumber bytes' n') (he : bytes ++ rest = bytes' ++ rest') :
    bytes = bytes' ∧ n = n' ∧ rest = rest' := by
  induction h generalizing bytes' n' with
  | last hb =>
    cases h' with
    | last =>
      obtain ⟨rfl, rfl⟩ := List.cons.inj he
      exact ⟨rfl, rfl, rfl⟩
    | more hb' =>
      obtain ⟨rfl, -⟩ := List.cons.inj he
      omega
  | more hb _ ih =>
    cases h' with
    | last hb' =>
      obtain ⟨rfl, -⟩ := List.cons.inj he
      omega
    | more hb' hn' =>
      obtain ⟨rfl, htail⟩ := List.cons.inj he
      obtain ⟨rfl, rfl, rfl⟩ := ih hn' htail
      exact ⟨rfl, rfl, rfl⟩

def encode (n : Nat) : List UInt8 :=
  if n < 128 then [UInt8.ofNat n] else UInt8.ofNat (n % 128 + 128) :: encode (n / 128)

theorem toNat_ofNat {n : Nat} (h : n < 256) : (UInt8.ofNat n).toNat = n := by
  rw [UInt8.toNat_ofNat', Nat.mod_eq_of_lt h]

theorem isNumber_encode (n : Nat) : IsNumber (encode n) n := by
  induction n using Nat.strongRecOn with
  | ind n ih =>
    rw [encode]
    split
    · rename_i h
      have hb := toNat_ofNat (n := n) (by omega)
      have hlast := IsNumber.last (b := UInt8.ofNat n) (by omega)
      rwa [hb] at hlast
    · rename_i h
      have hb := toNat_ofNat (n := n % 128 + 128) (by omega)
      have hmore := IsNumber.more (b := UInt8.ofNat (n % 128 + 128)) (by omega) (ih (n / 128) (by omega))
      have hval : (UInt8.ofNat (n % 128 + 128)).toNat - 128 + 128 * (n / 128) = n := by omega
      rwa [hval] at hmore

theorem length_encode_le {k : Nat} : ∀ {n : Nat}, n < 128 ^ (k + 1) → (encode n).length ≤ k + 1 := by
  induction k with
  | zero =>
    intro n hn
    have hlt : n < 128 := hn.trans_eq (Nat.pow_one 128)
    rw [encode, if_pos hlt]
    exact le_rfl
  | succ k ih =>
    intro n hn
    rw [encode]
    split
    · exact Nat.le_add_left 1 _
    · have hlt : n / 128 < 128 ^ (k + 1) := by
        rw [Nat.div_lt_iff_lt_mul (by decide)]
        exact hn.trans_eq (Nat.pow_succ 128 (k + 1))
      exact Nat.succ_le_succ (ih hlt)

theorem zero_not_mem_encode {n : Nat} (hn : 0 < n) : 0 ∉ encode n := by
  induction n using Nat.strongRecOn with
  | ind n ih =>
    have hne : ∀ m, 0 < m → m < 256 → (0 : UInt8) ≠ UInt8.ofNat m := by
      intro m hm hlt he
      have hz := congrArg UInt8.toNat he
      rw [toNat_ofNat hlt] at hz
      exact absurd hz hm.ne
    rw [encode]
    split
    · rename_i h
      rw [List.mem_singleton]
      exact hne n hn (by omega)
    · rename_i h
      rw [List.mem_cons, not_or]
      exact ⟨hne _ (by omega) (by omega), ih (n / 128) (by omega) (by omega)⟩

end Base128
