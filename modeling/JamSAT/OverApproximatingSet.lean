import Mathlib.Logic.Function.Basic
import Mathlib.Data.Fintype.Basic

/-!
# Over-approximating sets

Sets of indices of which only the remainders modulo 64 are kept.
-/

namespace JamSAT

/-- `OverApproximatingSet<64, Key>`. -/
structure OverApproximatingSet where
  approximatedSet : Fin 64 → Bool

namespace OverApproximatingSet

def empty : OverApproximatingSet := ⟨fun _ => false⟩

def insert (s : OverApproximatingSet) (i : Nat) : OverApproximatingSet :=
  ⟨Function.update s.approximatedSet (Fin.ofNat 64 i) true⟩

def mightContain (s : OverApproximatingSet) (i : Nat) : Bool := s.approximatedSet (Fin.ofNat 64 i)

def mightBeSubsetOf (s set : OverApproximatingSet) : Bool :=
  decide (∀ i, (s.approximatedSet i && !set.approximatedSet i) = false)

theorem mightBeSubsetOf_iff {s set : OverApproximatingSet} :
    s.mightBeSubsetOf set = true ↔ ∀ i, s.approximatedSet i = true → set.approximatedSet i = true := by
  unfold mightBeSubsetOf
  rw [decide_eq_true_iff]
  apply forall_congr'
  intro i
  cases s.approximatedSet i <;> cases set.approximatedSet i <;> decide

end OverApproximatingSet

end JamSAT
