import Mathlib.Algebra.Group.Basic
import Mathlib.Data.Finset.Basic

/-!
# Variables, literals and truth values

Variables are their raw values. A literal keeps its variable and sign apart;
`rawValue` is the packed 32-bit value by which literals are ordered.
-/

namespace JamSAT

inductive CNFSign
  | negative
  | positive
  deriving DecidableEq, Repr

namespace CNFSign

def invert : CNFSign → CNFSign
  | negative => positive
  | positive => negative

def rawValue : CNFSign → Nat
  | negative => 0
  | positive => 1

@[simp] theorem invert_invert (s : CNFSign) : s.invert.invert = s := by cases s <;> rfl

@[simp] theorem invert_ne (s : CNFSign) : s.invert ≠ s := by cases s <;> simp [invert]

end CNFSign

abbrev CNFVar := Nat

/-- The raw value of `getUndefinedVariable()`: `INT_MAX >> 1`. -/
def CNFVar.undefinedVariable : Nat := 1073741823

structure CNFLit where
  var : Nat
  sign : CNFSign
  deriving DecidableEq, Repr

namespace CNFLit

def undefinedLiteral : CNFLit := ⟨CNFVar.undefinedVariable, .positive⟩

instance : Inhabited CNFLit := ⟨undefinedLiteral⟩

def rawValue (l : CNFLit) : Nat := 2 * l.var + l.sign.rawValue

instance : InvolutiveNeg CNFLit where
  neg l := ⟨l.var, l.sign.invert⟩
  neg_neg l := by simp

@[simp] theorem var_neg (l : CNFLit) : (-l).var = l.var := rfl

@[simp] theorem sign_neg (l : CNFLit) : (-l).sign = l.sign.invert := rfl

@[simp] theorem neg_ne_self (l : CNFLit) : -l ≠ l := fun h => l.sign.invert_ne (congrArg sign h)

@[simp] theorem self_ne_neg (l : CNFLit) : l ≠ -l := (neg_ne_self l).symm

theorem eq_or_eq_neg_of_var_eq {l m : CNFLit} (h : l.var = m.var) : l = m ∨ l = -m := by
  obtain ⟨v, s⟩ := l
  obtain ⟨w, t⟩ := m
  obtain rfl : v = w := h
  cases s <;> cases t
  · exact .inl rfl
  · exact .inr rfl
  · exact .inr rfl
  · exact .inl rfl

theorem rawValue_injective : Function.Injective rawValue := by
  rintro ⟨v, s⟩ ⟨w, t⟩ h
  cases s <;> cases t <;> simp [rawValue, CNFSign.rawValue] at h ⊢ <;> omega

end CNFLit

/-- `INDETERMINATE` stands for both underlying values above 1. -/
inductive TBool
  | FALSE
  | TRUE
  | INDETERMINATE
  deriving DecidableEq, Repr

namespace TBool

def negate : TBool → TBool
  | FALSE => TRUE
  | TRUE => FALSE
  | INDETERMINATE => INDETERMINATE

def isDeterminate (b : TBool) : Bool := b != INDETERMINATE

def isTrue (b : TBool) : Bool := b == TRUE

def isFalse (b : TBool) : Bool := b == FALSE

def ofSign : CNFSign → TBool
  | .negative => FALSE
  | .positive => TRUE

/-- `value ^ (1 - sign)` on the underlying value. -/
def xorSign (b : TBool) : CNFSign → TBool
  | .positive => b
  | .negative => b.negate

@[simp] theorem isTrue_iff {b : TBool} : b.isTrue = true ↔ b = TRUE := by simp [isTrue]

@[simp] theorem isFalse_iff {b : TBool} : b.isFalse = true ↔ b = FALSE := by simp [isFalse]

@[simp] theorem isDeterminate_iff {b : TBool} : b.isDeterminate = true ↔ b ≠ INDETERMINATE := by
  simp [isDeterminate]

@[simp] theorem negate_negate (b : TBool) : b.negate.negate = b := by cases b <;> rfl

theorem xorSign_invert (b : TBool) (s : CNFSign) : b.xorSign s.invert = (b.xorSign s).negate := by
  cases s <;> simp [xorSign, CNFSign.invert]

theorem xorSign_ofSign (s : CNFSign) : (ofSign s).xorSign s = TRUE := by cases s <;> rfl

end TBool

end JamSAT
