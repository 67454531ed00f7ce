import JamSAT.IterableClauseDBSound
import JamSAT.Runs
import Mathlib.Data.List.Perm.Basic

/-!
# Clauses that are shrunk

A clause that has been shrunk has its initial size in the literal past its end. Every operation
keeps it there and within the memory of the clause.
-/

namespace JamSAT

namespace IterableClauseDB

namespace Clause

variable {c : Clause}

/-! ## Erasing -/

theorem size_resize (c : Clause) (newSize : Nat) : (c.resize newSize).m_size = newSize := by
  unfold resize
  split
  · rename_i he
    exact he.symm
  · rfl

/-- The literals are read behind those that are written. -/
theorem replaceErased_eq (steps : Nat) : ∀ (c : Clause) (first replacement : Nat), first + steps ≤ replacement →
    c.replaceErased first replacement steps = { c with
      m_anchor := fun i =>
        if first ≤ i ∧ i < first + steps then c.m_anchor (replacement + (i - first)) else c.m_anchor i } := by
  induction steps with
  | zero =>
    intro c first replacement _
    have hno : ∀ i, ¬ (first ≤ i ∧ i < first + 0) := fun i => by omega
    unfold replaceErased
    simp only [hno, if_false]
  | succ steps ih =>
    intro c first replacement hle
    unfold replaceErased
    rw [ih _ _ _ (by omega)]
    unfold write
    congr 1
    funext i
    dsimp only
    by_cases hi : i = first
    · subst hi
      simp
    · by_cases hin : first + 1 ≤ i ∧ i < first + 1 + steps
      · have hne : replacement + 1 + (i - (first + 1)) ≠ first := by omega
        rw [if_pos hin, if_pos (by omega), Function.update_of_ne hne]
        congr 1
        omega
      · rw [if_neg hin, if_neg (by omega), Function.update_of_ne hi]

theorem erase_eq {pos : Nat} (h : pos < c.m_size) : c.erase pos = c.eraseRange pos (pos + 1) := by
  unfold erase eraseRange
  dsimp only
  rw [Nat.add_sub_cancel_left]
  by_cases hl : pos + 1 = c.m_size
  · rw [if_pos (by omega), hl, Nat.sub_self, replaceErased]
    have he : c.m_size - 1 = pos := by omega
    unfold write
    rw [he, Function.update_eq_self]
  · rw [if_neg (by omega), Nat.sub_sub_self (by omega)]
    rfl

theorem getElem_value_lits (c : Clause) {i : Nat} (hi : i < c.value.lits.length) :
    c.value.lits[i] = c.m_anchor i := by
  simp [value]

/-- The literals behind the range are moved into it from the end. -/
theorem value_eraseRange {first last : Nat} (hle : first ≤ last) (hlast : last ≤ c.m_size) :
    (c.eraseRange first last).value = { c.value with
      lits := c.value.lits.take first ++ c.value.lits.drop (max last (c.m_size - (last - first))) ++
        (c.value.lits.take (max last (c.m_size - (last - first)))).drop last } := by
  have hdist : first + (last - first) = last := by omega
  have hrep : (if c.m_size - (last - first) < first + (last - first) then first + (last - first)
      else c.m_size - (last - first)) = max last (c.m_size - (last - first)) := by
    rw [hdist]
    split <;> omega
  unfold eraseRange
  dsimp only
  rw [hrep]
  generalize hr : max last (c.m_size - (last - first)) = replacement
  rw [replaceErased_eq _ _ _ _ (by omega), value_resize (Nat.sub_le _ _)]
  show ClauseValue.mk _ _ _ = ClauseValue.mk _ _ _
  congr 1
  apply List.ext_getElem
  · simp only [List.length_take, List.length_append, List.length_drop, length_value]
    omega
  · intro i hi hi'
    rw [List.length_take, length_value] at hi
    dsimp only at hi
    simp only [List.getElem_take, List.getElem_append, List.getElem_drop, getElem_value_lits, List.length_take,
      List.length_append, List.length_drop, length_value]
    by_cases h₁ : i < first
    · rw [if_neg (by omega), dif_pos (by omega), dif_pos (by omega)]
    · by_cases h₂ : i < first + (c.m_size - replacement)
      · rw [if_pos (by omega), dif_pos (by omega), dif_neg (by omega)]
        congr 1
        omega
      · rw [if_neg (by omega), dif_neg (by omega)]
        congr 1
        omega

theorem eraseRange_perm {first last : Nat} (hle : first ≤ last) (hlast : last ≤ c.m_size) :
    (c.eraseRange first last).value.lits.take first = c.value.lits.take first ∧
      (c.eraseRange first last).value.lits.Perm (c.value.lits.take first ++ c.value.lits.drop last) := by
  rw [value_eraseRange hle hlast]
  generalize hr : max last (c.m_size - (last - first)) = replacement
  have hlen : (c.value.lits.take first).length = first := by
    rw [List.length_take, length_value]
    omega
  dsimp only
  constructor
  · rw [List.append_assoc, List.take_append_of_le_length hlen.ge, List.take_take, Nat.min_self]
  · rw [List.append_assoc]
    refine List.Perm.append_left _ ?_
    have hsplit : c.value.lits.drop last =
        (c.value.lits.take replacement).drop last ++ c.value.lits.drop replacement := by
      conv_lhs => rw [← List.take_append_drop replacement c.value.lits]
      rw [List.drop_append_of_le_length]
      rw [List.length_take, length_value]
      omega
    rw [hsplit]
    exact List.perm_append_comm

/-! ## The record -/

/-- A clause that was constructed with size `n` in memory with the literals `u`. -/
structure Record (n : Nat) (u : Nat → CNFLit) (c : Clause) : Prop where
  size_le : c.m_size ≤ n
  resized : c.m_resized = true ↔ c.m_size < n
  hidden : c.m_size < n → c.m_anchor c.m_size = sizeLiteral n
  outside : ∀ i, n ≤ i → c.m_anchor i = u i

section
variable {n : Nat} {u : Nat → CNFLit}

theorem Record.constructIn (hn : 1 ≤ n) (u : Nat → CNFLit) : Record n u (constructIn n u) where
  size_le := Nat.le_refl n
  resized := iff_of_false Bool.false_ne_true (Nat.lt_irrefl n)
  hidden h := absurd h (Nat.lt_irrefl n)
  outside i hi := Function.update_of_ne (by omega) _ _

variable (h : Record n u c)
include h

theorem Record.initialSize (hn : n < 2147483648) : c.initialSize = n := by
  unfold Clause.initialSize
  by_cases hlt : c.m_size < n
  · rw [h.resized.mpr hlt, h.hidden hlt]
    exact Nat.mod_eq_of_lt hn
  · rw [Bool.eq_false_of_not_eq_true (mt h.resized.mp hlt)]
    exact Nat.le_antisymm h.size_le (Nat.le_of_not_lt hlt)

theorem Record.resize (hn : n < 2147483648) {newSize : Nat} (hle : newSize ≤ c.m_size) :
    Record n u (c.resize newSize) := by
  by_cases he : newSize = c.m_size
  · unfold Clause.resize
    rwa [if_pos he]
  · have hlt : newSize < n := by
      have := h.size_le
      omega
    unfold Clause.resize
    rw [if_neg he, h.initialSize hn]
    refine ⟨hlt.le, iff_of_true rfl hlt, fun _ => Function.update_self _ _ _, fun i hi => ?_⟩
    show Function.update c.m_anchor newSize (sizeLiteral n) i = u i
    rw [Function.update_of_ne (by omega)]
    exact h.outside i hi

theorem Record.overwrite {anchor : Nat → CNFLit} (ha : ∀ i, c.m_size ≤ i → anchor i = c.m_anchor i) (lbd : Nat)
    (flags : BitVec 15) : Record n u { c with m_lbd := lbd, m_flags := flags, m_anchor := anchor } where
  size_le := h.size_le
  resized := h.resized
  hidden hlt := (ha _ (Nat.le_refl _)).trans (h.hidden hlt)
  outside i hi := (ha i (h.size_le.trans hi)).trans (h.outside i hi)

theorem Record.eraseRange (hn : n < 2147483648) {first last : Nat} (hle : first ≤ last) (hlast : last ≤ c.m_size) :
    Record n u (c.eraseRange first last) := by
  unfold Clause.eraseRange
  dsimp only
  rw [replaceErased_eq _ _ _ _ (by split <;> omega)]
  refine Record.resize (h.overwrite (fun i hi => if_neg ?_) c.m_lbd c.m_flags) hn (Nat.sub_le _ _)
  split <;> omega

theorem Record.assign (hn : n < 2147483648) {other : Clause} (hle : other.m_size ≤ c.m_size) :
    Record n u (c.assign other) := by
  have hr : Record n u ({ c with m_lbd := other.m_lbd, m_flags := other.m_flags }.resize other.m_size) :=
    Record.resize (h.overwrite (fun _ _ => rfl) _ _) hn hle
  unfold Clause.assign
  refine hr.overwrite (fun i hi => if_neg ?_) _ _
  rw [size_resize] at hi
  exact Nat.not_lt.mpr hi

end

/-! ## Sequences of operations -/

inductive Shrink
  | write (index : Nat) (lit : CNFLit)
  | resize (newSize : Nat)
  | erase (pos : Nat)
  | eraseRange (first last : Nat)
  | assign (other : Clause)

namespace Shrink

def apply (c : Clause) : Shrink → Clause
  | .write index lit => c.write index lit
  | .resize newSize => c.resize newSize
  | .erase pos => c.erase pos
  | .eraseRange first last => c.eraseRange first last
  | .assign other => c.assign other

def Allowed (size : Nat) : Shrink → Prop
  | .write index _ => index < size
  | .resize newSize => newSize ≤ size
  | .erase pos => pos < size
  | .eraseRange first last => first ≤ last ∧ last ≤ size
  | .assign other => other.m_size ≤ size

def newSize (size : Nat) : Shrink → Nat
  | .write _ _ => size
  | .resize newSize => newSize
  | .erase _ => size - 1
  | .eraseRange first last => size - (last - first)
  | .assign other => other.m_size

def Result (before after : List CNFLit) : Shrink → Prop
  | .write index lit => after = before.set index lit
  | .resize newSize => after = before.take newSize
  | .erase pos => after.take pos = before.take pos ∧ after.Perm (before.eraseIdx pos)
  | .eraseRange first last =>
    after.take first = before.take first ∧ after.Perm (before.take first ++ before.drop last)
  | .assign other => after = other.value.lits

end Shrink

theorem Record.apply {n : Nat} {u : Nat → CNFLit} (h : Record n u c) (hn : n < 2147483648) {op : Shrink}
    (ha : op.Allowed c.m_size) : Record n u (op.apply c) := by
  cases op with
  | write index lit =>
      exact h.overwrite (fun i hi => Function.update_of_ne (Nat.ne_of_gt (Nat.lt_of_lt_of_le ha hi)) _ _) _ _
  | resize newSize => exact h.resize hn ha
  | erase pos =>
    show Record n u (c.erase pos)
    rw [erase_eq ha]
    exact h.eraseRange hn (Nat.le_succ pos) ha
  | eraseRange first last => exact h.eraseRange hn ha.1 ha.2
  | assign other => exact h.assign hn ha

theorem Shrink.apply_spec {op : Shrink} (ha : op.Allowed c.m_size) :
    (op.apply c).m_size = op.newSize c.m_size ∧ op.Result c.value.lits (op.apply c).value.lits := by
  cases op with
  | write index lit => exact ⟨rfl, congrArg ClauseValue.lits (value_write index lit)⟩
  | resize newSize => exact ⟨size_resize c newSize, congrArg ClauseValue.lits (value_resize ha)⟩
  | erase pos =>
    have hp := eraseRange_perm (Nat.le_succ pos) (Nat.succ_le_of_lt ha)
    rw [← erase_eq ha] at hp
    refine ⟨size_resize _ _, hp.1, ?_⟩
    rw [List.eraseIdx_eq_take_drop_succ]
    exact hp.2
  | eraseRange first last => exact ⟨size_resize _ _, eraseRange_perm ha.1 ha.2⟩
  | assign other =>
    refine ⟨size_resize _ _, ?_⟩
    show (c.assign other).value.lits = _
    unfold Clause.assign value
    dsimp only
    rw [size_resize]
    exact List.map_congr_left fun i hi => if_pos (List.mem_range.mp hi)

/-- The initial size stays behind the last literal in every sequence of operations. -/
theorem record_of_reachable {n : Nat} (hpos : 1 ≤ n) (hn : n ≤ CNFVar.undefinedVariable) {u : Nat → CNFLit}
    (h : Runs.Reachable (fun c => c = Clause.constructIn n u)
      (fun c c' => ∃ op : Shrink, op.Allowed c.m_size ∧ c' = op.apply c) c) :
    Record n u c ∧ c.initialSize = n ∧ ∀ op : Shrink, op.Allowed c.m_size →
      (op.apply c).initialSize = n ∧ (op.apply c).m_size = op.newSize c.m_size ∧
      op.Result c.value.lits (op.apply c).value.lits := by
  have hlt : n < 2147483648 := Nat.lt_of_le_of_lt hn (by decide)
  have hr : Record n u c := by
    refine h.invariant (fun c hc => ?_) (fun c c' hr hs => ?_)
    · rw [hc]
      exact .constructIn hpos u
    · obtain ⟨op, ha, rfl⟩ := hs
      exact hr.apply hlt ha
  refine ⟨hr, hr.initialSize hlt, fun op ha => ⟨(hr.apply hlt ha).initialSize hlt, Shrink.apply_spec ha⟩⟩

def shrunk : Clause := ((constructIn 5 fun i => ⟨i, .positive⟩).resize 4).eraseRange 0 2

theorem shrunk_record : Record 5 (fun i => ⟨i, .positive⟩) shrunk ∧ shrunk.initialSize = 5 ∧
    ∀ op : Shrink, op.Allowed shrunk.m_size →
      (op.apply shrunk).initialSize = 5 ∧ (op.apply shrunk).m_size = op.newSize shrunk.m_size ∧
      op.Result shrunk.value.lits (op.apply shrunk).value.lits :=
  record_of_reachable (by decide) (by decide)
    (.step (.step (.init rfl) ⟨.resize 4, show 4 ≤ 5 by decide, rfl⟩)
      ⟨.eraseRange 0 2, ⟨by decide, by decide⟩, rfl⟩)

end Clause

end IterableClauseDB

end JamSAT
