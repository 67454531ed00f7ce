import JamSAT.UnitLogic
import Mathlib.Data.Multiset.AddSub

/-!
# Clausal proofs

A proof adds clauses to a multiset of clauses and deletes clauses from it. What it
adds has to follow by reverse unit propagation from what there is, and what it
deletes has to be there.
-/

namespace UnitLogic

variable {L : Type*} [InvolutiveNeg L] {Φ Ψ : Set (Finset L)} {A B : Set L} {C : Finset L}

/-! ## Forced literals -/

def Forces (Φ : Set (Finset L)) (A : Set L) : Prop := Conflict Φ ∅ ∨ ∀ l ∈ A, Derives Φ ∅ l

theorem Forces.mono (hs : Φ ⊆ Ψ) (h : Forces Φ A) : Forces Ψ A := by
  cases h with
  | inl hc => exact .inl (hc.cut hs fun _ ha => ha.elim)
  | inr hd => exact .inr fun l hl => (hd l hl).mono hs subset_rfl

theorem Forces.subset (h : Forces Φ A) (hs : B ⊆ A) : Forces Φ B := h.imp_right fun hd l hl => hd l (hs hl)

theorem Forces.union (h : Forces Φ A) (h' : Forces Φ B) : Forces Φ (A ∪ B) := by
  cases h with
  | inl hc => exact .inl hc
  | inr hd => exact h'.imp_right fun hd' l hl => hl.elim (hd l) (hd' l)

theorem Forces.of_subsumes (hs : ∀ C ∈ Φ, ∃ D ∈ Ψ, D ⊆ C) (h : Forces Φ A) : Forces Ψ A := by
  cases h with
  | inl hc => exact .inl (hc.of_subsumes hs)
  | inr hd =>
    by_cases hc : Conflict Ψ ∅
    · exact .inl hc
    · exact .inr fun l hl => ((hd l hl).of_subsumes hs).resolve_right hc

theorem Forces.of_units (h : ∀ l ∈ A, {l} ∈ Φ) : Forces Φ A := .inr fun l hl => .of_unit (h l hl)

/-- Forced literals take the place of unit clauses. -/
theorem Derives.of_forced {l : L} (hA : ∀ a ∈ A, Derives Φ ∅ a) (hs : Ψ ⊆ Φ) (h : Derives (units A ∪ Ψ) B l) :
    Derives Φ B l := by
  induction h with
  | given hl => exact .given hl
  | unit hC hl _ ih =>
    cases hC with
    | inl hC =>
      obtain ⟨a, ha, rfl⟩ := hC
      rw [Finset.mem_singleton.mp hl]
      exact (hA a ha).mono subset_rfl (Set.empty_subset B)
    | inr hC => exact .unit (hs hC) hl ih

theorem Conflict.of_forces (hA : Forces Φ A) (hs : Ψ ⊆ Φ) (h : Conflict (units A ∪ Ψ) B) : Conflict Φ B := by
  cases hA with
  | inl hc => exact hc.cut subset_rfl fun _ ha => ha.elim
  | inr hA =>
    cases h with
    | inl hC =>
      obtain ⟨C, hC, hfalse⟩ := hC
      have hd : ∀ x ∈ C, Derives Φ B (-x) := fun x hx => (hfalse x hx).of_forced hA hs
      cases hC with
      | inl hC =>
        obtain ⟨a, ha, rfl⟩ := hC
        have hneg := hd a (Finset.mem_singleton_self a)
        exact .inr ⟨a, (hA a ha).mono subset_rfl (Set.empty_subset B), hneg⟩
      | inr hC => exact .inl ⟨C, hs hC, hd⟩
    | inr hl =>
      obtain ⟨l, hl, hn⟩ := hl
      exact .inr ⟨l, hl.of_forced hA hs, hn.of_forced hA hs⟩

theorem RUP.of_forces (hA : Forces Φ A) (hs : Ψ ⊆ Φ) (h : RUP (units A ∪ Ψ) C) : RUP Φ C :=
  Conflict.of_forces hA hs h

theorem Forces.trans (hA : Forces Φ A) (hs : Ψ ⊆ Φ) (h : Forces (units A ∪ Ψ) B) : Forces Φ B := by
  cases h with
  | inl hc => exact .inl (hc.of_forces hA hs)
  | inr hB => exact hA.imp_right fun hd l hl => (hB l hl).of_forced hd hs

/-- The negation of a forced literal may be left out of a clause. -/
theorem RUP.of_forced_neg {l : L} (hl : Forces Φ {l}) (hC : C ∈ Φ) {D : Finset L} (hD : ∀ x ∈ C, x ≠ -l → x ∈ D) :
    RUP Φ D := by
  cases hl with
  | inl hc => exact hc.cut subset_rfl fun _ ha => ha.elim
  | inr hl =>
    have hd : Derives Φ {x | -x ∈ D} l := (hl l rfl).mono subset_rfl (Set.empty_subset _)
    have hfalse : ∀ x ∈ C, Derives Φ {x | -x ∈ D} (-x) := by
      intro x hx
      by_cases hxl : x = -l
      · rw [hxl, neg_neg]
        exact hd
      · apply Derives.given
        show - -x ∈ D
        rw [neg_neg]
        exact hD x hx hxl
    exact .inl ⟨C, hC, hfalse⟩

/-! ## Proofs -/

inductive ProofLine (L : Type*)
  | add (C : Finset L)
  | delete (C : Finset L)

namespace ProofLine

variable [DecidableEq L]

def apply (P : Multiset (Finset L)) : ProofLine L → Multiset (Finset L)
  | add C => C ::ₘ P
  | delete C => P.erase C

def Valid (P : Multiset (Finset L)) : ProofLine L → Prop
  | add C => RUP {D | D ∈ P} C
  | delete C => C ∈ P

end ProofLine

section
variable [DecidableEq L] {P : Multiset (Finset L)} {lines lines' : List (ProofLine L)}

def clausesAfter (P : Multiset (Finset L)) (lines : List (ProofLine L)) : Multiset (Finset L) :=
  lines.foldl ProofLine.apply P

def ValidProof : Multiset (Finset L) → List (ProofLine L) → Prop
  | _, [] => True
  | P, line :: lines => line.Valid P ∧ ValidProof (line.apply P) lines

def Refutes (P : Multiset (Finset L)) (lines : List (ProofLine L)) : Prop :=
  ValidProof P lines ∧ ∃ before, lines = before ++ [.add ∅]

omit [InvolutiveNeg L] in
theorem clausesAfter_append (P : Multiset (Finset L)) (lines lines' : List (ProofLine L)) :
    clausesAfter P (lines ++ lines') = clausesAfter (clausesAfter P lines) lines' := List.foldl_append

theorem validProof_append : ValidProof P (lines ++ lines') ↔
    ValidProof P lines ∧ ValidProof (clausesAfter P lines) lines' := by
  induction lines generalizing P with
  | nil => exact ⟨fun h => ⟨trivial, h⟩, fun h => h.2⟩
  | cons line lines ih =>
    rw [List.cons_append, ValidProof, ValidProof, ih, and_assoc]
    rfl

theorem refutes_of_conflict (h : ValidProof P lines) (hc : Conflict {C | C ∈ clausesAfter P lines} ∅) :
    Refutes P (lines ++ [.add ∅]) :=
  ⟨validProof_append.mpr ⟨h, RUP.empty_iff.mpr hc, trivial⟩, lines, rfl⟩

theorem ProofLine.Valid.models {σ : Valuation L} {line : ProofLine L} (h : line.Valid P) (hσ : σ.Models {C | C ∈ P}) :
    σ.Models {C | C ∈ line.apply P} := by
  cases line with
  | add C =>
    intro D hD
    cases Multiset.mem_cons.mp hD with
    | inl he => exact he ▸ RUP.entails h σ hσ
    | inr hD => exact hσ D hD
  | delete C => exact hσ.mono fun D hD => Multiset.mem_of_mem_erase hD

theorem ValidProof.models {σ : Valuation L} (h : ValidProof P lines) (hσ : σ.Models {C | C ∈ P}) :
    σ.Models {C | C ∈ clausesAfter P lines} := by
  induction lines generalizing P with
  | nil => exact hσ
  | cons line lines ih => exact ih h.2 (h.1.models hσ)

theorem Refutes.unsat (h : Refutes P lines) : Unsat {C | C ∈ P} := by
  obtain ⟨hvalid, before, rfl⟩ := h
  obtain ⟨hbefore, hlast, -⟩ := validProof_append.mp hvalid
  intro σ hσ
  obtain ⟨l, hl, -⟩ := RUP.entails hlast σ (hbefore.models hσ)
  exact Finset.notMem_empty l hl

end

end UnitLogic
