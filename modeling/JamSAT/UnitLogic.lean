import Mathlib.Algebra.Group.Basic
import Mathlib.Data.Finset.Basic
import Mathlib.Data.List.Basic

/-!
# Clauses, models and unit propagation

Clauses are finite sets over a type of literals with an involutive negation.
`Derives Φ A l` is the least set of literals that contains `A` and is closed
under unit propagation with the clauses of `Φ`; a clause has the reverse unit
propagation property when propagating its negation ends in a conflict.
-/

namespace UnitLogic

variable {L : Type*} [InvolutiveNeg L]

structure Valuation (L : Type*) [Neg L] where
  holds : L → Prop
  holds_neg : ∀ l, holds (-l) ↔ ¬ holds l

def Valuation.Satisfies (σ : Valuation L) (C : Finset L) : Prop := ∃ l ∈ C, σ.holds l

def Valuation.Models (σ : Valuation L) (Φ : Set (Finset L)) : Prop := ∀ C ∈ Φ, σ.Satisfies C

def Entails (Φ : Set (Finset L)) (C : Finset L) : Prop := ∀ σ : Valuation L, σ.Models Φ → σ.Satisfies C

def Unsat (Φ : Set (Finset L)) : Prop := ∀ σ : Valuation L, ¬ σ.Models Φ

theorem Valuation.Models.mono {σ : Valuation L} {Φ Ψ : Set (Finset L)} (h : Ψ ⊆ Φ) (hm : σ.Models Φ) :
    σ.Models Ψ := fun C hC => hm C (h hC)

theorem Valuation.not_holds_neg {σ : Valuation L} {l : L} : ¬ σ.holds (-l) ↔ σ.holds l := by
  rw [σ.holds_neg, not_not]

theorem Valuation.Satisfies.unit {σ : Valuation L} {C : Finset L} {l : L} (h : σ.Satisfies C)
    (ho : ∀ x ∈ C, x ≠ l → σ.holds (-x)) : σ.holds l := by
  obtain ⟨x, hx, hσ⟩ := h
  by_cases he : x = l
  · exact he ▸ hσ
  · exact absurd hσ ((σ.holds_neg x).mp (ho x hx he))

theorem Entails.of_mem {Φ : Set (Finset L)} {C : Finset L} (h : C ∈ Φ) : Entails Φ C :=
  fun _ hσ => hσ C h

theorem Entails.mono {Φ Ψ : Set (Finset L)} {C : Finset L} (hs : Φ ⊆ Ψ) (h : Entails Φ C) : Entails Ψ C :=
  fun σ hσ => h σ (hσ.mono hs)

def units (A : Set L) : Set (Finset L) := {C | ∃ l ∈ A, C = {l}}

omit [InvolutiveNeg L] in
theorem mem_units {A : Set L} {l : L} (h : l ∈ A) : {l} ∈ units A := ⟨l, h, rfl⟩

theorem models_units {σ : Valuation L} {A : Set L} : σ.Models (units A) ↔ ∀ l ∈ A, σ.holds l := by
  constructor
  · intro h l hl
    obtain ⟨x, hx, hσ⟩ := h _ (mem_units hl)
    exact Finset.mem_singleton.mp hx ▸ hσ
  · rintro h _ ⟨l, hl, rfl⟩
    exact ⟨l, Finset.mem_singleton_self l, h l hl⟩

theorem models_union {σ : Valuation L} {Φ Ψ : Set (Finset L)} :
    σ.Models (Φ ∪ Ψ) ↔ σ.Models Φ ∧ σ.Models Ψ :=
  ⟨fun h => ⟨h.mono Set.subset_union_left, h.mono Set.subset_union_right⟩,
    fun h _ hC => hC.elim (h.1 _) (h.2 _)⟩

/-! ## Unit propagation -/

inductive Derives (Φ : Set (Finset L)) (A : Set L) : L → Prop
  | given {l : L} : l ∈ A → Derives Φ A l
  | unit {C : Finset L} {l : L} : C ∈ Φ → l ∈ C → (∀ x ∈ C, x ≠ l → Derives Φ A (-x)) → Derives Φ A l

def Conflict (Φ : Set (Finset L)) (A : Set L) : Prop :=
  (∃ C ∈ Φ, ∀ x ∈ C, Derives Φ A (-x)) ∨ ∃ l, Derives Φ A l ∧ Derives Φ A (-l)

/-- Reverse unit propagation: the negation of `C` propagates to a conflict. -/
def RUP (Φ : Set (Finset L)) (C : Finset L) : Prop := Conflict Φ {l | -l ∈ C}

variable {Φ Ψ : Set (Finset L)} {A B : Set L} {l : L}

theorem Derives.cut (hs : Φ ⊆ Ψ) (hA : ∀ a ∈ A, Derives Ψ B a) (h : Derives Φ A l) : Derives Ψ B l := by
  induction h with
  | given h => exact hA _ h
  | unit hC hl _ ih => exact .unit (hs hC) hl ih

theorem Derives.mono (hs : Φ ⊆ Ψ) (hA : A ⊆ B) (h : Derives Φ A l) : Derives Ψ B l :=
  h.cut hs fun _ ha => .given (hA ha)

theorem Derives.of_unit (h : {l} ∈ Φ) : Derives Φ A l :=
  .unit h (Finset.mem_singleton_self l) fun _ hx hne => absurd (Finset.mem_singleton.mp hx) hne

theorem Derives.holds {σ : Valuation L} (hΦ : σ.Models Φ) (hA : ∀ a ∈ A, σ.holds a)
    (h : Derives Φ A l) : σ.holds l := by
  induction h with
  | given h => exact hA _ h
  | unit hC _ _ ih => exact (hΦ _ hC).unit ih

theorem Conflict.cut (hs : Φ ⊆ Ψ) (hA : ∀ a ∈ A, Derives Ψ B a) (h : Conflict Φ A) : Conflict Ψ B := by
  rcases h with ⟨C, hC, h⟩ | ⟨l, h, h'⟩
  · exact .inl ⟨C, hs hC, fun x hx => (h x hx).cut hs hA⟩
  · exact .inr ⟨l, h.cut hs hA, h'.cut hs hA⟩

theorem Conflict.absurd {σ : Valuation L} (hΦ : σ.Models Φ) (hA : ∀ a ∈ A, σ.holds a)
    (h : Conflict Φ A) : False := by
  rcases h with ⟨C, hC, h⟩ | ⟨l, h, h'⟩
  · obtain ⟨x, hx, hσ⟩ := hΦ C hC
    exact (σ.holds_neg x).mp ((h x hx).holds hΦ hA) hσ
  · exact (σ.holds_neg l).mp (h'.holds hΦ hA) (h.holds hΦ hA)

theorem Derives.of_subsumes (hs : ∀ C ∈ Φ, ∃ D ∈ Ψ, D ⊆ C) (h : Derives Φ A l) : Derives Ψ A l ∨ Conflict Ψ A := by
  induction h with
  | given h => exact .inl (.given h)
  | @unit C l hC hl _ ih =>
    by_cases hc : Conflict Ψ A
    · exact .inr hc
    · obtain ⟨D, hD, hsub⟩ := hs C hC
      have ho : ∀ x ∈ D, x ≠ l → Derives Ψ A (-x) := fun x hx hne => (ih x (hsub hx) hne).resolve_right hc
      by_cases hlD : l ∈ D
      · exact .inl (.unit hD hlD ho)
      · exact .inr (.inl ⟨D, hD, fun x hx => ho x hx fun he => hlD (he ▸ hx)⟩)

theorem Conflict.of_subsumes (hs : ∀ C ∈ Φ, ∃ D ∈ Ψ, D ⊆ C) (h : Conflict Φ A) : Conflict Ψ A := by
  by_contra hc
  have hd : ∀ {l}, Derives Φ A l → Derives Ψ A l := fun h => (h.of_subsumes hs).resolve_right hc
  apply hc
  rcases h with ⟨C, hC, h⟩ | ⟨l, h, h'⟩
  · obtain ⟨D, hD, hsub⟩ := hs C hC
    exact .inl ⟨D, hD, fun x hx => hd (h x (hsub hx))⟩
  · exact .inr ⟨l, hd h, hd h'⟩

theorem RUP.of_subsumes (hs : ∀ C ∈ Φ, ∃ D ∈ Ψ, D ⊆ C) {C : Finset L} (h : RUP Φ C) : RUP Ψ C :=
  Conflict.of_subsumes hs h

theorem RUP.entails {C : Finset L} (h : RUP Φ C) : Entails Φ C := by
  intro σ hσ
  by_contra hn
  refine Conflict.absurd hσ (fun a ha => ?_) h
  rw [← σ.not_holds_neg]
  exact fun hh => hn ⟨-a, ha, hh⟩

theorem Conflict.unsat (h : Conflict Φ ∅) : Unsat Φ :=
  fun _ hσ => h.absurd hσ fun _ ha => ha.elim

theorem RUP.empty_iff : RUP Φ ∅ ↔ Conflict Φ ∅ := by simp [RUP]

/-! ## Closed sets -/

structure PropagationClosed (Φ : Set (Finset L)) (T : Set L) : Prop where
  unit : ∀ C ∈ Φ, ∀ l, (∀ x ∈ C, x ≠ l → -x ∈ T) → l ∈ C ∧ l ∈ T
  consistent : ∀ l ∈ T, -l ∉ T

theorem PropagationClosed.mem_of_derives {T : Set L} (h : PropagationClosed Φ T) (hA : A ⊆ T)
    (hd : Derives Φ A l) : l ∈ T := by
  induction hd with
  | given hl => exact hA hl
  | unit hC _ _ ih => exact (h.unit _ hC _ ih).2

theorem PropagationClosed.not_conflict [Inhabited L] {T : Set L} (h : PropagationClosed Φ T) (hA : A ⊆ T) :
    ¬ Conflict Φ A := by
  intro hc
  cases hc with
  | inl hc =>
    obtain ⟨C, hC, hfalse⟩ := hc
    have hneg : ∀ x ∈ C, -x ∈ T := fun x hx => h.mem_of_derives hA (hfalse x hx)
    obtain ⟨hl, hlT⟩ := h.unit C hC default fun x hx _ => hneg x hx
    exact h.consistent _ hlT (hneg _ hl)
  | inr hc =>
    obtain ⟨l, hl, hn⟩ := hc
    exact h.consistent l (h.mem_of_derives hA hl) (h.mem_of_derives hA hn)

/-! ## Resolution -/

inductive Resolution [DecidableEq L] (Φ : Set (Finset L)) : Finset L → Prop
  | premise {C : Finset L} : C ∈ Φ → Resolution Φ C
  | resolve {C D : Finset L} {l : L} : Resolution Φ C → Resolution Φ D → -l ∈ C → l ∈ D →
    Resolution Φ (C.erase (-l) ∪ D.erase l)

/-! ## Trails -/

/-- Let every entry of the trail `T` that lies in `W` be derived, or forced by a
clause whose other literals are false before it in `W`. Then unit propagation
derives all these entries. -/
theorem derives_of_closed {W : Set L} {T : List L}
    (h : ∀ pre l, pre ++ [l] <+: T → l ∈ W → Derives Φ A l ∨
      ∃ C ∈ Φ, l ∈ C ∧ ∀ x ∈ C, x ≠ l → -x ∈ pre ∧ -x ∈ W) :
    ∀ l ∈ T, l ∈ W → Derives Φ A l := by
  induction T using List.reverseRecOn with
  | nil => intro l hl; exact absurd hl List.not_mem_nil
  | append_singleton T a ih =>
    have hT := ih fun pre l hl => h pre l (hl.trans (List.prefix_append T [a]))
    intro l hl hW
    rcases List.mem_append.mp hl with hl | hl
    · exact hT l hl hW
    · obtain rfl := List.mem_singleton.mp hl
      rcases h T l (List.prefix_refl _) hW with hd | ⟨C, hC, hlC, ho⟩
      · exact hd
      · exact .unit hC hlC fun x hx hne => hT _ (ho x hx hne).1 (ho x hx hne).2

end UnitLogic
