import JamSAT.UnitLogic

/-!
# Conflict-driven clause learning as a transition system

A state is the sequence of assigned literals, with the decisions marked, and a set of
clauses. The rules say nothing about how clauses are watched, how lemmas are found or
when to restart.
-/

namespace AbstractCDCL

open UnitLogic

structure State (L : Type*) where
  trail : List (L × Bool)
  clauses : Set (Finset L)

inductive Rule (L : Type*)
  | decide (l : L)
  | propagate
  | backjump
  | learn
  | forget
  | restart
  | fail
  | succeed

def Rule.decided {L : Type*} : Rule L → Option L
  | decide l => some l
  | _ => none

variable {L : Type*} [InvolutiveNeg L]

def literals (trail : List (L × Bool)) : List L := trail.map Prod.fst

def decisions (trail : List (L × Bool)) : Set L := {d | (d, true) ∈ trail}

structure Forces (trail : List (L × Bool)) (C : Finset L) (l : L) : Prop where
  mem : l ∈ C
  others : ∀ x ∈ C, x ≠ l → -x ∈ literals trail
  unassigned : l ∉ literals trail ∧ -l ∉ literals trail

inductive Step (s : State L) : Rule L → State L → Prop
  | decide {l : L} (hl : l ∉ literals s.trail) (hn : -l ∉ literals s.trail) :
    Step s (.decide l) ⟨s.trail ++ [(l, true)], s.clauses⟩
  | propagate {C : Finset L} {l : L} (hC : C ∈ s.clauses) (hf : Forces s.trail C l) :
    Step s .propagate ⟨s.trail ++ [(l, false)], s.clauses⟩
  /-- A false clause forces a literal before the decision `d`. -/
  | backjump {pre post : List (L × Bool)} {d l : L} {C : Finset L} (ht : s.trail = pre ++ (d, true) :: post)
    (hC : C ∈ s.clauses) (hfalse : ∀ x ∈ C, -x ∈ literals s.trail) (hf : Forces pre C l) :
    Step s .backjump ⟨pre ++ [(l, false)], s.clauses⟩
  | learn {Δ : Set (Finset L)} (h : ∀ C ∈ Δ, Entails s.clauses C) : Step s .learn ⟨s.trail, s.clauses ∪ Δ⟩
  | forget {Δ : Set (Finset L)} (hs : Δ ⊆ s.clauses) (h : ∀ C ∈ s.clauses, Entails Δ C) :
    Step s .forget ⟨s.trail, Δ⟩
  | restart : Step s .restart ⟨[], s.clauses⟩
  | fail {C : Finset L} (hC : C ∈ s.clauses) (hfalse : ∀ x ∈ C, -x ∈ literals s.trail)
    (hn : ∀ d, d ∉ decisions s.trail) : Step s .fail ⟨[], s.clauses⟩
  | succeed (h : ∀ C ∈ s.clauses, ∃ l ∈ C, l ∈ literals s.trail) : Step s .succeed ⟨[], s.clauses⟩

inductive Path : State L → List (Rule L) → State L → Prop
  | nil (s : State L) : Path s [] s
  | cons {s t u : State L} {rule : Rule L} {rules : List (Rule L)} : Step s rule t → Path t rules u →
      Path s (rule :: rules) u

section
variable {Φ Ψ : Set (Finset L)} {s t u : State L} {rule : Rule L} {rules rules' : List (Rule L)} {l : L}
  {trail pre : List (L × Bool)} {σ : Valuation L}

theorem Path.single (h : Step s rule t) : Path s [rule] t := .cons h (.nil t)

theorem Path.append (h : Path s rules t) (h' : Path t rules' u) : Path s (rules ++ rules') u := by
  induction h with
  | nil _ => exact h'
  | cons hs _ ih => exact .cons hs (ih h')

omit [InvolutiveNeg L] in
theorem literals_append (trail trail' : List (L × Bool)) :
    literals (trail ++ trail') = literals trail ++ literals trail' := List.map_append

/-! ## What every state satisfies -/

/-- The clauses are equivalent to `Φ`, and every literal that is not a decision follows from
`Φ` and the decisions before it. -/
structure Inv (Φ : Set (Finset L)) (s : State L) : Prop where
  models : ∀ σ : Valuation L, σ.Models s.clauses ↔ σ.Models Φ
  implied : ∀ pre l, pre ++ [(l, false)] <+: s.trail → ∀ σ : Valuation L, σ.Models Φ →
    (∀ d ∈ decisions pre, σ.holds d) → σ.holds l

theorem Inv.init (h : ∀ σ : Valuation L, σ.Models Ψ ↔ σ.Models Φ) : Inv Φ ⟨[], Ψ⟩ where
  models := h
  implied _ _ hp := absurd (List.prefix_nil.mp hp) (List.append_ne_nil_of_right_ne_nil _ (List.cons_ne_nil _ _))

/-- All literals up to a point hold where the decisions among them do. -/
theorem Inv.holds (h : Inv Φ s) (hσ : σ.Models Φ) (hp : pre <+: s.trail) (hd : ∀ d ∈ decisions pre, σ.holds d) :
    ∀ x ∈ literals pre, σ.holds x := by
  induction pre using List.reverseRecOn with
  | nil => exact fun x hx => absurd hx List.not_mem_nil
  | append_singleton pre e ih =>
    have hd' : ∀ d ∈ decisions pre, σ.holds d := fun d hm => hd d (List.mem_append_left _ hm)
    intro x hx
    rw [literals_append] at hx
    cases List.mem_append.mp hx with
    | inl hx => exact ih ((List.prefix_append _ _).trans hp) hd' x hx
    | inr hx =>
      obtain ⟨l, b⟩ := e
      obtain rfl : x = l := List.mem_singleton.mp hx
      cases b with
      | true => exact hd x (List.mem_append_right _ (List.mem_singleton_self _))
      | false => exact h.implied pre x hp σ hσ hd'

theorem Inv.forced (h : Inv Φ s) {C : Finset L} (hσ : σ.Models Φ) (hp : pre <+: s.trail) (hC : C ∈ s.clauses)
    (hf : Forces pre C l) (hd : ∀ d ∈ decisions pre, σ.holds d) : σ.holds l :=
  (((h.models σ).mpr hσ) C hC).unit fun x hx hne => h.holds hσ hp hd _ (hf.others x hx hne)

/-- One more literal behind a part of the trail. -/
theorem Inv.push (h : Inv Φ s) (hp : pre <+: s.trail) {b : Bool}
    (hb : b = false → ∀ σ : Valuation L, σ.Models Φ → (∀ d ∈ decisions pre, σ.holds d) → σ.holds l) :
    Inv Φ ⟨pre ++ [(l, b)], s.clauses⟩ where
  models := h.models
  implied pre' x hx := by
    cases List.prefix_concat_iff.mp hx with
    | inl he =>
      obtain ⟨rfl, hlast⟩ := List.append_inj' he rfl
      cases hlast
      exact hb rfl
    | inr hx => exact h.implied pre' x (hx.trans hp)

theorem Inv.step (h : Inv Φ s) (hs : Step s rule t) : Inv Φ t := by
  cases hs with
  | decide _ _ => exact h.push (List.prefix_refl _) fun hb => by cases hb
  | propagate hC hf => exact h.push (List.prefix_refl _) fun _ σ hσ => h.forced hσ (List.prefix_refl _) hC hf
  | @backjump pre post d l C ht hC _ hf =>
    have hp : pre <+: s.trail := ht ▸ List.prefix_append _ _
    exact h.push hp fun _ σ hσ => h.forced hσ hp hC hf
  | learn hΔ =>
    refine ⟨fun σ => ?_, h.implied⟩
    rw [models_union, ← h.models σ]
    exact ⟨fun hσ => hσ.1, fun hσ => ⟨hσ, fun C hC => hΔ C hC σ hσ⟩⟩
  | forget hsub hΔ =>
    refine ⟨fun σ => ?_, h.implied⟩
    rw [← h.models σ]
    exact ⟨fun hσ C hC => hΔ C hC σ hσ, fun hσ => hσ.mono hsub⟩
  | restart => exact .init h.models
  | fail _ _ _ => exact .init h.models
  | succeed _ => exact .init h.models

theorem Inv.path (h : Inv Φ s) (hp : Path s rules t) : Inv Φ t := by
  induction hp with
  | nil _ => exact h
  | cons hs _ ih => exact ih (h.step hs)

/-! ## Verdicts -/

theorem Inv.unsat (h : Inv Φ s) (hs : Step s .fail t) : Unsat Φ := by
  cases hs with
  | @fail C hC hfalse hn =>
    intro σ hσ
    obtain ⟨x, hx, hh⟩ := (h.models σ).mpr hσ C hC
    have hneg := h.holds hσ (List.prefix_refl _) (fun d hd => absurd hd (hn d)) _ (hfalse x hx)
    exact (σ.holds_neg x).mp hneg hh

/-- A path with a failure in it starts from an unsatisfiable problem. -/
theorem Inv.unsat_of_path (h : Inv Φ s) (hp : Path s rules t) (hf : Rule.fail ∈ rules) : Unsat Φ := by
  induction hp with
  | nil _ => cases hf
  | cons hs _ ih =>
    cases hf with
    | head => exact h.unsat hs
    | tail _ hf => exact ih (h.step hs) hf

/-! ## Paths along a trail -/

/-- Literals that clauses force one after the other are propagated. -/
theorem path_propagate {clauses : Set (Finset L)} {rest : List L}
    (h : ∀ mid l, mid ++ [l] <+: rest → ∃ C ∈ clauses, Forces (trail ++ mid.map (·, false)) C l) :
    Path ⟨trail, clauses⟩ (List.replicate rest.length .propagate) ⟨trail ++ rest.map (·, false), clauses⟩ := by
  induction rest generalizing trail with
  | nil =>
    rw [List.map_nil, List.append_nil]
    exact .nil _
  | cons l rest ih =>
    obtain ⟨C, hC, hf⟩ := h [] l (List.prefix_append [l] rest)
    rw [List.map_nil, List.append_nil] at hf
    have hforced : ∀ mid x, mid ++ [x] <+: rest →
        ∃ D ∈ clauses, Forces (trail ++ [(l, false)] ++ mid.map (·, false)) D x := by
      intro mid x hm
      obtain ⟨D, hD, hg⟩ := h (l :: mid) x (List.cons_prefix_cons.mpr ⟨rfl, hm⟩)
      refine ⟨D, hD, ?_⟩
      rwa [List.append_assoc]
    have hrest := ih hforced
    rw [List.append_assoc] at hrest
    exact .cons (.propagate hC hf) hrest

theorem path_learn (hs : Φ ⊆ Ψ) (h : ∀ C ∈ Ψ, Entails Φ C) : Path ⟨trail, Φ⟩ [.learn] ⟨trail, Ψ⟩ := by
  have hlearn : Step ⟨trail, Φ⟩ .learn ⟨trail, Φ ∪ Ψ⟩ := .learn h
  rw [Set.union_eq_self_of_subset_left hs] at hlearn
  exact .single hlearn

/-- Learning and forgetting lead to every equivalent set of clauses. -/
theorem path_rewrite (h : ∀ σ : Valuation L, σ.Models Φ ↔ σ.Models Ψ) :
    Path ⟨trail, Φ⟩ [.learn, .forget] ⟨trail, Ψ⟩ := by
  have hlearn : Step ⟨trail, Φ⟩ .learn ⟨trail, Φ ∪ Ψ⟩ := .learn fun C hC σ hσ => (h σ).mp hσ C hC
  refine .cons hlearn (.single (.forget Set.subset_union_right ?_))
  rintro C (hC | hC)
  · exact fun σ hσ => (h σ).mpr hσ C hC
  · exact .of_mem hC

end

end AbstractCDCL
