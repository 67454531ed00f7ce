import Mathlib.Data.Set.Basic
import Mathlib.Order.RelClasses

/-!
# Runs

The states reached by a step relation from initial states, and the rule that an
inductive invariant holds in all of them. What every run reaches is inevitable,
which a rank in a well-founded order shows.
-/

namespace Runs

variable {σ : Type*}

inductive Reachable (init : σ → Prop) (step : σ → σ → Prop) : σ → Prop
  | init {s : σ} : init s → Reachable init step s
  | step {s t : σ} : Reachable init step s → step s t → Reachable init step t

variable {init : σ → Prop} {step step' : σ → σ → Prop} {I J : σ → Prop}

theorem Reachable.invariant {s : σ} (h : Reachable init step s) (h₀ : ∀ s, init s → I s)
    (hs : ∀ s t, I s → step s t → I t) : I s := by
  induction h with
  | init h => exact h₀ _ h
  | step _ hst ih => exact hs _ _ ih hst

theorem Reachable.mono {s : σ} (h : Reachable init step s) (hs : ∀ s t, step s t → step' s t) :
    Reachable init step' s := by
  induction h with
  | init h => exact .init h
  | step _ hst ih => exact .step ih (hs _ _ hst)

theorem Reachable.foldlM {ε : Type*} {run : σ → ε → Option σ} {es : List ε} :
    ∀ {s t : σ}, Reachable init step s → (∀ e ∈ es, ∀ s t, run s e = some t → step s t) →
    es.foldlM run s = some t → Reachable init step t := by
  induction es with
  | nil =>
    intro s t hs _ h
    cases h
    exact hs
  | cons e es ih =>
    intro s t hs hstep h
    obtain ⟨he, hes⟩ := List.forall_mem_cons.mp hstep
    rw [List.foldlM_cons] at h
    obtain ⟨u, hu, h⟩ := Option.bind_eq_some_iff.mp h
    exact ih (.step hs (he s u hu)) hes h

/-- Every run from the state gets to a state with `P`, and none is stuck before. -/
inductive Inevitable (step : σ → σ → Prop) (P : σ → Prop) : σ → Prop
  | now {s : σ} : P s → Inevitable step P s
  | later {s : σ} : (∃ t, step s t) → (∀ t, step s t → Inevitable step P t) → Inevitable step P s

theorem Inevitable.of_rank {P : σ → Prop} {ρ : Type*} [LT ρ] [WellFoundedLT ρ] (rank : σ → ρ)
    (hprogress : ∀ s, I s → P s ∨ ∃ t, step s t)
    (hstep : ∀ s t, I s → step s t → P t ∨ I t ∧ rank t < rank s) : ∀ s, I s → Inevitable step P s := by
  have hwf : WellFounded fun s t => rank s < rank t := InvImage.wf rank wellFounded_lt
  intro s
  induction s using hwf.induction with
  | h s ih =>
    intro hs
    cases hprogress s hs with
    | inl hP => exact .now hP
    | inr hex =>
      apply Inevitable.later hex
      intro t hst
      cases hstep s t hs hst with
      | inl hP => exact .now hP
      | inr ht => exact ih t ht.2 ht.1

/-- A run to what is inevitable, by actions that make the steps. -/
theorem Inevitable.exists_run {P : σ → Prop} {ε : Type*} (run : σ → ε → Option σ) (A : ε → Prop) {s : σ}
    (h : Inevitable step P s) (hs : I s) (hkeep : ∀ s t, I s → step s t → P t ∨ I t)
    (hact : ∀ s t, I s → step s t → ∃ e, A e ∧ run s e = some t) :
    ∃ (es : List ε) (t : σ), (∀ e ∈ es, A e) ∧ es.foldlM run s = some t ∧ P t := by
  induction h with
  | now hP => exact ⟨[], _, List.forall_mem_nil _, rfl, hP⟩
  | later hex _ ih =>
    obtain ⟨t, hst⟩ := hex
    obtain ⟨e, he, hrun⟩ := hact _ _ hs hst
    cases hkeep _ _ hs hst with
    | inl hP => exact ⟨[e], t, List.forall_mem_singleton.mpr he, by simp [hrun], hP⟩
    | inr ht =>
      obtain ⟨es, u, hes, hu, hP⟩ := ih t hst ht
      exact ⟨e :: es, u, List.forall_mem_cons.mpr ⟨he, hes⟩, by simp [hrun, hu], hP⟩

/-- What is inevitable for a system is so for one whose steps it can follow. -/
theorem Inevitable.simulated {τ : Type*} {stepτ : τ → τ → Prop} {P : σ → Prop} {Q J : τ → Prop} (f : τ → σ) {x : τ}
    (h : Inevitable step P (f x)) (hx : J x) (hprogress : ∀ x, J x → ¬ P (f x) → ∃ y, stepτ x y)
    (hstep : ∀ x y, J x → ¬ P (f x) → stepτ x y → step (f x) (f y) ∧ J y) (hdone : ∀ x, J x → P (f x) → Q x) :
    Inevitable stepτ Q x := by
  generalize hs : f x = s at h
  induction h generalizing x with
  | now hP => exact .now (hdone x hx (hs ▸ hP))
  | later _ _ ih =>
    by_cases hP : P (f x)
    · exact .now (hdone x hx hP)
    · refine .later (hprogress x hx hP) fun y hxy => ?_
      obtain ⟨hfollow, hy⟩ := hstep x y hx hP hxy
      exact ih (f y) (hs ▸ hfollow) hy rfl

end Runs
