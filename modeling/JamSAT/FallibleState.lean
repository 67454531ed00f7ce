import Mathlib.Control.Monad.Basic

/-!
# Computations on a state that may fail

Rules for showing that a computation succeeds with a given result, and that a loop does.
-/

namespace FallibleState

variable {σ α β : Type} {f : StateT σ Option α} {g : α → StateT σ Option β} {s : σ} {a : α} {b : β}
  {P Q : σ → Prop}

def Yields (f : StateT σ Option α) (s : σ) (a : α) (P : σ → Prop) : Prop := ∃ t, f s = some (a, t) ∧ P t

theorem Yields.pure (h : P s) : Yields (Pure.pure a : StateT σ Option α) s a P := ⟨s, rfl, h⟩

theorem Yields.bind (h : Yields f s a P) (hg : ∀ t, P t → Yields (g a) t b Q) : Yields (f >>= g) s b Q := by
  obtain ⟨t, hf, ht⟩ := h
  obtain ⟨u, hu, hQ⟩ := hg t ht
  refine ⟨u, ?_, hQ⟩
  show (f s).bind (fun r => g r.1 r.2) = some (b, u)
  rw [hf]
  exact hu

theorem Yields.mono (h : Yields f s a P) (hPQ : ∀ t, P t → Q t) : Yields f s a Q := by
  obtain ⟨t, hf, ht⟩ := h
  exact ⟨t, hf, hPQ t ht⟩

/-- A loop over a list succeeds if each turn does and keeps an invariant of the elements visited so far. -/
theorem exists_foldlM {run : β → α → Option β} {I : List α → β → Prop} {xs : List α}
    (hstep : ∀ done x r, x ∈ xs → I done r → ∃ r', run r x = some r' ∧ I (done ++ [x]) r') :
    ∀ {done : List α} {r : β}, I done r → ∃ r', xs.foldlM run r = some r' ∧ I (done ++ xs) r' := by
  induction xs with
  | nil =>
    intro done r h
    exact ⟨r, rfl, (List.append_nil done).symm ▸ h⟩
  | cons x xs ih =>
    intro done r h
    obtain ⟨r₁, h₁, hI⟩ := hstep done x r List.mem_cons_self h
    obtain ⟨r', h', hI'⟩ := ih (fun done y r hy => hstep done y r (List.mem_cons_of_mem x hy)) hI
    rw [List.append_assoc] at hI'
    refine ⟨r', ?_, hI'⟩
    rw [List.foldlM_cons, h₁]
    exact h'

end FallibleState
