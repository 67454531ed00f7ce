import JamSAT.TrailGrowth
import JamSAT.UnitLogic

/-!
# Trails of derived literals

An assignment whose clauses belong to `Φ` and whose trail holds literals that unit
propagation derives from `Φ` and `A`. Unlike the contract of the class, this asks for
no order of the calls: clauses may be registered while literals are assigned.
Propagation may then miss consequences, but it never adds a literal without a reason.
-/

namespace JamSAT

open UnitLogic

namespace Assignment

structure Derived (Φ : Set (Finset CNFLit)) (A : Set CNFLit) (R : Set ClauseRef) (s : Assignment) : Prop where
  clauses : ∀ c ∈ R, (s.mem c).litSet ∈ Φ
  derived : ∀ l ∈ s.trail, Derives Φ A l

structure Justified (Φ : Set (Finset CNFLit)) (A : Set CNFLit) (R : Set ClauseRef) (s : Assignment) : Prop
    extends Consistent R R ∅ s, Derived Φ A R s where
  settled : s.litsRequiringWatcherUpdateAsVec = []

section
variable {Φ Ψ : Set (Finset CNFLit)} {A B : Set CNFLit} {R : Set ClauseRef} {s₀ s t : Assignment} {l : CNFLit}
  {c : ClauseRef} {m : UpMode}

theorem Derived.assign (h : s.Derived Φ A R) (hd : Derives Φ A l) (r : Option ClauseRef) :
    (s.assign l r).Derived Φ A R where
  clauses := h.clauses
  derived x hx := by
    rw [assign_trail] at hx
    cases List.mem_append.mp hx with
    | inl hx => exact h.derived x hx
    | inr hx =>
      rw [List.mem_singleton.mp hx]
      exact hd

/-- A clause forces a literal only when it derives it. -/
theorem Derived.stable : Stable R (Derived Φ A R) where
  force s l c ht h _ hc hm := by
    refine h.assign (.unit (h.clauses c hc.registered) (Clause.mem_litSet.mpr hm) fun x hx hne => ?_) _
    exact h.derived _ (ht.neg_mem_trail.mpr (hc.others x (Clause.mem_litSet.mp hx) hne))
  move s l k w i _ h _ := by
    refine ⟨fun c hc => ?_, h.derived⟩
    have hset : ((s.moveWatch l k w i).mem c).litSet = (s.mem c).litSet := by
      ext x
      rw [Clause.mem_litSet, Clause.mem_litSet, (moveWatch_lits_perm s l k w i c).mem_iff]
    rw [hset]
    exact h.clauses c hc

namespace Justified
variable (h : s.Justified Φ A R)
include h

theorem neg_derived (hl : s.getAssignment l = .FALSE) : Derives Φ A (-l) :=
  h.derived _ (h.trail.neg_mem_trail.mpr hl)

theorem mono (hs : Φ ⊆ Ψ) (hA : A ⊆ B) : s.Justified Ψ B R where
  toConsistent := h.toConsistent
  clauses c hc := hs (h.clauses c hc)
  derived l hl := (h.derived l hl).mono hs hA
  settled := h.settled

theorem extend (hext : Extends s t) (ht : Consistent R R ∅ t) (hd : t.Derived Φ A R) : t.Justified Φ A R :=
  ⟨ht, hd, hext.flagVec.trans h.settled⟩

theorem assign (hl : s.getAssignment l = .INDETERMINATE) (hv : l.var < s.size) (hd : Derives Φ A l)
    (r : Option ClauseRef) : (s.assign l r).Justified Φ A R :=
  ⟨h.toConsistent.assign hl hv r, h.toDerived.assign hd r, h.settled⟩

end Justified

/-- Whatever is assumed, appending it derives only consequences. -/
theorem Justified.append (h : s.Justified Φ A R) (hl : s.getAssignment l = .INDETERMINATE) (hv : l.var < s.size)
    (hd : Derives Φ A l) : EndsFixpoint (fun t => t.Justified Φ A R ∧ Extends (s.assign l none) t)
      (fun _ t => (t.Justified Φ A R ∧ Extends (s.assign l none) t) ∧ Conflict Φ A) (s.append l m) := by
  have ha := h.assign hl hv hd none
  have hp : l ∈ (s.assign l none).trail := List.mem_append_right _ (List.mem_singleton_self l)
  refine (Derived.stable.propagateUntilFixpoint ha.toConsistent ha.toDerived hp ha.settled).imp ?_ ?_
  · rintro t ⟨f, ht⟩
    exact ⟨ha.extend ht.ext ht.consistent ht.holds, ht.ext⟩
  · intro c t ht
    have hj := ha.extend ht.ext ht.consistent ht.holds
    exact ⟨⟨hj, ht.ext⟩, .inl ⟨_, hj.clauses c ht.registered, fun x hx =>
      hj.neg_derived (ht.isFalse x (Clause.mem_litSet.mp hx))⟩⟩

theorem Justified.newLevel (h : s.Justified Φ A R) : s.newLevel.Justified Φ A R where
  trail := h.trail.newLevel
  watch := h.watch.congr rfl rfl rfl
  vars := h.vars
  clauses := h.clauses
  derived := h.derived
  settled := h.settled

theorem Justified.increaseMaxVar (h : s.Justified Φ A R) (n : Nat) : (s.increaseMaxVar n).Justified Φ A R where
  trail := h.trail.increaseMaxVar n
  watch := h.watch.congr (increaseMaxVar_mem n) (increaseMaxVar_watchers n) (increaseMaxVar_binaryWatchers n)
  vars c hc l hl := (h.vars c hc l (by rwa [increaseMaxVar_mem] at hl)).trans_le (le_increaseMaxVar_size n)
  clauses c hc := by
    rw [increaseMaxVar_mem]
    exact h.clauses c hc
  derived l hl := h.derived l (by rwa [increaseMaxVar_trail] at hl)
  settled := (increaseMaxVar_litsRequiringWatcherUpdateAsVec n).trans h.settled

theorem Justified.writeClause (h : s.Justified Φ A R) (hc : c ∉ R) (cl : Clause) :
    (s.writeClause c cl).Justified Φ A R := by
  have hmem : ∀ d ∈ R, (s.writeClause c cl).mem d = s.mem d :=
    fun d hd => writeClause_mem_of_ne fun he => hc (he ▸ hd)
  refine ⟨⟨(sameTrail_writeClause s c cl).trailInv h.trail, h.watch.writeClause h.watch.unmixed
    (h.watch.announced_of_not_mem hc) (fun hr => absurd hr hc) fun l w hw he => ?_, fun d hd => ?_⟩,
    ⟨fun d hd => ?_, h.derived⟩, h.settled⟩
  · exact absurd (h.watch.registered (p := (true, l)) hw) (he ▸ hc)
  · rw [hmem d hd]
    exact h.vars d hd
  · rw [hmem d hd]
    exact h.clauses d hd

theorem Justified.registerClause (h : s.Justified Φ A R) (hc : c ∉ R) (hs : 2 ≤ (s.mem c).size)
    (hd : (s.mem c).scheduledForDeletion = false) (hv : ∀ l ∈ (s.mem c).lits, l.var < s.size)
    (hΦ : (s.mem c).litSet ∈ Φ) : (s.registerClause c).Justified Φ A (insert c R) := by
  have hsame := sameTrail_registerClause s c
  refine ⟨⟨hsame.trailInv h.trail, h.watch.registerClause hc hs fun ht => ?_, ?_⟩, ⟨?_, ?_⟩, ?_⟩
  · rw [hd] at ht
    cases ht
  · rw [registerClause_mem, hsame.size]
    exact fun d hd => hd.elim (fun he => he ▸ hv) (h.vars d)
  · rw [registerClause_mem]
    exact fun d hd => hd.elim (fun he => he ▸ hΦ) (h.clauses d)
  · rw [hsame.trail]
    exact h.derived
  · rw [← h.settled]
    unfold Assignment.registerClause
    dsimp only
    split <;> rfl

/-- Back on the level on which `A` had not been assumed yet. -/
theorem Justified.undoToLevel (h : s.Justified Φ A R) (hext : Extends s₀ s) (h₀ : s₀.Justified Φ B R) {k : Nat}
    (hk : k < s.currentLevel) (hlimit : s₀.levelLimit (k + 1) = s₀.trail.length) :
    (s.undoToLevel k).Justified Φ B R ∧ (s.undoToLevel k).trail = s₀.trail := by
  have htrail : (s.undoToLevel k).trail = s₀.trail := by
    have hl : s.levelLimit (k + 1) = s₀.trail.length := by
      unfold levelLimit
      rw [hext.levelLimits]
      exact hlimit
    rw [undoToLevel_trail, hl]
    exact (List.prefix_iff_eq_take.mp hext.trail).symm
  refine ⟨⟨⟨h.trail.undoToLevel hk, h.watch.congr (by simp) (by simp) (by simp), ?_⟩, ⟨?_, ?_⟩, ?_⟩, htrail⟩
  · rw [undoToLevel_mem, undoToLevel_size]
    exact h.vars
  · rw [undoToLevel_mem]
    exact h.clauses
  · rw [htrail]
    exact h₀.derived
  · rw [undoToLevel_litsRequiringWatcherUpdateAsVec]
    exact h.settled

theorem Justified.new (mem : ClauseRef → Clause) (n : Nat) : (Assignment.new mem n).Justified Φ A ∅ where
  trail := .new mem n
  watch := .new mem n
  vars _ hc := absurd hc (Set.notMem_empty _)
  clauses _ hc := absurd hc (Set.notMem_empty _)
  derived _ hl := absurd hl List.not_mem_nil
  settled := rfl

end

end Assignment

end JamSAT
