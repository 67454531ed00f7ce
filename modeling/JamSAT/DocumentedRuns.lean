import JamSAT.AssignmentSound
import JamSAT.TrailGrowth
import JamSAT.WatchRuns

/-!
# The assignment in all documented runs

What the class documents about its operations is less than the contract of `Legal`: a
clause may be registered whenever none of its literals is assigned, a lemma may force
its first literal on any level, and a conflict may be followed by any operation.
Propagation is not complete in such runs, but every reason explains its literal.
-/

namespace JamSAT

namespace Session

open Assignment

/-- The documented preconditions. Registered clauses are modified, and the clauses
cleared, while nothing is assigned. -/
def Documented (σ : Session) : Op → Prop
  | .increaseMaxVar n => σ.asg.size ≤ n + 1
  | .registerClause c => c ∉ σ.registered ∧ 2 ≤ (σ.asg.mem c).size ∧
      ∀ l ∈ (σ.asg.mem c).lits, l.var < σ.asg.size ∧ σ.asg.getAssignment l = .INDETERMINATE
  | .registerLemma c => c ∉ σ.registered ∧ 2 ≤ (σ.asg.mem c).size ∧
      (∀ l ∈ (σ.asg.mem c).lits, l.var < σ.asg.size) ∧
      σ.asg.getAssignment ((σ.asg.mem c).lit 0) = .INDETERMINATE ∧
      ∀ x ∈ (σ.asg.mem c).lits.tail, σ.asg.getAssignment x = .FALSE
  | .registerClauseModification c => σ.asg.trail = [] ∧ c ∈ σ.registered
  | .modify c cl => σ.Watchable (.modify c cl) ∧
      (c ∈ σ.registered → σ.asg.trail = [] ∧ ∀ l ∈ cl.lits, l.var < σ.asg.size)
  | .clearClauses => σ.asg.trail = []
  | .newLevel => True
  | .append l _ => σ.asg.getAssignment l = .INDETERMINATE ∧ l.var < σ.asg.size
  | .undoToLevel k => k < σ.asg.currentLevel
  | .undoAll => True

instance (σ : Session) : ∀ op, Decidable (σ.Documented op)
  | .increaseMaxVar n => inferInstanceAs (Decidable (σ.asg.size ≤ n + 1))
  | .registerClause c => inferInstanceAs (Decidable (c ∉ σ.registered ∧ 2 ≤ (σ.asg.mem c).size ∧
      ∀ l ∈ (σ.asg.mem c).lits, l.var < σ.asg.size ∧ σ.asg.getAssignment l = .INDETERMINATE))
  | .registerLemma c => inferInstanceAs (Decidable (c ∉ σ.registered ∧ 2 ≤ (σ.asg.mem c).size ∧
      (∀ l ∈ (σ.asg.mem c).lits, l.var < σ.asg.size) ∧
      σ.asg.getAssignment ((σ.asg.mem c).lit 0) = .INDETERMINATE ∧
      ∀ x ∈ (σ.asg.mem c).lits.tail, σ.asg.getAssignment x = .FALSE))
  | .registerClauseModification c => inferInstanceAs (Decidable (σ.asg.trail = [] ∧ c ∈ σ.registered))
  | .modify c cl => inferInstanceAs (Decidable (σ.Watchable (.modify c cl) ∧
      (c ∈ σ.registered → σ.asg.trail = [] ∧ ∀ l ∈ cl.lits, l.var < σ.asg.size)))
  | .clearClauses => inferInstanceAs (Decidable (σ.asg.trail = []))
  | .newLevel => .isTrue trivial
  | .append l _ => inferInstanceAs (Decidable (σ.asg.getAssignment l = .INDETERMINATE ∧ l.var < σ.asg.size))
  | .undoToLevel k => inferInstanceAs (Decidable (k < σ.asg.currentLevel))
  | .undoAll => .isTrue trivial

theorem Documented.watchable {σ : Session} {op : Op} (hok : σ.Documented op) : σ.Watchable op := by
  cases op with
  | registerClause c => exact ⟨hok.1, hok.2.1⟩
  | registerLemma c => exact ⟨hok.1, hok.2.1⟩
  | registerClauseModification c => exact hok.2
  | modify c cl => exact hok.1
  | _ => trivial

end Session

namespace Assignment

variable {R K Z : Set ClauseRef} {s : Assignment} {p : CNFLit}

theorem Explained.stable : Stable R (Explained R) where
  force _ _ _ ht h hl hc _ := h.assign ht hl fun _ he => Option.some.inj he ▸ hc
  move _ _ _ _ _ ht h hn := h.moveWatch ht hn

/-- Every propagation, one after a pending cleanup too, leaves all reasons explained. -/
theorem Explained.propagateUntilFixpoint (h : s.Explained R) (ht : s.TrailInv) (hw : WatchInv R K Z s.dirty s)
    (hK : ∀ c ∈ K, (s.mem c).scheduledForDeletion = false)
    (hv : ∀ c ∈ R, ∀ l ∈ (s.mem c).lits, l.var < s.size) (hp : p ∈ s.trail) (mode : UpMode) :
    Consistent R K Z (s.propagateUntilFixpoint p mode).2 ∧ (s.propagateUntilFixpoint p mode).2.Explained R := by
  have key : ∀ t : Assignment, t.litsRequiringWatcherUpdateAsVec = [] → Consistent R K Z t → t.Explained R →
      p ∈ t.trail →
      Consistent R K Z (t.propagateUntilFixpoint p mode).2 ∧ (t.propagateUntilFixpoint p mode).2.Explained R := by
    intro t hvec ht he hp
    refine (Explained.stable.propagateUntilFixpoint ht he hp hvec).both
      (P := fun u => Consistent R K Z u ∧ u.Explained R) ?_ ?_
    · rintro u ⟨f, hu⟩
      exact ⟨hu.consistent, hu.holds⟩
    · intro c u hu
      exact ⟨hu.consistent, hu.holds⟩
  by_cases hvec : s.litsRequiringWatcherUpdateAsVec = []
  · exact key s hvec ⟨ht, dirty_eq_empty_iff.mpr hvec ▸ hw, hv⟩ h hp
  · rw [propagateUntilFixpoint_cleanup p hvec]
    have hsame := sameTrail_cleanupWatchers s
    refine key _ rfl ⟨hsame.trailInv ht, hw.cleanupWatchers hK (Set.Subset.refl _), ?_⟩ ?_ (hsame.trail ▸ hp)
    · rw [cleanupWatchers_mem, hsame.size]
      exact hv
    · exact h.transfer (Set.Subset.refl R) (cleanupWatchers_mem s) (hsame.trail ▸ List.prefix_refl _)
        fun _ _ => congrFun hsame.reasonsAndALs _

end Assignment

namespace Session

open Assignment

structure ReasonRun (σ : Session) : Prop where
  lists : WatchRun true σ
  trail : σ.asg.TrailInv
  vars : ∀ c ∈ σ.registered, ∀ l ∈ (σ.asg.mem c).lits, l.var < σ.asg.size
  reasons : σ.asg.Explained {c | c ∈ σ.registered}

namespace ReasonRun

variable {σ : Session}

theorem new (mem : ClauseRef → Clause) (n : Nat) : ReasonRun (Session.new mem n) where
  lists := WatchRun.new mem n
  trail := TrailInv.new mem n
  vars := by simp [Session.new]
  reasons := Explained.of_trail_nil rfl

variable (h : ReasonRun σ)
include h

theorem retrail {t : Assignment} {r : Option ClauseRef} {e : Bool}
    (hl : WatchRun true { σ with asg := t, conflict := r, excluded := e }) (ht : t.TrailInv)
    (hm : t.mem = σ.asg.mem) (hs : σ.asg.size ≤ t.size) (hp : t.trail <+: σ.asg.trail)
    (hk : ∀ l ∈ t.trail, t.reasonsAndALs l.var = σ.asg.reasonsAndALs l.var) :
    ReasonRun { σ with asg := t, conflict := r, excluded := e } where
  lists := hl
  trail := ht
  vars c hc l hl := (h.vars c hc l (by simpa only [hm] using hl)).trans_le hs
  reasons := h.reasons.transfer (Set.Subset.refl _) hm hp hk

theorem registerClause {c : ClauseRef} (hok : σ.Documented (.registerClause c))
    (hl : WatchRun true (σ.exec (.registerClause c))) : ReasonRun (σ.exec (.registerClause c)) := by
  have hsame := sameTrail_registerClause σ.asg c
  refine ⟨hl, hsame.trailInv h.trail, ?_, ?_⟩
  · show ∀ d ∈ c :: σ.registered, ∀ l ∈ ((σ.asg.registerClause c).mem d).lits,
      l.var < (σ.asg.registerClause c).size
    rw [registerClause_mem, hsame.size]
    exact List.forall_mem_cons.mpr ⟨fun l hl => (hok.2.2 l hl).1, h.vars⟩
  · exact h.reasons.transfer (fun d hd => List.mem_cons_of_mem _ hd) (registerClause_mem _ _)
      (hsame.trail ▸ List.prefix_refl _) fun _ _ => congrFun hsame.reasonsAndALs _

omit h in
/-- The state after the propagation of the last entry of `s`. -/
theorem propagated {τ : Session} {s : Assignment} {p : CNFLit} {mode : UpMode} {K : Set ClauseRef}
    (hl : WatchRun true (τ.propagated (s.propagateUntilFixpoint p mode))) (ht : s.TrailInv)
    (hw : WatchInv {d | d ∈ τ.registered} K {d | d ∈ τ.predeleted} s.dirty s)
    (hv : ∀ c ∈ τ.registered, ∀ l ∈ (s.mem c).lits, l.var < s.size)
    (he : s.Explained {d | d ∈ τ.registered}) (hp : p ∈ s.trail) :
    ReasonRun (τ.propagated (s.propagateUntilFixpoint p mode)) := by
  have hsub : {c | c ∈ K ∧ (s.mem c).scheduledForDeletion = false} ⊆ K := fun _ hc => hc.1
  obtain ⟨hc, hr⟩ := he.propagateUntilFixpoint ht (hw.mono hsub (Set.Subset.refl _) (Set.Subset.refl _))
    (fun _ hc => hc.2) hv hp mode
  exact ⟨hl, hc.trail, hc.vars, hr⟩

theorem append {l : CNFLit} {mode : UpMode} (hok : σ.Documented (.append l mode))
    (hl : WatchRun true (σ.exec (.append l mode))) : ReasonRun (σ.exec (.append l mode)) := by
  obtain ⟨hind, hlt⟩ := hok
  exact propagated hl (h.trail.assign hind hlt none) (h.lists.watch.congr rfl rfl rfl) h.vars
    (h.reasons.assign h.trail hind fun _ hc => nomatch hc)
    (List.mem_append_right _ (List.mem_singleton_self l))

theorem registerLemma {c : ClauseRef} (hok : σ.Documented (.registerLemma c))
    (hl : WatchRun true (σ.exec (.registerLemma c))) : ReasonRun (σ.exec (.registerLemma c)) := by
  obtain ⟨hc, hs, hvars, h₀, h₁⟩ := hok
  have hsame := sameTrail_registerClause σ.asg c
  have hmem := registerClause_mem σ.asg c
  have ht := hsame.trailInv h.trail
  have hind : (σ.asg.registerClause c).getAssignment ((σ.asg.mem c).lit 0) = .INDETERMINATE := by
    rw [hsame.getAssignment]; exact h₀
  have hexp : (σ.asg.registerClause c).Explained {d | d ∈ (σ.enter c).registered} :=
    h.reasons.transfer (fun d hd => List.mem_cons_of_mem _ hd) hmem (hsame.trail ▸ List.prefix_refl _)
      fun _ _ => congrFun hsame.reasonsAndALs _
  have hothers : ∀ x ∈ (σ.asg.mem c).lits, x ≠ (σ.asg.mem c).lit 0 → σ.asg.getAssignment x = .FALSE := by
    intro x hx hne
    refine h₁ x ?_
    obtain ⟨l, ls, he⟩ := List.exists_cons_of_ne_nil (List.ne_nil_of_mem hx)
    have hl : (σ.asg.mem c).lit 0 = l := by rw [Clause.lit, he]; rfl
    rw [he] at hx ⊢
    exact (List.mem_cons.mp hx).resolve_left (hl ▸ hne)
  refine propagated (τ := σ.enter c) (K := insert c (σ.kept true)) hl (ht.assign (hmem ▸ hind) ?_ _) ?_ ?_ ?_
    (List.mem_append_right _ (List.mem_singleton_self _))
  · rw [hmem, hsame.size]
    exact hvars _ (Clause.lit_mem (by omega))
  · have hd : (σ.asg.registerClause c).dirty = σ.asg.dirty := by
      unfold Assignment.registerClause; dsimp only; split <;> rfl
    show WatchInv _ _ _ (σ.asg.registerClause c).dirty _
    rw [hd]
    exact (h.lists.enter hc hs).congr rfl rfl rfl
  · show ∀ d ∈ c :: σ.registered, ∀ l ∈ ((σ.asg.registerClause c).mem d).lits,
      l.var < (σ.asg.registerClause c).size
    rw [hmem, hsame.size]
    exact List.forall_mem_cons.mpr ⟨hvars, h.vars⟩
  · refine hexp.assign ht (hmem ▸ hind) fun d hd => Option.some.inj hd ▸ ⟨List.mem_cons_self, ⟨0, rfl⟩, ?_⟩
    rw [hmem]
    intro x hx hne
    rw [hsame.getAssignment]
    exact hothers x hx hne

theorem registerClauseModification {c : ClauseRef} (hok : σ.Documented (.registerClauseModification c))
    (hl : WatchRun true (σ.exec (.registerClauseModification c))) :
    ReasonRun (σ.exec (.registerClauseModification c)) := by
  obtain ⟨D, V, he⟩ := registerClauseModification_eq σ.asg c
  have hsame : SameTrail σ.asg (σ.asg.registerClauseModification c) := by
    rw [he]; exact ⟨rfl, rfl, rfl, rfl, rfl, rfl⟩
  refine ⟨hl, hsame.trailInv h.trail, ?_, Explained.of_trail_nil (hsame.trail.trans hok.1)⟩
  show ∀ d ∈ σ.registered, ∀ l ∈ ((σ.asg.registerClauseModification c).mem d).lits,
    l.var < (σ.asg.registerClauseModification c).size
  rw [hsame.size, he]
  exact h.vars

theorem modify {c : ClauseRef} {cl : Clause} (hok : σ.Documented (.modify c cl))
    (hl : WatchRun true (σ.exec (.modify c cl))) : ReasonRun (σ.exec (.modify c cl)) := by
  have hsame := sameTrail_writeClause σ.asg c cl
  by_cases hc : c ∈ σ.registered
  · obtain ⟨hnil, hvars⟩ := hok.2 hc
    refine ⟨hl, hsame.trailInv h.trail, fun d hd l hld => ?_, Explained.of_trail_nil hnil⟩
    have hld : l ∈ ((σ.asg.writeClause c cl).mem d).lits := hld
    by_cases hdc : d = c
    · subst hdc
      rw [writeClause_mem_self] at hld
      exact hvars l hld
    · rw [writeClause_mem_of_ne hdc] at hld
      exact h.vars d hd l hld
  · have hmem : ∀ d ∈ σ.registered, (σ.asg.writeClause c cl).mem d = σ.asg.mem d :=
      fun d hd => writeClause_mem_of_ne fun he => hc (he ▸ hd)
    refine ⟨hl, hsame.trailInv h.trail, fun d hd l hld => ?_, ⟨h.reasons.registered, fun pre l hp d hd => ?_⟩⟩
    · exact h.vars d hd l (hmem d hd ▸ hld)
    · have hlt : l ∈ σ.asg.trail := hp.subset (List.mem_append_right _ (List.mem_singleton_self l))
      obtain ⟨hw, ho⟩ := h.reasons.reason pre l hp d hd
      have hm := hmem d (h.reasons.registered l hlt d hd)
      exact ⟨by rw [exec, hm]; exact hw, by rw [exec, hm]; exact ho⟩

theorem exec {op : Op} (hok : σ.Documented op) : ReasonRun (σ.exec op) := by
  have hl := h.lists.exec hok.watchable fun hm => absurd hm.symm Bool.false_ne_true
  cases op with
  | increaseMaxVar n =>
    exact h.retrail hl (h.trail.increaseMaxVar n) (by simp) (le_increaseMaxVar_size n) (by simp)
      fun _ hl => increaseMaxVar_kept h.trail (by simpa using hl)
  | registerClause c => exact h.registerClause hok hl
  | registerLemma c => exact h.registerLemma hok hl
  | registerClauseModification c => exact h.registerClauseModification hok hl
  | modify c cl => exact h.modify hok hl
  | clearClauses =>
    have hsame : SameTrail σ.asg σ.asg.clearClauses := ⟨rfl, rfl, rfl, rfl, rfl, rfl⟩
    exact ⟨hl, hsame.trailInv h.trail, by simp [Session.exec], Explained.of_trail_nil hok⟩
  | newLevel => exact h.retrail hl h.trail.newLevel rfl (Nat.le_refl _) (List.prefix_refl _) fun _ _ => rfl
  | append l mode => exact h.append hok hl
  | undoToLevel k =>
    exact h.retrail hl (h.trail.undoToLevel hok) (by simp) (by simp)
      (by rw [undoToLevel_trail]; exact List.take_prefix _ _) fun _ _ => by simp
  | undoAll => exact h.retrail hl h.trail.undoAll (by simp) (by simp) (by simp) (by simp)

omit h in
theorem of_reachable (h : Session.Reachable Documented σ) : ReasonRun σ :=
  Runs.Reachable.invariant h (fun _ ⟨mem, n, he⟩ => he ▸ new mem n)
    fun _ _ hσ ⟨_, hok, he⟩ => he ▸ hσ.exec hok

end ReasonRun

end Session

end JamSAT
