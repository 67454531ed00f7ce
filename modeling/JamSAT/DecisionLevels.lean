import JamSAT.SolverRuns

/-!
# The number of decision levels

Above the levels of the facts and of the assumptions, every level begins with a decision. There
are at most as many of them as variables.
-/

namespace JamSAT

open UnitLogic Assignment

namespace Assignment

variable {s t : Assignment} {R K Z : Set ClauseRef} {dead : Set CNFLit}

def Populated (s : Assignment) : Prop := ∀ k, 2 ≤ k → k ≤ s.currentLevel → ∃ l ∈ s.trail, s.getLevel l.var = k

theorem Populated.of_le (h : s.currentLevel ≤ 1) : s.Populated := fun k h₂ hk =>
  absurd ((h₂.trans hk).trans h) (by decide)

theorem Populated.grow (h : s.Populated) (hg : Grows s t) : t.Populated := by
  intro k h₂ hk
  rw [hg.currentLevel] at hk
  obtain ⟨l, hl, hlevel⟩ := h k h₂ hk
  exact ⟨l, hg.trail.subset hl, (hg.getLevel hl).trans hlevel⟩

theorem Populated.undoToLevel (h : s.Populated) (hs : s.TrailInv) {k : Nat} (hk : k < s.currentLevel) :
    (s.undoToLevel k).Populated := by
  intro j h₂ hj
  rw [undoToLevel_currentLevel] at hj
  obtain ⟨l, hl, hlevel⟩ := h j h₂ (hj.trans hk.le)
  refine ⟨l, ?_, ?_⟩
  · rw [undoToLevel_trail]
    exact (hs.mem_take_limit hk).mpr ⟨hl, Nat.lt_succ_of_le (hlevel.trans_le hj)⟩
  · rw [getLevel, undoToLevel_reasonsAndALs]
    exact hlevel

theorem Populated.writeClause (h : s.Populated) (c : ClauseRef) (C : Clause) : (s.writeClause c C).Populated := h

theorem Populated.append (h : s.Populated) (hs : s.newLevel.TrailInv) (ht : t.TrailInv) {l : CNFLit}
    {r : Option ClauseRef} (ha : Appended l r s.newLevel t) (hl : l ∉ s.trail) : t.Populated := by
  intro k h₂ hk
  have hlevel : t.currentLevel = s.currentLevel + 1 := ha.grows.currentLevel
  by_cases hle : k ≤ s.currentLevel
  · obtain ⟨x, hx, he⟩ := h k h₂ hle
    exact ⟨x, ha.grows.trail.subset hx, (ha.grows.getLevel hx).trans he⟩
  · refine ⟨l, ha.mem, ?_⟩
    have hnew : t.getLevel l.var = s.currentLevel + 1 := ha.grows.level_new hs ht ha.mem hl
    omega

/-- The decisions are over different variables. -/
theorem Populated.currentLevel_le (h : s.Populated) (hs : s.TrailInv) : s.currentLevel ≤ s.size + 1 := by
  have hsub : List.range' 2 (s.currentLevel - 1) ⊆ s.trail.map fun l => s.getLevel l.var := by
    intro k hk
    obtain ⟨h₂, hk⟩ := List.mem_range'_1.mp hk
    obtain ⟨l, hl, hlevel⟩ := h k h₂ (by omega)
    exact List.mem_map.mpr ⟨l, hl, hlevel⟩
  have hnodup : (List.range' 2 (s.currentLevel - 1)).Nodup := List.nodup_range'
  have hcard := (hnodup.subperm hsub).length_le
  rw [List.length_range', List.length_map] at hcard
  have hlen := hs.length_le
  omega

end Assignment

namespace CDCLSatSolver

theorem Searching.populated_resolveConflict {Φ : Set (Finset CNFLit)} {K Z : Set ClauseRef} {dead : Set CNFLit}
    {assumedFacts : List CNFLit} {s : CDCLSatSolver} {c : ClauseRef} (h : Searching K dead assumedFacts s)
    (hdata : Data Φ s) (hc : Clash s.clauses K Z dead c s.assignment) (h₂ : 2 ≤ s.assignment.currentLevel)
    (hp : s.assignment.Populated) {lowLBD : Bool} {r : ResolveResult × CDCLSatSolver}
    (he : s.resolveConflict lowLBD c = some r) : r.2.assignment.Populated := by
  obtain ⟨lits, k, e, hl, hres, hcase⟩ := h.resolveConflict hdata hc h₂ lowLBD
  obtain rfl : e = r := Option.some.inj (hres.symm.trans he)
  cases hcase with
  | inl hfact =>
    obtain ⟨l, -, -, hlearn⟩ := hfact
    rw [hlearn]
    exact hp
  | inr hclause =>
    obtain ⟨hlen, hlearn⟩ := hclause
    obtain ⟨t, ht⟩ : ∃ t, t = s.resumed lits k := ⟨_, rfl⟩
    have hgrows := (grows_registerLemma_resumed hdata hc hl hlen ht).2
    have hback : t.assignment.Populated := by
      rw [ht, resumed_assignment]
      exact (hp.writeClause _ _).undoToLevel
        (hc.core.writeClause (fun hmem => hdata.ne_nextClause hmem rfl) _).trail hl.lt
    rw [hlearn, afterLemma_snd, ← ht]
    exact hback.grow hgrows

end CDCLSatSolver

namespace Machine

open CDCLSatSolver

variable {m m' : Machine}

theorem Inv.populated_append (h : Inv m) (hp : m.solver.assignment.Populated) (hc : m.control = .deciding)
    {l : CNFLit} (hl : m.solver.assignment.getAssignment l = .INDETERMINATE) (hv : l.var ≤ m.solver.maxVar) :
    (m.solver.newLevel.append l).2.assignment.Populated := by
  obtain ⟨hdata, hat, -⟩ := h
  rw [hc] at hat
  cases hat with
  | deciding hr hassumed hsteady =>
    have hnew : l ∉ m.solver.assignment.trail := by
      intro hmem
      rw [(hsteady.trailInv.mem_trail l).mp hmem] at hl
      cases hl
    obtain ⟨ht, ha⟩ := appended_newLevel hsteady hassumed.size_eq hl hv
    exact hp.append hsteady.newLevel.trailInv ht ha hnew

theorem Inv.populated_decide (h : Inv m) (hp : m.solver.assignment.Populated) {l : CNFLit}
    (hs : m.step (.decide l) = some m') : m'.solver.assignment.Populated := by
  cases transition_of_step hs with
  | decide hc hl he =>
    have happend := h.populated_append hp hc hl.2.1 hl.2.2
    rw [he] at happend
    exact happend
  | decideConflict hc hl he =>
    have happend := h.populated_append hp hc hl.2.1 hl.2.2
    rw [he] at happend
    exact happend

theorem Inv.populated_resolved (h : Inv m) (hp : m.solver.assignment.Populated) {lowLBD : Bool} {c : ClauseRef}
    (hc : m.control = .conflict c) {r : ResolveResult × CDCLSatSolver}
    (he : m.solver.resolveConflict lowLBD c = some r) : r.2.assignment.Populated := by
  obtain ⟨hdata, hat, -⟩ := h
  rw [hc] at hat
  cases hat with
  | conflict hr hassumed hclash h₂ => exact hassumed.toSearching.populated_resolveConflict hdata hclash h₂ hp he

theorem Inv.populated_resolve (h : Inv m) (hp : m.solver.assignment.Populated) {lowLBD : Bool}
    (hs : m.step (.resolve lowLBD) = some m') : m'.solver.assignment.Populated := by
  cases transition_of_step hs with
  | resolve hc he => exact h.populated_resolved hp hc he
  | resolveRestart hc he => exact .of_le (Nat.zero_le 1)
  | resolveConflict hc he => exact h.populated_resolved hp hc he

theorem populated_continue (hp : m.solver.assignment.Populated) {shouldRestart stopRequested : Bool}
    (hs : m.step (.continue shouldRestart stopRequested) = some m') : m'.solver.assignment.Populated := by
  cases transition_of_step hs with
  | restart hc => exact .of_le (Nat.zero_le 1)
  | stopped hc hn => exact .of_le (Nat.zero_le 1)
  | «continue» hc hn => exact hp

theorem Inv.populated_propagateAssumedFacts (h : Inv m) (hs : m.step .propagateAssumedFacts = some m') :
    m'.solver.assignment.Populated := by
  obtain ⟨hdata, hat, -⟩ := h
  cases transition_of_step hs with
  | assumptionsRefuted hc he ha => exact .of_le (Nat.zero_le 1)
  | assumptions hc he =>
    rw [hc] at hat
    cases hat with
    | assuming hr hsearch hsteady h₁ =>
      have hlevel := (hsearch.propagateFacts hdata hsteady h₁ hr.vars).2.2.2
      rw [he] at hlevel
      exact .of_le hlevel.le

/-- Outside the loop of `solveUntilRestart` there are no decisions. -/
theorem At.populated {assumedFacts : List CNFLit} {s : CDCLSatSolver} {control : Control}
    (h : At assumedFacts s control) (hd : control ≠ .deciding) (hdd : control ≠ .decided)
    (hc : ∀ c, control ≠ .conflict c) : s.assignment.Populated := by
  cases h with
  | ready _ h => exact .of_le (h.level_zero.le.trans (Nat.zero_le 1))
  | restarting _ h => exact .of_le (h.level_zero.le.trans (Nat.zero_le 1))
  | simplified _ h => exact .of_le (h.level_zero.le.trans (Nat.zero_le 1))
  | reduced _ h => exact .of_le (h.level_zero.le.trans (Nat.zero_le 1))
  | assuming _ _ _ h₁ => exact .of_le h₁.le
  | deciding => exact absurd rfl hd
  | decided => exact absurd rfl hdd
  | conflict => exact absurd rfl (hc _)

/-- The other steps lead to states without decisions. -/
theorem control_of_step {e : Event} (hs : m.step e = some m') (hassume : e ≠ .propagateAssumedFacts)
    (hdecide : ∀ l, e ≠ .decide l) (hresolve : ∀ b, e ≠ .resolve b) (hcontinue : ∀ b b', e ≠ .continue b b') :
    m'.control ≠ .deciding ∧ m'.control ≠ .decided ∧ ∀ c, m'.control ≠ .conflict c := by
  have hready : ∀ r, m'.control = .ready r →
      m'.control ≠ .deciding ∧ m'.control ≠ .decided ∧ ∀ c, m'.control ≠ .conflict c := by
    intro r hr
    simp [hr]
  cases transition_of_step hs with
  | addClause hc => exact hready _ rfl
  | addProblem hc => exact hready _ rfl
  | setDRATCertificate hc => exact hready _ rfl
  | solveDetected hc hd => exact hready _ rfl
  | solve hc hd => simp
  | stop hc => exact hready _ rfl
  | simplifyRefuted hc he => exact hready _ rfl
  | simplify hc he => simp
  | reduce hc hp => simp
  | factsRefuted hc he => exact hready _ rfl
  | facts hc he => simp
  | assumptionsRefuted hc he ha => exact absurd rfl hassume
  | assumptions hc he => exact absurd rfl hassume
  | decide hc hl he => exact absurd rfl (hdecide _)
  | decideConflict hc hl he => exact absurd rfl (hdecide _)
  | resolve hc he => exact absurd rfl (hresolve _)
  | resolveRestart hc he => exact absurd rfl (hresolve _)
  | resolveConflict hc he => exact absurd rfl (hresolve _)
  | restart hc => exact absurd rfl (hcontinue _ _)
  | stopped hc hn => exact absurd rfl (hcontinue _ _)
  | «continue» hc hn => exact absurd rfl (hcontinue _ _)
  | finish hc hcomplete => exact hready _ rfl

theorem Inv.populated_step (h : Inv m) (hp : m.solver.assignment.Populated) {e : Event} (hr : e.Regular)
    (hs : m.step e = some m') : m'.solver.assignment.Populated := by
  cases e with
  | propagateAssumedFacts => exact h.populated_propagateAssumedFacts hs
  | decide l => exact h.populated_decide hp hs
  | resolve lowLBD => exact h.populated_resolve hp hs
  | «continue» shouldRestart stopRequested => exact populated_continue hp hs
  | _ =>
    obtain ⟨hd, hdd, hc⟩ := control_of_step hs Event.noConfusion (fun _ => Event.noConfusion)
      (fun _ => Event.noConfusion) fun _ _ => Event.noConfusion
    exact (h.step hr hs).control.populated hd hdd hc

theorem populated_of_reachable (h : m.Reachable) : m.solver.assignment.Populated := by
  have hinv : Inv m ∧ m.solver.assignment.Populated := by
    refine Runs.Reachable.invariant (I := fun m => Inv m ∧ m.solver.assignment.Populated) h ?_ ?_
    · intro m hm
      rw [hm]
      exact ⟨.new, .of_le (Nat.zero_le 1)⟩
    · intro m m' hm hs
      obtain ⟨e, hr, hs⟩ := hs
      exact ⟨hm.1.step hr hs, hm.1.populated_step hm.2 hr hs⟩
  exact hinv.2

end Machine

end JamSAT
