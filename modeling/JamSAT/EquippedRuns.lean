import JamSAT.BranchingSound
import JamSAT.EquippedMachine
import JamSAT.LBDSound
import JamSAT.ModelCheck
import JamSAT.SolveTerminates
import JamSAT.SolverAnswers
import JamSAT.SolverCalls

/-!
# Runs of the solver with all of its parts

No part gets into the way of another: in a call of `solve` there is always a next step, the
policies make the steps of a machine that terminates, and the answer at the end is right.
-/

namespace JamSAT

open UnitLogic FallibleState

namespace EquippedMachine

variable {D : Type} [OfScientific D] [LT D] [DecidableLT D] [Add D] [Mul D] [Div D] [Min D] [LE D] [DecidableLE D]
  [NatCast D] {p q : EquippedMachine D} {e : Event}

structure Inv (p : EquippedMachine D) : Prop where
  reachable : p.machine.Reachable
  tracks : BranchingMachine.Tracks p.machine p.m_branchingHeuristic
  sized : StampingMachine.Sized p.machine p.m_stamps
  lbds_le : ∀ c, p.lbds c ≤ LBDs.maxLBD
  restartPolicy : p.m_restartPolicy.Sane
  window : p.m_restartPolicy.m_averageLBD.capacity = movingAverageWindowSize

structure Stepped (p : EquippedMachine D) (e : Event) (q : EquippedMachine D) : Prop where
  chooses : p.chooses e = true
  heuristic : p.m_branchingHeuristic.step p.machine e = some q.m_branchingHeuristic
  stamps : Stamping.step p.machine e p.m_stamps = some ((), q.m_stamps)
  lbds : p.lbds.step p.machine e = some q.lbds
  restartPolicy : p.m_restartPolicy.step p.lbds p.machine e = some q.m_restartPolicy
  machine : p.machine.step e = some q.machine

theorem step_eq_some : p.step e = some q ↔ Stepped p e q := by
  constructor
  · intro h
    unfold step at h
    obtain ⟨_, hg, h⟩ := Option.bind_eq_some_iff.mp h
    obtain ⟨b, hb, h⟩ := Option.bind_eq_some_iff.mp h
    obtain ⟨⟨_, stamps⟩, hstamps, h⟩ := Option.bind_eq_some_iff.mp h
    obtain ⟨lbds, hlbds, h⟩ := Option.bind_eq_some_iff.mp h
    obtain ⟨policy, hpolicy, h⟩ := Option.bind_eq_some_iff.mp h
    obtain ⟨m, hm, h⟩ := Option.bind_eq_some_iff.mp h
    cases h
    refine ⟨?_, hb, hstamps, hlbds, hpolicy, hm⟩
    by_contra hn
    rw [guard, if_neg hn] at hg
    cases hg
  · rintro ⟨hg, hb, hstamps, hlbds, hpolicy, hm⟩
    unfold step
    rw [hg, hb, hstamps, hlbds, hpolicy, hm]
    rfl

/-! ## The invariant -/

omit [Add D] [Mul D] [Div D] [Min D] [LE D] [DecidableLE D] [NatCast D] in
theorem Inv.new (h : new = some p) : Inv p := by
  unfold EquippedMachine.new at h
  obtain ⟨b, hb, rfl⟩ := Option.map_eq_some_iff.mp h
  have htracks := BranchingMachine.Inv.new hb
  exact ⟨.init rfl, htracks.tracks, .new, fun _ => Nat.zero_le _, .new _, rfl⟩

theorem Inv.step (h : Inv p) (hreg : e.Regular) (hs : p.step e = some q) : Inv q := by
  obtain ⟨hchooses, hb, hstamps, hlbds, hpolicy, hm⟩ := step_eq_some.mp hs
  have hinv := Machine.Inv.of_reachable h.reachable
  obtain ⟨t, ht, hsized⟩ := h.sized.step h.reachable hm
  obtain ⟨lbds, hl, hup⟩ := hinv.lbds_step p.lbds hm
  obtain ⟨policy, hpol, hsane, hcount⟩ := h.restartPolicy.step hinv hm
  have ht : t = q.m_stamps := (Prod.mk.inj (Option.some.inj (ht.symm.trans hstamps))).2
  have hl : lbds = q.lbds := Option.some.inj (hl.symm.trans hlbds)
  have hpol : policy = q.m_restartPolicy := Option.some.inj (hpol.symm.trans hpolicy)
  refine ⟨.step h.reachable ⟨e, hreg, hm⟩, h.tracks.step hinv hreg hm hb, ht ▸ hsized, hl ▸ hup.le h.lbds_le,
    hpol ▸ hsane, ?_⟩
  have hwindow := congrArg GlucoseRestartPolicy.movingAverageWindowSize hcount
  rw [PacedMachine.notify_window, hpol] at hwindow
  exact hwindow.trans h.window

theorem Inv.of_reachable (h : p.Reachable) : Inv p :=
  Runs.Reachable.invariant (I := Inv) h (fun _ hp => .new hp) fun _ _ hi ⟨_, hr, hs⟩ => hi.step hr hs

/-! ## Steps -/

/-- When the machine takes a step that is chosen, all parts do. -/
theorem Inv.step_of_machine (h : Inv p) {m : Machine} (hm : p.machine.step e = some m) (hreg : e.Regular)
    (hchooses : p.chooses e = true)
    (hd : ∀ l, e = .decide l → ∃ b, p.m_branchingHeuristic.step p.machine e = some b) :
    ∃ q, p.step e = some q ∧ q.machine = m := by
  have hinv := Machine.Inv.of_reachable h.reachable
  have hb : ∃ b, p.m_branchingHeuristic.step p.machine e = some b := by
    by_cases hdec : ∃ l, e = .decide l
    · obtain ⟨l, hl⟩ := hdec
      exact hd l hl
    · obtain ⟨b, hb, -⟩ := h.tracks.follow hinv hreg (fun l hl => hdec ⟨l, hl⟩) hm
      exact ⟨b, hb⟩
  obtain ⟨b, hb⟩ := hb
  obtain ⟨t, ht, -⟩ := h.sized.step h.reachable hm
  obtain ⟨lbds, hl, -⟩ := hinv.lbds_step p.lbds hm
  obtain ⟨policy, hpol, -⟩ := h.restartPolicy.step hinv hm
  exact ⟨⟨m, b, t, lbds, policy⟩, step_eq_some.mpr ⟨hchooses, hb, ht, hl, hpol, hm⟩, rfl⟩

/-- A step of a call that nobody asks to stop. -/
def Steps (p q : EquippedMachine D) : Prop := ∃ e : Event, e.Regular ∧ e.asksToStop = false ∧ p.step e = some q

theorem Inv.steps_of_machine (h : Inv p) {m : Machine} (hm : p.machine.step e = some m) (hreg : e.Regular)
    (hchooses : p.chooses e = true) (hn : e.asksToStop = false) (hd : ∀ l, e ≠ .decide l) : ∃ q, Steps p q := by
  obtain ⟨q, hq, -⟩ := h.step_of_machine hm hreg hchooses fun l hl => absurd hl (hd l)
  exact ⟨q, e, hreg, hn, hq⟩

def paced (p : EquippedMachine D) : PacedMachine := ⟨p.machine, p.m_restartPolicy.count⟩

theorem Inv.paced_step (h : Inv p) (hn : e.asksToStop = false) (hs : p.step e = some q) :
    p.paced.step e = some q.paced := by
  obtain ⟨hchooses, hb, hstamps, hlbds, hpolicy, hm⟩ := step_eq_some.mp hs
  have hallows : PacedMachine.allows p.m_restartPolicy.count e = true := by
    cases e with
    | stop => cases hn
    | «continue» shouldRestart stopRequested =>
      obtain ⟨highLBD, hshould⟩ := p.m_restartPolicy.shouldRestart_eq
      have hrestart : shouldRestart = p.m_restartPolicy.count.shouldRestart highLBD :=
        (beq_iff_eq.mp hchooses).trans hshould
      have hstop : stopRequested = false := hn
      unfold PacedMachine.allows
      rw [hrestart, hstop]
      cases highLBD with
      | true => simp
      | false => simp
    | _ => rfl
  obtain ⟨policy, hpol, -, hcount⟩ := h.restartPolicy.step (Machine.Inv.of_reachable h.reachable) hm
  have hpol : policy = q.m_restartPolicy := Option.some.inj (hpol.symm.trans hpolicy)
  unfold PacedMachine.step paced
  dsimp only
  rw [if_pos hallows, hm, ← hpol, hcount]
  rfl

/-! ## There is a next step -/

omit [OfScientific D] [Add D] [Min D] [LE D] [DecidableLE D] in
theorem chooses_reduction (p : EquippedMachine D) : ∃ sorted lowLBD, sorted.Perm p.machine.solver.lemmas ∧
    p.chooses (.tryReduceClauseDB sorted lowLBD) = true := by
  obtain ⟨sorted, hperm, hsorted⟩ := p.lbds.exists_sorted p.machine.solver.mem p.machine.solver.lemmas
  refine ⟨sorted, p.lbds.lowMidLBD sorted p.machine.solver.amntBinariesLearnt, hperm, ?_⟩
  exact (Bool.and_eq_true _ _).mpr ⟨decide_eq_true hsorted, beq_self_eq_true _⟩

theorem lowLemmaLBD_isSome {m : Machine} (h : m.Inv) {c : ClauseRef} (hc : m.control = .conflict c) :
    ∃ lowLBD, LBDs.lowLemmaLBD m.solver c = some lowLBD := by
  obtain ⟨hdata, hat, -⟩ := h
  rw [hc] at hat
  cases hat with
  | conflict hr hassumed hclash h₂ =>
    obtain ⟨u, tail, tail', hconf, herase, -⟩ := hassumed.toSearching.minimized hdata hclash h₂
    unfold LBDs.lowLemmaLBD
    rw [hconf, Option.bind_eq_bind, Option.bind_some]
    dsimp only
    rw [herase]
    exact ⟨_, rfl⟩

theorem machine_resolve {m : Machine} (h : m.Inv) {c : ClauseRef} (hc : m.control = .conflict c) (lowLBD : Bool) :
    ∃ m', m.step (.resolve lowLBD) = some m' := by
  obtain ⟨hdata, hat, -⟩ := h
  unfold Machine.step
  rw [hc] at hat ⊢
  cases hat with
  | conflict hr hassumed hclash h₂ =>
    obtain ⟨⟨r, t⟩, he, -⟩ := hassumed.resolveConflict hdata hclash h₂ lowLBD
    dsimp only
    rw [he]
    cases r with
    | «continue» => exact ⟨_, rfl⟩
    | restart => exact ⟨_, rfl⟩
    | conflict d => exact ⟨_, rfl⟩

theorem Inv.decides (h : Inv p) (hc : p.machine.control = .deciding)
    (hi : p.machine.solver.assignment.isComplete = false) : ∃ q, Steps p q := by
  have hinv := Machine.Inv.of_reachable h.reachable
  obtain ⟨l, b, hpick, hindet, hvar, -⟩ := h.tracks.pick hinv hc hi
  have hm : ∃ m, p.machine.step (.decide l) = some m := by
    unfold Machine.step
    rw [hc]
    dsimp only
    rw [if_pos ⟨hi, hindet, hvar⟩]
    generalize p.machine.solver.newLevel.append l = r
    obtain ⟨_ | c, t⟩ := r
    · exact ⟨_, rfl⟩
    · exact ⟨_, rfl⟩
  obtain ⟨m, hm⟩ := hm
  obtain ⟨q, hq, -⟩ := h.step_of_machine hm trivial rfl fun l' hl => by
    cases hl
    unfold VSIDSBranchingHeuristic.step
    dsimp only
    rw [hpick, Option.bind_eq_bind, Option.bind_some]
    dsimp only
    rw [if_pos rfl]
    exact ⟨b, rfl⟩
  exact ⟨q, .decide l, trivial, rfl, hq⟩

/-- The parts agree on a next step. -/
theorem Inv.progress (h : Inv p) (hs : p.machine.Solving) : ∃ q, Steps p q := by
  have hinv := hs.inv
  -- the step that the machine makes for other LBDs
  obtain ⟨e, hreg, hsome, hstop, hcont⟩ := hs.progress p.m_restartPolicy.shouldRestart
  obtain ⟨m, hm⟩ := Option.isSome_iff_exists.mp hsome
  cases e with
  | stop => exact absurd rfl hstop
  | tryReduceClauseDB sorted' lowLBD' =>
    obtain ⟨sorted, lowLBD, hperm, hchooses⟩ := chooses_reduction p
    cases Machine.transition_of_step hm with
    | reduce hc hp =>
      have hm : p.machine.step (.tryReduceClauseDB sorted lowLBD) = some { p.machine with
          solver := p.machine.solver.tryReduceClauseDB sorted lowLBD, control := .reduced } := by
        unfold Machine.step
        rw [hc]
        exact if_pos hperm
      exact h.steps_of_machine hm trivial hchooses rfl fun _ => Event.noConfusion
  | decide l =>
    obtain ⟨hc, hi⟩ := Machine.deciding_of_step hm
    exact h.decides hc hi
  | resolve lowLBD' =>
    have key : ∀ c, p.machine.control = .conflict c → ∃ q, Steps p q := by
      intro c hc
      obtain ⟨lowLBD, hlow⟩ := lowLemmaLBD_isSome hinv hc
      obtain ⟨m', hm'⟩ := machine_resolve hinv hc lowLBD
      have hchooses : p.chooses (.resolve lowLBD) = true := by
        unfold chooses
        rw [hc]
        exact beq_iff_eq.mpr hlow
      exact h.steps_of_machine hm' trivial hchooses rfl fun _ => Event.noConfusion
    cases Machine.transition_of_step hm with
    | resolve hc => exact key _ hc
    | resolveRestart hc => exact key _ hc
    | resolveConflict hc => exact key _ hc
  | «continue» shouldRestart stopRequested =>
    obtain ⟨rfl, rfl⟩ := hcont _ _ rfl
    exact h.steps_of_machine hm hreg (beq_iff_eq.mpr rfl) rfl fun _ => Event.noConfusion
  | _ => exact h.steps_of_machine hm hreg rfl rfl fun _ => Event.noConfusion

/-! ## Calls of `solve` -/

def Answered (Φ : Set (Finset CNFLit)) (p : EquippedMachine D) : Prop :=
  ∃ r, p.machine.control = .ready (some r) ∧
    (r.isProblemSatisfiable = .TRUE ∧ ¬ Unsat Φ ∨ r.isProblemSatisfiable = .FALSE ∧ Unsat Φ)

structure InCall (added : List (List CNFLit)) (assumedFacts : List CNFLit) (p : EquippedMachine D) : Prop where
  inv : Inv p
  added_eq : p.machine.added = added
  assumedFacts_eq : p.machine.assumedFacts = assumedFacts
  running : ¬ p.paced.Determined → PacedMachine.Running p.paced

variable {added : List (List CNFLit)} {assumedFacts : List CNFLit}

omit [OfScientific D] [LT D] [DecidableLT D] [Add D] [Mul D] [Div D] [Min D] [LE D] [DecidableLE D] [NatCast D] in
theorem InCall.answered (h : InCall added assumedFacts p) (hd : p.paced.Determined) :
    Answered (addedSets added ∪ units {l | l ∈ assumedFacts}) p := by
  have hsound := (Machine.Inv.of_reachable h.inv.reachable).result
  rw [h.added_eq, h.assumedFacts_eq] at hsound
  cases hd with
  | inl htrue =>
    obtain ⟨r, hr, hv⟩ := Control.exists_of_verdict htrue
    refine ⟨r, hr, .inl ⟨hv, fun hunsat => ?_⟩⟩
    obtain ⟨model, -, hmodels⟩ := (hsound r hr).sat hv
    obtain ⟨hadded, hassumed⟩ := hmodels _ (model.extended_falsify [])
    exact hunsat _ (models_union.mpr ⟨hadded, models_units.mpr hassumed⟩)
  | inr hfalse =>
    obtain ⟨r, hr, hv⟩ := Control.exists_of_verdict hfalse
    exact ⟨r, hr, .inr ⟨hv, (hsound r hr).unsat hv⟩⟩

theorem InCall.step (h : InCall added assumedFacts p) (hd : ¬ p.paced.Determined) (hs : Steps p q) :
    p.paced.Steps q.paced ∧ InCall added assumedFacts q := by
  obtain ⟨e, hreg, hn, hs⟩ := hs
  have hrun := h.running hd
  have hpaced := h.inv.paced_step hn hs
  have hm := (step_eq_some.mp hs).machine
  obtain ⟨⟨hinternal, -⟩, -⟩ := PacedMachine.internal_of_step hrun.solving.busy hpaced
  obtain ⟨hadded, hassumed⟩ := Machine.frame_of_internal hinternal hm
  have hstep : p.paced.Steps q.paced := ⟨e, hreg, hpaced⟩
  refine ⟨hstep, h.inv.step hreg hs, hadded.trans h.added_eq, hassumed.trans h.assumedFacts_eq, fun hnot => ?_⟩
  exact ((hrun.step hstep).resolve_left hnot).1

theorem InCall.inevitable (h : InCall added assumedFacts p) :
    Runs.Inevitable Steps (Answered (addedSets added ∪ units {l | l ∈ assumedFacts})) p := by
  by_cases hd : p.paced.Determined
  · exact .now (h.answered hd)
  · refine (h.running hd).inevitable.simulated paced h (fun p hp hd => ?_) (fun p q hp hd hs => hp.step hd hs)
      fun p hp hd => hp.answered hd
    exact hp.inv.progress (hp.running hd).solving

/-- Whatever has been called before, a call of `solve` that nobody stops comes to its end, and
its answer is right. -/
theorem equipped_decides (h : p.Reachable) {r : Option SolvingResult} (hc : p.machine.control = .ready r)
    (hreg : ∀ l ∈ assumedFacts, l.var < CNFVar.undefinedVariable) :
    ∃ q, p.step (.solve assumedFacts) = some q ∧
      Runs.Inevitable Steps (Answered (addedSets p.machine.added ∪ units {l | l ∈ assumedFacts})) q := by
  have hp := Inv.of_reachable h
  obtain ⟨m, hm⟩ : ∃ m, p.machine.step (.solve assumedFacts) = some m := by
    unfold Machine.step
    rw [hc]
    dsimp only
    split
    · exact ⟨_, rfl⟩
    · exact ⟨_, rfl⟩
  have hreg : (Event.solve assumedFacts).Regular := hreg
  obtain ⟨q, hq, rfl⟩ := hp.step_of_machine hm hreg rfl fun _ hl => Event.noConfusion hl
  obtain ⟨hadded, hassumed⟩ := Machine.added_of_solve hm
  have hinv : Inv q := hp.step hreg hq
  refine ⟨q, hq, InCall.inevitable ⟨hinv, hadded, hassumed, fun hd => ?_⟩⟩
  have hwindow : 0 < q.m_restartPolicy.m_averageLBD.capacity := hinv.window ▸ (by decide)
  have hmachine := Machine.Inv.of_reachable hinv.reachable
  generalize hmq : q.machine = m at hm hmachine
  cases Machine.transition_of_step hm with
  | solveDetected _ hdetected => exact absurd (.inr (congrArg (fun m => m.control.verdict) hmq)) hd
  | solve _ hdetected =>
    refine ⟨?_, hwindow⟩
    show Machine.Solving q.machine
    rw [hmq]
    exact ⟨hmachine, PacedMachine.prepareSolve_nodup _ _, fun r => Control.noConfusion⟩

def firstCall : List Event :=
  Machine.firstConflict.take 7 ++ [.decide ⟨1, .negative⟩, .continue false false, .finish]

def afterCall : Option (EquippedMachine Rat) := new.bind fun p => firstCall.foldlM step p

theorem afterCall_reachable {p : EquippedMachine Rat} (h : afterCall = some p) : p.Reachable := by
  obtain ⟨p₀, hp₀, hrun⟩ := Option.bind_eq_some_iff.mp h
  have hregular : ∀ e ∈ firstCall, e.Regular := by decide
  exact Runs.Reachable.foldlM (.init hp₀) (fun e he _ _ hs => ⟨e, hregular e he, hs⟩) hrun

theorem afterCall_decides : ∃ p q, afterCall = some p ∧ p.step (.solve [⟨0, .negative⟩]) = some q ∧
    Runs.Inevitable Steps (Answered (addedSets p.machine.added ∪ units {l | l ∈ [⟨0, .negative⟩]})) q := by
  have hnext : (afterCall.bind fun p => p.machine.step .setDRATCertificate).isSome = true := by decide +kernel
  obtain ⟨m, hm⟩ := Option.isSome_iff_exists.mp hnext
  obtain ⟨p, hp, hs⟩ := Option.bind_eq_some_iff.mp hm
  cases Machine.transition_of_step hs with
  | setDRATCertificate hc =>
    have hregular : ∀ l ∈ ([⟨0, .negative⟩] : List CNFLit), l.var < CNFVar.undefinedVariable := by decide
    obtain ⟨q, hq, hinevitable⟩ := equipped_decides (afterCall_reachable hp) hc hregular
    exact ⟨p, q, hp, hq, hinevitable⟩

end EquippedMachine

end JamSAT
