import JamSAT.IPASIRContext
import JamSAT.SolveTerminates

/-!
# Answers of calls that nobody stops

A call of `solve` that is not asked to stop returns `TRUE` or `FALSE`, and there is
one for all clauses and assumptions.
-/

namespace JamSAT

def Event.asksToStop : Event → Bool
  | .stop => true
  | .continue _ stopRequested => stopRequested
  | _ => false

namespace Machine

variable {m m' : Machine} {e : Event} {r : SolvingResult} {assumedFacts : List CNFLit} {run : List Event}

def Decisive (m : Machine) : Prop :=
  ∀ r, m.control = .ready (some r) → r.isProblemSatisfiable ≠ .INDETERMINATE

theorem decisive_conclude {s : CDCLSatSolver} {b : TBool} {failedAssumptions : List CNFLit}
    (hb : b ≠ .INDETERMINATE) : Decisive (m.conclude s b failedAssumptions) := by
  intro r hr
  obtain rfl := Option.some.inj (Control.ready.inj hr)
  exact hb

theorem decisive_of_step (hs : m.step e = some m') (hn : e.asksToStop = false) : Decisive m' := by
  cases transition_of_step hs with
  | solveDetected =>
    intro r hr
    cases hr
    exact TBool.noConfusion
  | stop => cases hn
  | stopped => cases hn
  | simplifyRefuted => exact decisive_conclude TBool.noConfusion
  | factsRefuted => exact decisive_conclude TBool.noConfusion
  | assumptionsRefuted => exact decisive_conclude TBool.noConfusion
  | finish => exact decisive_conclude TBool.noConfusion
  | _ =>
    intro r hr
    cases hr

theorem decisive_of_run (hn : ∀ e ∈ run, e.asksToStop = false) (hm : Decisive m) (hs : m.run run = some m') :
    Decisive m' := by
  induction run generalizing m with
  | nil =>
    cases hs
    exact hm
  | cons e es ih =>
    obtain ⟨he, hes⟩ := List.forall_mem_cons.mp hn
    obtain ⟨u, hu, hs⟩ := Option.bind_eq_some_iff.mp hs
    exact ih hes (decisive_of_step hu he) hs

theorem decisive_of_solve (hn : ∀ e ∈ run, e.asksToStop = false) (hs : m.solve assumedFacts run = some (r, m')) :
    r.isProblemSatisfiable ≠ .INDETERMINATE := by
  unfold Machine.solve at hs
  split at hs
  · obtain ⟨u, hu, hs⟩ := Option.bind_eq_some_iff.mp hs
    obtain ⟨v, hv, hu⟩ := Option.bind_eq_some_iff.mp hu
    split at hs
    · rename_i r' hc
      obtain ⟨rfl, rfl⟩ := Prod.mk.inj (Option.some.inj hs)
      exact decisive_of_run hn (decisive_of_step hv rfl) hu _ hc
    · cases hs
  · cases hs

end Machine

namespace PacedMachine

variable {p q : PacedMachine} {e : Event}

theorem internal_of_step (hb : ∀ r, p.machine.control ≠ .ready r) (hs : p.step e = some q) :
    (e.internal = true ∧ e.asksToStop = false) ∧ p.machine.step e = some q.machine := by
  unfold step at hs
  split at hs
  · rename_i ha
    obtain ⟨m, hm, rfl⟩ := Option.map_eq_some_iff.mp hs
    refine ⟨⟨?_, ?_⟩, hm⟩
    · cases Machine.transition_of_step hm with
      | addClause hc => exact absurd hc (hb _)
      | addProblem hc => exact absurd hc (hb _)
      | setDRATCertificate hc => exact absurd hc (hb _)
      | solveDetected hc => exact absurd hc (hb _)
      | solve hc => exact absurd hc (hb _)
      | _ => rfl
    · cases e with
      | stop => cases ha
      | «continue» shouldRestart stopRequested =>
        unfold allows at ha
        rw [Bool.and_eq_true] at ha
        exact Bool.not_eq_true' stopRequested |>.mp ha.1
      | _ => rfl
  · cases hs

theorem machine_run {es : List Event} (h : es.foldlM step p = some q) : p.machine.run es = some q.machine := by
  induction es generalizing p with
  | nil =>
    cases h
    rfl
  | cons e es ih =>
    rw [List.foldlM_cons] at h
    obtain ⟨u, hu, h⟩ := Option.bind_eq_some_iff.mp h
    have hm : p.machine.step e = some u.machine := by
      unfold step at hu
      split at hu
      · obtain ⟨m, hm, rfl⟩ := Option.map_eq_some_iff.mp hu
        exact hm
      · cases hu
    show (p.machine.step e).bind _ = _
    rw [hm]
    exact ih h

theorem Running.exists_run (h : Running p) : ∃ run m', (∀ e ∈ run, e.internal = true ∧ e.asksToStop = false) ∧
    p.machine.run run = some m' ∧ ∃ r, m'.control = .ready (some r) := by
  obtain ⟨es, q, hes, hq, hd⟩ := h.inevitable.exists_run PacedMachine.step
    (fun e : Event => e.internal = true ∧ e.asksToStop = false) (I := Running) h
    (fun s t hs hst => (hs.step hst).imp_right fun ht => ht.1) fun s t hs hst => by
      obtain ⟨e, -, he⟩ := hst
      exact ⟨e, (internal_of_step hs.solving.busy he).1, he⟩
  refine ⟨es, q.machine, hes, machine_run hq, ?_⟩
  rcases hd with hd | hd <;> obtain ⟨r, hr, -⟩ := Control.exists_of_verdict hd <;> exact ⟨r, hr⟩

end PacedMachine

namespace Machine

/-- There is a call that nobody asks to stop. -/
theorem exists_solve {m : Machine} (h : m.Reachable) {c : Option SolvingResult} (hc : m.control = .ready c)
    {assumedFacts : List CNFLit} (hreg : ∀ l ∈ assumedFacts, l.var < CNFVar.undefinedVariable) :
    ∃ run r m', (∀ e ∈ run, e.asksToStop = false) ∧ m.solve assumedFacts run = some (r, m') := by
  obtain ⟨u, hu⟩ : ∃ u, m.step (.solve assumedFacts) = some u := by
    unfold Machine.step
    dsimp only
    rw [hc]
    dsimp only
    split
    · exact ⟨_, rfl⟩
    · exact ⟨_, rfl⟩
  have hinv := (Inv.of_reachable h).step (e := .solve assumedFacts) hreg hu
  have hrun : ∃ run m', (∀ e ∈ run, e.internal = true ∧ e.asksToStop = false) ∧ u.run run = some m' ∧
      ∃ r, m'.control = .ready (some r) := by
    cases transition_of_step hu with
    | solveDetected => exact ⟨[], _, List.forall_mem_nil _, rfl, _, rfl⟩
    | solve =>
      refine PacedMachine.Running.exists_run (p := ⟨_, .new 50⟩) ⟨⟨hinv, ?_, fun r => Control.noConfusion⟩, ?_⟩
      · exact PacedMachine.prepareSolve_nodup _ _
      · show 0 < 50
        decide
  obtain ⟨run, m', hes, hm', r, hr⟩ := hrun
  refine ⟨run, r, m', fun e he => (hes e he).2, ?_⟩
  unfold Machine.solve
  rw [if_pos (List.all_eq_true.mpr fun e he => (hes e he).1)]
  show ((m.step (.solve assumedFacts)).bind fun m => m.run run).bind _ = _
  rw [hu, Option.bind_some, hm', Option.bind_some, hr]

end Machine

end JamSAT
