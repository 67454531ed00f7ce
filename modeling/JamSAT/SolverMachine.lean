import JamSAT.CDCLSatSolver
import JamSAT.Runs

/-!
# Calls of the solver, step by step

Between calls the machine is `ready`, with the result of the last call if that
was `solve`. A `solve` call goes through the other controls. Its events carry what
the source leaves to the branching heuristic, to the policies, to the LBDs and to
the caller of `stop`.
-/

namespace JamSAT

inductive Control
  | ready (result : Option SolvingResult)
  /-- at the head of the loop of `solve` -/
  | restarting
  | simplified
  | reduced
  | assuming
  /-- at the head of the loop of `solveUntilRestart` -/
  | deciding
  /-- `resolveDecision` has returned `CONTINUE` -/
  | decided
  /-- in the loop of `resolveDecision` -/
  | conflict (c : ClauseRef)

inductive Event
  | addClause (clause : List CNFLit)
  | addProblem (clauses : List (List CNFLit))
  | setDRATCertificate
  | solve (assumedFacts : List CNFLit)
  | stop
  | trySimplify
  | tryReduceClauseDB (sorted : List ClauseRef) (lowLBD : Bool)
  | propagateHardFacts
  | propagateAssumedFacts
  | decide (l : CNFLit)
  | resolve (lowLBD : Bool)
  | continue (shouldRestart stopRequested : Bool)
  | finish

namespace Control

def verdict : Control → Option TBool
  | .ready (some r) => some r.isProblemSatisfiable
  | _ => none

def conflictingClause : Control → Option ClauseRef
  | .conflict c => some c
  | _ => none

theorem exists_of_verdict {control : Control} {b : TBool} (h : control.verdict = some b) :
    ∃ r, control = .ready (some r) ∧ r.isProblemSatisfiable = b := by
  unfold verdict at h
  split at h
  · exact ⟨_, rfl, Option.some.inj h⟩
  · cases h

theorem eq_of_conflictingClause {control : Control} {c : ClauseRef} (h : control.conflictingClause = some c) :
    control = .conflict c := by
  unfold conflictingClause at h
  split at h
  · rw [Option.some.inj h]
  · cases h

end Control

structure Machine where
  solver : CDCLSatSolver
  /-- all clauses that have been added -/
  added : List (List CNFLit)
  /-- the argument of the last `solve` call -/
  assumedFacts : List CNFLit
  control : Control

namespace Machine

def new : Machine := ⟨.new, [], [], .ready none⟩

def checkStopInterval : Nat := 8192

def conclude (m : Machine) (s : CDCLSatSolver) (result : TBool) (failedAssumptions : List CNFLit) : Machine :=
  let (r, s) := s.concludeSolve result failedAssumptions
  { m with solver := s, control := .ready (some r) }

def step (m : Machine) : Event → Option Machine
  | .addClause clause =>
    match m.control with
    | .ready _ => some { m with
        solver := m.solver.addClause clause, added := m.added ++ [clause], control := .ready none }
    | _ => none
  | .addProblem clauses =>
    match m.control with
    | .ready _ => some { m with
        solver := m.solver.addProblem clauses, added := m.added ++ clauses, control := .ready none }
    | _ => none
  | .setDRATCertificate =>
    match m.control with
    | .ready _ => some { m with solver := m.solver.setDRATCertificate, control := .ready none }
    | _ => none
  | .solve assumedFacts =>
    match m.control with
    | .ready _ =>
      if m.solver.detectedUNSAT then
        some { m with
          solver := m.solver.finalizeProofOnUnsat
          assumedFacts := assumedFacts
          control := .ready (some ⟨.FALSE, none, []⟩) }
      else some { m with
        solver := m.solver.prepareSolve assumedFacts, assumedFacts := assumedFacts, control := .restarting }
    | _ => none
  | .stop =>
    match m.control with
    | .restarting => some (m.conclude m.solver .INDETERMINATE [])
    | _ => none
  | .trySimplify =>
    match m.control with
    | .restarting =>
      match m.solver.trySimplify with
      | (true, s) => some (m.conclude s .FALSE [])
      | (false, s) => some { m with solver := s, control := .simplified }
    | _ => none
  | .tryReduceClauseDB sorted lowLBD =>
    match m.control with
    | .simplified =>
      if sorted.Perm m.solver.lemmas then
        some { m with solver := m.solver.tryReduceClauseDB sorted lowLBD, control := .reduced }
      else none
    | _ => none
  | .propagateHardFacts =>
    match m.control with
    | .reduced =>
      match m.solver.propagateHardFacts with
      | (true, s) => some (m.conclude s .FALSE [])
      | (false, s) => some { m with solver := s.newLevel, control := .assuming }
    | _ => none
  | .propagateAssumedFacts =>
    match m.control with
    | .assuming =>
      match m.solver.propagateAssumedFacts m.assumedFacts with
      | none => none
      | some (some failedAssumptions, s) => some (m.conclude s .FALSE failedAssumptions)
      | some (none, s) => some { m with solver := s, control := .deciding }
    | _ => none
  | .decide l =>
    match m.control with
    | .deciding =>
      if m.solver.assignment.isComplete = false ∧ m.solver.assignment.getAssignment l = .INDETERMINATE ∧
          l.var ≤ m.solver.maxVar then
        match m.solver.newLevel.append l with
        | (none, s) => some { m with solver := s, control := .decided }
        | (some c, s) => some { m with solver := s, control := .conflict c }
      else none
    | _ => none
  | .resolve lowLBD =>
    match m.control with
    | .conflict c =>
      match m.solver.resolveConflict lowLBD c with
      | none => none
      | some (.continue, s) => some { m with solver := s, control := .decided }
      | some (.restart, s) => some { m with solver := s.backtrackAll, control := .restarting }
      | some (.conflict c, s) => some { m with solver := s, control := .conflict c }
    | _ => none
  | .continue shouldRestart stopRequested =>
    match m.control with
    | .decided =>
      if shouldRestart then some { m with solver := m.solver.backtrackAll, control := .restarting }
      else if m.solver.conflictCount % checkStopInterval = 0 ∧ stopRequested then
        some (m.conclude m.solver .INDETERMINATE [])
      else some { m with control := .deciding }
    | _ => none
  | .finish =>
    match m.control with
    | .deciding => if m.solver.assignment.isComplete then some (m.conclude m.solver .TRUE []) else none
    | _ => none

/-- The steps one by one: what each requires and where it leads. -/
inductive Transition (m : Machine) : Event → Machine → Prop
  | addClause {clause : List CNFLit} {r : Option SolvingResult} (hc : m.control = .ready r) :
    Transition m (.addClause clause)
      { m with solver := m.solver.addClause clause, added := m.added ++ [clause], control := .ready none }
  | addProblem {clauses : List (List CNFLit)} {r : Option SolvingResult} (hc : m.control = .ready r) :
    Transition m (.addProblem clauses)
      { m with solver := m.solver.addProblem clauses, added := m.added ++ clauses, control := .ready none }
  | setDRATCertificate {r : Option SolvingResult} (hc : m.control = .ready r) :
    Transition m .setDRATCertificate { m with solver := m.solver.setDRATCertificate, control := .ready none }
  | solveDetected {assumedFacts : List CNFLit} {r : Option SolvingResult} (hc : m.control = .ready r)
      (hd : m.solver.detectedUNSAT = true) :
    Transition m (.solve assumedFacts) { m with
      solver := m.solver.finalizeProofOnUnsat
      assumedFacts := assumedFacts
      control := .ready (some ⟨.FALSE, none, []⟩) }
  | solve {assumedFacts : List CNFLit} {r : Option SolvingResult} (hc : m.control = .ready r)
      (hd : m.solver.detectedUNSAT = false) :
    Transition m (.solve assumedFacts)
      { m with solver := m.solver.prepareSolve assumedFacts, assumedFacts := assumedFacts, control := .restarting }
  | stop (hc : m.control = .restarting) : Transition m .stop (m.conclude m.solver .INDETERMINATE [])
  | simplifyRefuted {s : CDCLSatSolver} (hc : m.control = .restarting) (he : m.solver.trySimplify = (true, s)) :
    Transition m .trySimplify (m.conclude s .FALSE [])
  | simplify {s : CDCLSatSolver} (hc : m.control = .restarting) (he : m.solver.trySimplify = (false, s)) :
    Transition m .trySimplify { m with solver := s, control := .simplified }
  | reduce {sorted : List ClauseRef} {lowLBD : Bool} (hc : m.control = .simplified)
      (hp : sorted.Perm m.solver.lemmas) :
    Transition m (.tryReduceClauseDB sorted lowLBD)
      { m with solver := m.solver.tryReduceClauseDB sorted lowLBD, control := .reduced }
  | factsRefuted {s : CDCLSatSolver} (hc : m.control = .reduced) (he : m.solver.propagateHardFacts = (true, s)) :
    Transition m .propagateHardFacts (m.conclude s .FALSE [])
  | facts {s : CDCLSatSolver} (hc : m.control = .reduced) (he : m.solver.propagateHardFacts = (false, s)) :
    Transition m .propagateHardFacts { m with solver := s.newLevel, control := .assuming }
  | assumptionsRefuted {s : CDCLSatSolver} {fact : CNFLit} {failedAssumptions : List CNFLit}
      (hc : m.control = .assuming)
      (he : m.solver.propagateFactsOnSystemLevels m.assumedFacts = (some fact, s))
      (ha : AssignmentAnalysis.analyzeAssignment s.assignment.provider s.fuel fact = some failedAssumptions) :
    Transition m .propagateAssumedFacts (m.conclude s .FALSE failedAssumptions)
  | assumptions {s : CDCLSatSolver} (hc : m.control = .assuming)
      (he : m.solver.propagateFactsOnSystemLevels m.assumedFacts = (none, s)) :
    Transition m .propagateAssumedFacts { m with solver := s, control := .deciding }
  | decide {l : CNFLit} {s : CDCLSatSolver} (hc : m.control = .deciding)
      (hl : m.solver.assignment.isComplete = false ∧ m.solver.assignment.getAssignment l = .INDETERMINATE ∧
        l.var ≤ m.solver.maxVar)
      (he : m.solver.newLevel.append l = (none, s)) :
    Transition m (.decide l) { m with solver := s, control := .decided }
  | decideConflict {l : CNFLit} {s : CDCLSatSolver} {c : ClauseRef} (hc : m.control = .deciding)
      (hl : m.solver.assignment.isComplete = false ∧ m.solver.assignment.getAssignment l = .INDETERMINATE ∧
        l.var ≤ m.solver.maxVar)
      (he : m.solver.newLevel.append l = (some c, s)) :
    Transition m (.decide l) { m with solver := s, control := .conflict c }
  | resolve {lowLBD : Bool} {c : ClauseRef} {s : CDCLSatSolver} (hc : m.control = .conflict c)
      (he : m.solver.resolveConflict lowLBD c = some (.continue, s)) :
    Transition m (.resolve lowLBD) { m with solver := s, control := .decided }
  | resolveRestart {lowLBD : Bool} {c : ClauseRef} {s : CDCLSatSolver} (hc : m.control = .conflict c)
      (he : m.solver.resolveConflict lowLBD c = some (.restart, s)) :
    Transition m (.resolve lowLBD) { m with solver := s.backtrackAll, control := .restarting }
  | resolveConflict {lowLBD : Bool} {c d : ClauseRef} {s : CDCLSatSolver} (hc : m.control = .conflict c)
      (he : m.solver.resolveConflict lowLBD c = some (.conflict d, s)) :
    Transition m (.resolve lowLBD) { m with solver := s, control := .conflict d }
  | restart {stopRequested : Bool} (hc : m.control = .decided) :
    Transition m (.continue true stopRequested) { m with solver := m.solver.backtrackAll, control := .restarting }
  | stopped (hc : m.control = .decided) (hn : m.solver.conflictCount % checkStopInterval = 0) :
    Transition m (.continue false true) (m.conclude m.solver .INDETERMINATE [])
  | «continue» {stopRequested : Bool} (hc : m.control = .decided)
      (hn : ¬(m.solver.conflictCount % checkStopInterval = 0 ∧ stopRequested = true)) :
    Transition m (.continue false stopRequested) { m with control := .deciding }
  | finish (hc : m.control = .deciding) (hcomplete : m.solver.assignment.isComplete = true) :
    Transition m .finish (m.conclude m.solver .TRUE [])

section
variable {m m' : Machine}

theorem transition_of_solve {assumedFacts : List CNFLit} (hs : m.step (.solve assumedFacts) = some m') :
    m.Transition (.solve assumedFacts) m' := by
  unfold step at hs
  dsimp only at hs
  split at hs
  · rename_i r hc
    split at hs
    · rename_i hd
      cases hs
      exact .solveDetected hc hd
    · rename_i hd
      cases hs
      exact .solve hc (Bool.eq_false_iff.mpr hd)
  · cases hs

theorem transition_of_trySimplify (hs : m.step .trySimplify = some m') : m.Transition .trySimplify m' := by
  unfold step at hs
  dsimp only at hs
  split at hs
  · rename_i hc
    split at hs
    · rename_i s he
      cases hs
      exact .simplifyRefuted hc he
    · rename_i s he
      cases hs
      exact .simplify hc he
  · cases hs

theorem transition_of_tryReduceClauseDB {sorted : List ClauseRef} {lowLBD : Bool}
    (hs : m.step (.tryReduceClauseDB sorted lowLBD) = some m') :
    m.Transition (.tryReduceClauseDB sorted lowLBD) m' := by
  unfold step at hs
  dsimp only at hs
  split at hs
  · rename_i hc
    split at hs
    · rename_i hp
      cases hs
      exact .reduce hc hp
    · cases hs
  · cases hs

theorem transition_of_propagateHardFacts (hs : m.step .propagateHardFacts = some m') :
    m.Transition .propagateHardFacts m' := by
  unfold step at hs
  dsimp only at hs
  split at hs
  · rename_i hc
    split at hs
    · rename_i s he
      cases hs
      exact .factsRefuted hc he
    · rename_i s he
      cases hs
      exact .facts hc he
  · cases hs

theorem transition_of_propagateAssumedFacts (hs : m.step .propagateAssumedFacts = some m') :
    m.Transition .propagateAssumedFacts m' := by
  unfold step at hs
  dsimp only at hs
  split at hs
  · rename_i hc
    unfold CDCLSatSolver.propagateAssumedFacts at hs
    generalize he : m.solver.propagateFactsOnSystemLevels m.assumedFacts = r at hs
    obtain ⟨failed, s⟩ := r
    cases failed with
    | none =>
      cases hs
      exact .assumptions hc he
    | some fact =>
      dsimp only at hs
      generalize ha : AssignmentAnalysis.analyzeAssignment s.assignment.provider s.fuel fact = a at hs
      cases a with
      | none => cases hs
      | some failedAssumptions =>
        cases hs
        exact .assumptionsRefuted hc he ha
  · cases hs

theorem transition_of_decide {l : CNFLit} (hs : m.step (.decide l) = some m') :
    m.Transition (.decide l) m' := by
  unfold step at hs
  dsimp only at hs
  split at hs
  · rename_i hc
    split at hs
    · rename_i hl
      split at hs
      · rename_i s he
        cases hs
        exact .decide hc hl he
      · rename_i c s he
        cases hs
        exact .decideConflict hc hl he
    · cases hs
  · cases hs

theorem transition_of_resolve {lowLBD : Bool} (hs : m.step (.resolve lowLBD) = some m') :
    m.Transition (.resolve lowLBD) m' := by
  unfold step at hs
  dsimp only at hs
  split at hs
  · rename_i c hc
    split at hs
    · cases hs
    · rename_i s he
      cases hs
      exact .resolve hc he
    · rename_i s he
      cases hs
      exact .resolveRestart hc he
    · rename_i d s he
      cases hs
      exact .resolveConflict hc he
  · cases hs

theorem transition_of_continue {shouldRestart stopRequested : Bool}
    (hs : m.step (.continue shouldRestart stopRequested) = some m') :
    m.Transition (.continue shouldRestart stopRequested) m' := by
  unfold step at hs
  dsimp only at hs
  split at hs
  · rename_i hc
    cases shouldRestart with
    | true =>
      cases hs
      exact .restart hc
    | false =>
      rw [if_neg Bool.false_ne_true] at hs
      split at hs
      · rename_i hn
        obtain ⟨hn, rfl⟩ := hn
        cases hs
        exact .stopped hc hn
      · rename_i hn
        cases hs
        exact .continue hc hn
  · cases hs

theorem transition_of_step {e : Event} (hs : m.step e = some m') : m.Transition e m' := by
  cases e with
  | addClause clause =>
    unfold step at hs
    dsimp only at hs
    split at hs
    · cases hs
      exact .addClause ‹_›
    · cases hs
  | addProblem clauses =>
    unfold step at hs
    dsimp only at hs
    split at hs
    · cases hs
      exact .addProblem ‹_›
    · cases hs
  | setDRATCertificate =>
    unfold step at hs
    dsimp only at hs
    split at hs
    · cases hs
      exact .setDRATCertificate ‹_›
    · cases hs
  | solve assumedFacts => exact transition_of_solve hs
  | stop =>
    unfold step at hs
    dsimp only at hs
    split at hs
    · cases hs
      exact .stop ‹_›
    · cases hs
  | trySimplify => exact transition_of_trySimplify hs
  | tryReduceClauseDB sorted lowLBD => exact transition_of_tryReduceClauseDB hs
  | propagateHardFacts => exact transition_of_propagateHardFacts hs
  | propagateAssumedFacts => exact transition_of_propagateAssumedFacts hs
  | decide l => exact transition_of_decide hs
  | resolve lowLBD => exact transition_of_resolve hs
  | «continue» shouldRestart stopRequested => exact transition_of_continue hs
  | finish =>
    unfold step at hs
    dsimp only at hs
    split at hs
    · rename_i hc
      split at hs
      · rename_i hcomplete
        cases hs
        exact .finish hc hcomplete
      · cases hs
    · cases hs

end

end Machine

/-- The literals that a caller passes are over regular variables. -/
def Event.Regular : Event → Prop
  | .addClause clause => ∀ l ∈ clause, l.var < CNFVar.undefinedVariable
  | .addProblem clauses => ∀ clause ∈ clauses, ∀ l ∈ clause, l.var < CNFVar.undefinedVariable
  | .solve assumedFacts => ∀ l ∈ assumedFacts, l.var < CNFVar.undefinedVariable
  | _ => True

instance : ∀ e : Event, Decidable e.Regular
  | .addClause clause => inferInstanceAs (Decidable (∀ l ∈ clause, l.var < CNFVar.undefinedVariable))
  | .addProblem clauses =>
    inferInstanceAs (Decidable (∀ clause ∈ clauses, ∀ l ∈ clause, l.var < CNFVar.undefinedVariable))
  | .solve assumedFacts => inferInstanceAs (Decidable (∀ l ∈ assumedFacts, l.var < CNFVar.undefinedVariable))
  | .setDRATCertificate | .stop | .trySimplify | .tryReduceClauseDB _ _ | .propagateHardFacts
  | .propagateAssumedFacts | .decide _ | .resolve _ | .continue _ _ | .finish => .isTrue trivial

namespace Machine

def Steps (m m' : Machine) : Prop := ∃ e : Event, e.Regular ∧ m.step e = some m'

def Reachable : Machine → Prop := Runs.Reachable (fun m => m = new) Steps

def run (m : Machine) (es : List Event) : Option Machine := es.foldlM step m

theorem Reachable.run {es : List Event} {m m' : Machine} (hm : m.Reachable) (hr : ∀ e ∈ es, e.Regular)
    (h : m.run es = some m') : m'.Reachable :=
  Runs.Reachable.foldlM hm (fun e he _ _ hs => ⟨e, hr e he, hs⟩) h

theorem Reachable.run_get {m : Machine} {es : List Event} (hm : m.Reachable) (hr : ∀ e ∈ es, e.Regular)
    (h : (m.run es).isSome = true) : ((m.run es).get h).Reachable :=
  hm.run hr (Option.some_get h).symm

end Machine

end JamSAT
