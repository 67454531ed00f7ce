import JamSAT.SolverMachine
import JamSAT.VSIDSBranchingHeuristic

/-!
# The solver with its branching heuristic

What the calls of the heuristic do in the steps of a machine. The decisions are those that
the heuristic picks.
-/

namespace JamSAT

namespace FirstUIPLearning

def resolvedVariables (p : Provider) : (cursor : List CNFLit) → State → List CNFVar
  | [], _ => []
  | lit :: cursor, st =>
    if 1 < st.unresolvedCount then
      if st.stamps lit.var then
        match p.reason lit.var with
        | none => []
        | some reason =>
          lit.var :: resolvedVariables p cursor
            (addResolvent p reason lit { st with unresolvedCount := st.unresolvedCount - 1 })
      else resolvedVariables p cursor st
    else []

def seenVariables (p : Provider) (conflictingClause : List CNFLit) : List CNFVar :=
  resolvedVariables p p.levelAssignments.reverse (initializeResult p conflictingClause .empty) ++
    match computeConflictClause p .empty conflictingClause with
    | none => []
    | some (clause, _) => clause.map CNFLit.var

end FirstUIPLearning

namespace VSIDSBranchingHeuristic

variable {D : Type} [OfScientific D] [LT D] [DecidableLT D]

/-- `prepareBacktrack`, which goes from the current level down to `level`. -/
def prepareBacktrack (h : VSIDSBranchingHeuristic D) (s : Assignment) (level : Nat) :
    Option (VSIDSBranchingHeuristic D) :=
  ((List.range' level (s.currentLevel + 1 - level)).reverse.flatMap s.getLevelAssignments).foldlM
    (fun h lit => h.reset lit.var) h

omit [OfScientific D] [LT D] [DecidableLT D] in
def initializeBranchingHeuristic (h : VSIDSBranchingHeuristic D) (maxVar : CNFVar)
    (assumedFacts : List CNFLit) : VSIDSBranchingHeuristic D :=
  assumedFacts.foldl (fun h assumption => h.setEligibleForDecisions assumption.var false)
    ((List.range (maxVar + 1)).foldl (fun h i => h.setEligibleForDecisions i true) h)

omit [OfScientific D] [LT D] [DecidableLT D] in
/-- The calls in `propagateFactsOnSystemLevels`; the loop is that of `appendFacts`. -/
def propagateFacts : List CNFLit → Assignment → VSIDSBranchingHeuristic D → VSIDSBranchingHeuristic D
  | [], _, h => h
  | fact :: facts, s, h =>
    match s.getAssignment fact with
    | .TRUE => propagateFacts facts s h
    | .FALSE => h
    | .INDETERMINATE =>
      match s.append fact .includeLemmas with
      | (some _, _) => h
      | (none, s) => propagateFacts facts s (h.setEligibleForDecisions fact.var false)

variable [Add D] [Mul D] [Div D] [Min D] [LE D] [DecidableLE D]

/-- The calls during a turn of the loop of `resolveDecision`, and those of `backtrackAll` behind it. -/
def resolveConflict (h : VSIDSBranchingHeuristic D) (s : CDCLSatSolver) (lowLBD : Bool)
    (conflictingClause : ClauseRef) : Option (VSIDSBranchingHeuristic D) := do
  let (result, t) ← s.deriveLemma lowLBD conflictingClause
  let seen := FirstUIPLearning.seenVariables s.assignment.provider (s.mem conflictingClause).lits
  let h ← seen.foldlM seenInConflict h.beginHandlingConflict
  let h := h.endHandlingConflict
  match result with
  | .fact _ => h.prepareBacktrack t.assignment 0
  | .clause _ backtrackLevel =>
    let h ← h.prepareBacktrack t.assignment (backtrackLevel + 1)
    match t.registerConflict.learn result with
    | (.restart, u) => h.prepareBacktrack u.assignment 0
    | _ => return h

def step (h : VSIDSBranchingHeuristic D) (m : Machine) : Event → Option (VSIDSBranchingHeuristic D)
  | .addClause _ | .addProblem _ | .setDRATCertificate | .tryReduceClauseDB _ _ => some h
  | .solve assumedFacts =>
    if m.solver.detectedUNSAT then some h
    else
      let maxVar := (m.solver.prepareSolve assumedFacts).maxVar
      (h.increaseMaxVarTo maxVar).map fun h => h.initializeBranchingHeuristic maxVar assumedFacts
  | .stop | .finish => h.prepareBacktrack m.solver.assignment 0
  | .trySimplify =>
    match m.solver.trySimplify with
    | (true, s) => h.prepareBacktrack s.assignment 0
    | (false, _) => some h
  | .propagateHardFacts =>
    let h := propagateFacts m.solver.facts m.solver.assignment h
    match m.solver.propagateHardFacts with
    | (true, s) => h.prepareBacktrack s.assignment 0
    | (false, _) => some h
  | .propagateAssumedFacts =>
    let h := propagateFacts m.assumedFacts m.solver.assignment h
    match m.solver.propagateAssumedFacts m.assumedFacts with
    | some (some _, s) => h.prepareBacktrack s.assignment 0
    | _ => some h
  | .decide l => do
    let (decision, h) ← h.pickBranchLiteral m.solver.newLevel.assignment
    if decision = l then return h else none
  | .resolve lowLBD =>
    match m.control with
    | .conflict c => h.resolveConflict m.solver lowLBD c
    | _ => none
  | .continue shouldRestart stopRequested =>
    if shouldRestart || (m.solver.conflictCount % Machine.checkStopInterval == 0 && stopRequested) then
      h.prepareBacktrack m.solver.assignment 0
    else some h

end VSIDSBranchingHeuristic

structure BranchingMachine (D : Type) where
  machine : Machine
  m_branchingHeuristic : VSIDSBranchingHeuristic D

namespace BranchingMachine

variable {D : Type} [OfScientific D] [LT D] [DecidableLT D] [Add D] [Mul D] [Div D] [Min D] [LE D] [DecidableLE D]

def step (b : BranchingMachine D) (e : Event) : Option (BranchingMachine D) := do
  let h ← b.m_branchingHeuristic.step b.machine e
  let m ← b.machine.step e
  return ⟨m, h⟩

def Reachable : BranchingMachine D → Prop :=
  Runs.Reachable (fun b => b.machine = .new ∧ VSIDSBranchingHeuristic.new 0 = some b.m_branchingHeuristic)
    fun b b' => ∃ e : Event, e.Regular ∧ b.step e = some b'

end BranchingMachine

end JamSAT
