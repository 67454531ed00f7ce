import JamSAT.FallibleState
import JamSAT.SolverMachine
import JamSAT.StampMap

/-!
# The solver with its stamp map

One stamp map serves lemma minimization, the analysis of assumptions and the computation of
literal block distances. It is sized by the greatest literal and stamps variables, literals and
decision levels. The algorithms are those of the machine, on the stamp map itself.
-/

namespace JamSAT

inductive StampKey
  | variable
  | literal
  | level

namespace StampKey

def Obj : StampKey → Type
  | .variable => CNFVar
  | .literal => CNFLit
  | .level => Nat

def getIndex : (i : StampKey) → i.Obj → Nat
  | .variable, v => v
  | .literal, l => CNFLit.rawValue l
  | .level, k => k

end StampKey

def StampType.uint16 : StampType := ⟨false, 16, by decide⟩

abbrev SolverStamps := StampMap .uint16

/-- Fails where an assertion of the stamp map does. -/
abbrev Stamping := StateT SolverStamps Option

def getMaxLit (v : CNFVar) : CNFLit := ⟨v, .positive⟩

namespace Stamping

abbrev Stamp := StampType.uint16.Value

def createContext : Stamping Stamp := fun m => m.createContext

def endContext : Stamping Unit := fun m => some ((), m.clear)

def setStamped (i : StampKey) (obj : i.Obj) (stamp : Stamp) (stamped : Bool) : Stamping Unit := fun m =>
  (m.setStamped StampKey.getIndex i obj stamp stamped).map fun m => ((), m)

def isStamped (i : StampKey) (obj : i.Obj) (stamp : Stamp) : Stamping Bool := fun m =>
  (m.isStamped StampKey.getIndex i obj stamp).map fun b => (b, m)

def increaseSizeTo (maxIdx : Nat) : Stamping Unit := fun m => (m.increaseSizeTo maxIdx).map fun m => ((), m)

/-- The body of a function that begins with `createContext`; the context is destroyed when it returns. -/
def inContext {α : Type} (body : Stamp → Stamping α) : Stamping α := do
  let stamp ← createContext
  let result ← body stamp
  endContext
  pure result

def setAll (i : StampKey) (stamp : Stamp) (stamped : Bool) : List i.Obj → Stamping Unit
  | [] => pure ()
  | obj :: objs => do
    setStamped i obj stamp stamped
    setAll i stamp stamped objs

/-! ## Literal block distances -/

def countLevels (level : CNFVar → Nat) (stamp : Stamp) : List CNFLit → (result : Nat) → Stamping Nat
  | [], result => pure result
  | literal :: literals, result => do
    let stamped ← isStamped .level (level literal.var) stamp
    if stamped then countLevels level stamp literals result
    else do
      setStamped .level (level literal.var) stamp true
      countLevels level stamp literals (result + 1)

def getLBD (level : CNFVar → Nat) (literals : List CNFLit) : Stamping Nat :=
  inContext fun stamp => countLevels level stamp literals 0

def maxLBDUpdatesOnBacktrack : Nat := 32

def updateReasonClauseLBDs (s : Assignment) : List CNFLit → (updated : Nat) → Stamping Unit
  | [], _ => pure ()
  | lit :: lits, updated =>
    match s.getReason lit.var with
    | none => updateReasonClauseLBDs s lits updated
    | some reason => do
      let _ ← getLBD s.getLevel (s.mem reason).lits
      if updated + 1 = maxLBDUpdatesOnBacktrack then pure ()
      else updateReasonClauseLBDs s lits (updated + 1)

/-- Called by `prepareBacktrack`, whatever the target level is. -/
def updateReasonClauseLBDsOnCurrentLevel (s : Assignment) : Stamping Unit :=
  updateReasonClauseLBDs s (s.getLevelAssignments s.currentLevel).reverse 0

/-! ## Minimization -/

/-- Returns `m_work` and `m_stampCleanup` as well. -/
def checkReason (p : Provider) (levels : OverApproximatingSet) (stamp : Stamp) :
    List CNFLit → (work stampCleanup : List CNFVar) → Stamping (Bool × List CNFVar × List CNFVar)
  | [], work, stampCleanup => pure (true, work, stampCleanup)
  | lit :: reason, work, stampCleanup =>
    if !levels.mightContain (p.level lit.var) then pure (false, work, stampCleanup)
    else if p.level lit.var = 0 then checkReason p levels stamp reason work stampCleanup
    else do
      let stamped ← isStamped .variable lit.var stamp
      if stamped then checkReason p levels stamp reason work stampCleanup
      else if (p.reason lit.var).isSome then do
        setStamped .variable lit.var stamp true
        checkReason p levels stamp reason (lit.var :: work) (stampCleanup ++ [lit.var])
      else pure (false, work, stampCleanup)

def checkWork (p : Provider) (levels : OverApproximatingSet) (stamp : Stamp) :
    (fuel : Nat) → (work stampCleanup : List CNFVar) → Stamping (Bool × List CNFVar)
  | 0, _, _ => failure
  | _ + 1, [], stampCleanup => pure (true, stampCleanup)
  | fuel + 1, workItem :: work, stampCleanup =>
    match p.reason workItem with
    | none => failure
    | some reason => do
      let r ← checkReason p (levels.insert 0) stamp reason work stampCleanup
      if r.1 then checkWork p levels stamp fuel r.2.1 r.2.2 else pure (false, r.2.2)

def isRedundant (p : Provider) (fuel : Nat) (levels : OverApproximatingSet) (stamp : Stamp) (literal : CNFLit) :
    Stamping Bool :=
  if p.level literal.var = p.currentLevel then pure false
  else do
    let r ← checkWork p levels stamp fuel [literal.var] []
    if r.1 then pure true
    else do
      setAll .variable stamp false r.2
      pure false

def eraseLoop (p : Provider) (fuel : Nat) (levels : OverApproximatingSet) (stamp : Stamp) :
    List CNFLit → Stamping (List CNFLit)
  | [] => pure []
  | literal :: rest =>
    match p.reason literal.var with
    | some _ => do
      let redundant ← isRedundant p fuel levels stamp literal
      let rest ← eraseLoop p fuel levels stamp rest
      pure (if redundant then rest else literal :: rest)
    | none => do
      let rest ← eraseLoop p fuel levels stamp rest
      pure (if p.level literal.var = 0 then rest else literal :: rest)

def eraseRedundantLiterals (p : Provider) (fuel : Nat) (literals : List CNFLit) : Stamping (List CNFLit) :=
  inContext fun stamp => do
    setAll .variable stamp true (literals.map CNFLit.var)
    eraseLoop p fuel (literals.foldl (fun levels l => levels.insert (p.level l.var)) .empty) stamp literals

def eraseStamped (stamp : Stamp) : List CNFLit → Stamping (List CNFLit)
  | [] => pure []
  | literal :: literals => do
    let stamped ← isStamped .literal (-literal) stamp
    let literals ← eraseStamped stamp literals
    pure (if stamped then literals else literal :: literals)

def resolveWithBinaries (binaryClauses : CNFLit → List CNFLit) (resolveAt : CNFLit) (literals : List CNFLit) :
    Stamping (List CNFLit) :=
  inContext fun stamp =>
    if binaryClauses resolveAt = [] then pure literals
    else do
      setAll .literal stamp true (binaryClauses resolveAt)
      eraseStamped stamp literals

/-! ## Assumptions behind an assignment -/

/-- Returns `toAnalyze` and `result`. -/
def visitLits (p : Provider) (stamp : Stamp) :
    List CNFLit → (toAnalyze : List CNFVar) → (result : List CNFLit) → Stamping (List CNFVar × List CNFLit)
  | [], toAnalyze, result => pure (toAnalyze, result)
  | lit :: reason, toAnalyze, result => do
    let stamped ← isStamped .variable lit.var stamp
    if stamped then visitLits p stamp reason toAnalyze result
    else do
      setStamped .variable lit.var stamp true
      if p.level lit.var = p.currentLevel then
        if (p.reason lit.var).isSome then visitLits p stamp reason (lit.var :: toAnalyze) result
        else visitLits p stamp reason toAnalyze (result ++ [-lit])
      else visitLits p stamp reason toAnalyze result

def analyze (p : Provider) (stamp : Stamp) :
    (fuel : Nat) → (toAnalyze : List CNFVar) → (result : List CNFLit) → Stamping (List CNFLit)
  | 0, _, _ => failure
  | _ + 1, [], result => pure result
  | fuel + 1, currentVar :: toAnalyze, result =>
    match p.reason currentVar with
    | none => failure
    | some assignmentReason => do
      setStamped .variable currentVar stamp true
      let r ← visitLits p stamp assignmentReason toAnalyze result
      analyze p stamp fuel r.1 r.2

def analyzeAssignment (p : Provider) (fuel : Nat) (query : CNFLit) : Stamping (List CNFLit) :=
  inContext fun stamp =>
    if p.reason query.var = none then pure [query] else analyze p stamp fuel [query.var] [query]

/-! ## The methods of the solver -/

def optimizeLemma (s : CDCLSatSolver) (lowLBD : Bool) (lits : List CNFLit) : Stamping (List CNFLit) := do
  let lits ← eraseRedundantLiterals s.assignment.provider s.fuel lits
  if lits.length ≤ CDCLSatSolver.lemmaSimplificationSizeBound then do
    let _ ← getLBD s.assignment.getLevel lits
    if lowLBD then
      resolveWithBinaries s.assignment.getBinariesMap (lits.getD 0 CNFLit.undefinedLiteral) lits
    else pure lits
  else pure lits

def deriveLemma (s : CDCLSatSolver) (lowLBD : Bool) (conflictingClause : ClauseRef) :
    Stamping (LemmaDerivationResult × CDCLSatSolver) :=
  match FirstUIPLearning.computeConflictClause s.assignment.provider .empty (s.mem conflictingClause).lits with
  | none => failure
  | some (lits, _) => do
    let lits ← optimizeLemma s lowLBD lits
    if lits.length = 1 then pure (.fact (lits.getD 0 CNFLit.undefinedLiteral), s)
    else do
      let _ ← getLBD s.assignment.getLevel lits
      let (best, backtrackLevel) := CDCLSatSolver.litWithMaxDecisionLevel s.assignment.getLevel (lits.drop 1) 1 1 0
      pure (.clause s.nextClause backtrackLevel, s.addLemma (VecEdit.swapAt lits best 1))

/-- Updates on the conflict's level before the solver backtracks to that of the lemma. -/
def learn (s : CDCLSatSolver) : LemmaDerivationResult → Stamping (ResolveResult × CDCLSatSolver)
  | .fact newFact => pure (s.learn (.fact newFact))
  | .clause newLemma backtrackLevel => do
    updateReasonClauseLBDsOnCurrentLevel (s.recordLemma newLemma).assignment
    pure (s.learn (.clause newLemma backtrackLevel))

def resolveConflict (s : CDCLSatSolver) (lowLBD : Bool) (conflictingClause : ClauseRef) :
    Stamping (ResolveResult × CDCLSatSolver) := do
  let r ← deriveLemma s lowLBD conflictingClause
  learn r.2.registerConflict r.1

def backtrackAll (s : CDCLSatSolver) : Stamping Unit := updateReasonClauseLBDsOnCurrentLevel s.assignment

def step (m : Machine) : Event → Stamping Unit
  | .addClause _ | .addProblem _ | .setDRATCertificate | .tryReduceClauseDB _ _ | .decide _ => pure ()
  | .solve assumedFacts =>
    if m.solver.detectedUNSAT then pure ()
    else increaseSizeTo (getMaxLit (m.solver.raiseMaxVar assumedFacts).maxVar).rawValue
  | .stop | .finish => backtrackAll m.solver
  | .trySimplify =>
    match m.solver.trySimplify with
    | (true, s) => backtrackAll s
    | (false, _) => pure ()
  | .propagateHardFacts =>
    match m.solver.propagateHardFacts with
    | (true, s) => backtrackAll s
    | (false, _) => pure ()
  | .propagateAssumedFacts =>
    match m.solver.propagateFactsOnSystemLevels m.assumedFacts with
    | (none, _) => pure ()
    | (some fact, s) => do
      let _ ← analyzeAssignment s.assignment.provider s.fuel fact
      backtrackAll s
  | .resolve lowLBD =>
    match m.control with
    | .conflict c => do
      let r ← resolveConflict m.solver lowLBD c
      match r with
      | (.restart, s) => backtrackAll s
      | _ => pure ()
    | _ => failure
  | .continue shouldRestart stopRequested =>
    if shouldRestart || (m.solver.conflictCount % Machine.checkStopInterval == 0 && stopRequested) then
      backtrackAll m.solver
    else pure ()

end Stamping

structure StampingMachine where
  machine : Machine
  m_stamps : SolverStamps

namespace StampingMachine

def new : StampingMachine := ⟨.new, .new .uint16 (getMaxLit 0).rawValue⟩

def step (p : StampingMachine) (e : Event) : Option StampingMachine := do
  let (_, stamps) ← Stamping.step p.machine e p.m_stamps
  let m ← p.machine.step e
  return ⟨m, stamps⟩

def Reachable : StampingMachine → Prop :=
  Runs.Reachable (fun p => p = new) fun p q => ∃ e : Event, e.Regular ∧ p.step e = some q

end StampingMachine

end JamSAT
