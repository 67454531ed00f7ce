import JamSAT.CNFProblem
import JamSAT.StampingMachine

/-!
# Literal block distances

What the source computes with them: the LBDs that the clauses carry, their updates, the
order in which the learnt clauses are reduced, and `GlucoseRestartPolicy` with its moving
average. `none` is a failed assertion of `setLBD`, or a failure of the conflict analysis.
-/

namespace JamSAT

/-- The loop of `getLBD` with a clean stamp map; `stamped` are the levels stamped so far. -/
def countLevels (level : CNFVar → Nat) : List CNFLit → (stamped : List Nat) → (result : Nat) → Nat
  | [], _, result => result
  | literal :: literals, stamped, result =>
    if level literal.var ∈ stamped then countLevels level literals stamped result
    else countLevels level literals (level literal.var :: stamped) (result + 1)

def getLBD (level : CNFVar → Nat) (literals : List CNFLit) : Nat := countLevels level literals [] 0

/-- The LBDs of the clauses. The constructor sets 0. -/
abbrev LBDs := ClauseRef → Nat

namespace LBDs

def maxLBD : Nat := 65535

def setLBD (lbds : LBDs) (c : ClauseRef) (lbd : Nat) : Option LBDs :=
  if 0 < lbd then some (Function.update lbds c (if lbd ≤ maxLBD then lbd else maxLBD)) else none

/-! ## Updates -/

def updateReasonClauseLBDs (s : Assignment) : List CNFLit → (updated : Nat) → LBDs → Option LBDs
  | [], _, lbds => some lbds
  | lit :: lits, updated, lbds =>
    match s.getReason lit.var with
    | none => updateReasonClauseLBDs s lits updated lbds
    | some reason =>
      (lbds.setLBD reason (getLBD s.getLevel (s.mem reason).lits)).bind fun lbds =>
        if updated + 1 = Stamping.maxLBDUpdatesOnBacktrack then some lbds
        else updateReasonClauseLBDs s lits (updated + 1) lbds

def updateReasonClauseLBDsOnCurrentLevel (lbds : LBDs) (s : Assignment) : Option LBDs :=
  updateReasonClauseLBDs s (s.getLevelAssignments s.currentLevel).reverse 0 lbds

def deriveLemma (lbds : LBDs) (s : CDCLSatSolver) (lowLBD : Bool) (conflictingClause : ClauseRef) : Option LBDs :=
  (s.lemmaLiterals lowLBD conflictingClause).bind fun clause =>
    if clause.length = 1 then some lbds else lbds.setLBD s.nextClause (getLBD s.assignment.getLevel clause)

def learn (lbds : LBDs) (s : CDCLSatSolver) : LemmaDerivationResult → Option LBDs
  | .fact _ => some lbds
  | .clause newLemma _ => lbds.updateReasonClauseLBDsOnCurrentLevel (s.recordLemma newLemma).assignment

def backtrackAll (lbds : LBDs) (s : CDCLSatSolver) : Option LBDs := lbds.updateReasonClauseLBDsOnCurrentLevel s.assignment

/-- A turn of the loop of `resolveDecision`, and `backtrackAll` behind it. -/
def resolveConflict (lbds : LBDs) (s : CDCLSatSolver) (lowLBD : Bool) (conflictingClause : ClauseRef) :
    Option LBDs := do
  let lbds ← lbds.deriveLemma s lowLBD conflictingClause
  let (result, s) ← s.deriveLemma lowLBD conflictingClause
  let lbds ← lbds.learn s.registerConflict result
  match s.registerConflict.learn result with
  | (.restart, s) => lbds.backtrackAll s
  | _ => return lbds

def step (lbds : LBDs) (m : Machine) : Event → Option LBDs
  | .addClause _ | .addProblem _ | .setDRATCertificate | .solve _ | .tryReduceClauseDB _ _ | .decide _ => some lbds
  | .stop | .finish => lbds.backtrackAll m.solver
  | .trySimplify =>
    match m.solver.trySimplify with
    | (true, s) => lbds.backtrackAll s
    | (false, _) => some lbds
  | .propagateHardFacts =>
    match m.solver.propagateHardFacts with
    | (true, s) => lbds.backtrackAll s
    | (false, _) => some lbds
  | .propagateAssumedFacts =>
    match m.solver.propagateFactsOnSystemLevels m.assumedFacts with
    | (none, _) => some lbds
    | (some _, s) => lbds.backtrackAll s
  | .resolve lowLBD =>
    match m.control with
    | .conflict c => lbds.resolveConflict m.solver lowLBD c
    | _ => none
  | .continue shouldRestart stopRequested =>
    if shouldRestart || (m.solver.conflictCount % Machine.checkStopInterval == 0 && stopRequested) then
      lbds.backtrackAll m.solver
    else some lbds

/-! ## What depends on the LBDs -/

def lemmaSimplificationLBDBound : Nat := 6

/-- Whether `optimizeLemma` resolves with binary clauses, unless the lemma is too long. -/
def lowLemmaLBD (s : CDCLSatSolver) (conflictingClause : ClauseRef) : Option Bool := do
  let (clause, _) ← FirstUIPLearning.computeConflictClause s.assignment.provider .empty (s.mem conflictingClause).lits
  let clause ← ClauseMinimization.eraseRedundantLiterals s.assignment.provider s.fuel clause
  return decide (getLBD s.assignment.getLevel clause ≤ lemmaSimplificationLBDBound)

/-- The comparator of `std::sort`: the LBD, then the size. -/
def lessThan (lbds : LBDs) (mem : ClauseRef → Clause) (lhs rhs : ClauseRef) : Bool :=
  if lbds lhs ≠ lbds rhs then lbds lhs < lbds rhs else (mem lhs).size < (mem rhs).size

def Sorted (lbds : LBDs) (mem : ClauseRef → Clause) (learntClauses : List ClauseRef) : Prop :=
  learntClauses.Pairwise fun lhs rhs => lbds.lessThan mem rhs lhs = false

instance (lbds : LBDs) (mem : ClauseRef → Clause) (learntClauses : List ClauseRef) :
    Decidable (lbds.Sorted mem learntClauses) :=
  inferInstanceAs (Decidable (learntClauses.Pairwise fun lhs rhs => lbds.lessThan mem rhs lhs = false))

def lowMidLBD (lbds : LBDs) (sorted : List ClauseRef) (knownGoodClauses : Nat) : Bool :=
  sorted[(knownGoodClauses + sorted.length) / 2]?.any fun c => lbds c ≤ 3

end LBDs

/-! ## Restarts -/

/-- `m_currentSum` is of type `uint32_t`. -/
structure SimpleMovingAverage where
  capacity : Nat
  m_values : List Nat
  m_currentSum : Nat
  deriving DecidableEq, Repr

namespace SimpleMovingAverage

def new (horizon : Nat) : SimpleMovingAverage := ⟨horizon, [], 0⟩

def isFull (a : SimpleMovingAverage) : Bool := a.m_values.length == a.capacity

/-- The circular buffer drops its first value when it is full. -/
def add (a : SimpleMovingAverage) (value : Nat) : SimpleMovingAverage :=
  if a.capacity = 0 then a
  else
    let a := if a.isFull then
        { a with
          m_values := a.m_values.drop 1
          m_currentSum := (a.m_currentSum + uint32Size - a.m_values.headD 0) % uint32Size }
      else a
    { a with m_values := a.m_values ++ [value], m_currentSum := (a.m_currentSum + value) % uint32Size }

def clear (a : SimpleMovingAverage) : SimpleMovingAverage := { a with m_values := [], m_currentSum := 0 }

def getAverage {D : Type} [NatCast D] [Div D] (a : SimpleMovingAverage) : D :=
  if a.m_values.isEmpty then (0 : Nat) else (a.m_currentSum : D) / (a.m_values.length : D)

end SimpleMovingAverage

/-- `GlucoseRestartPolicy` with its LBDs; `double` is a parameter. -/
structure AveragingRestartPolicy (D : Type) where
  m_averageLBD : SimpleMovingAverage
  m_K : D
  m_sumLBD : D
  m_conflictCount : Nat

namespace AveragingRestartPolicy

variable {D : Type}

/-- The default of `K` is a constant of type `float`. -/
def new [OfScientific D] (movingAverageWindowSize : Nat) : AveragingRestartPolicy D :=
  ⟨.new movingAverageWindowSize, 0.800000011920928955078125, 0.0, 0⟩

def registerConflict [NatCast D] [Add D] (p : AveragingRestartPolicy D) (learntClauseLBD : Nat) :
    AveragingRestartPolicy D :=
  { p with
    m_conflictCount := p.m_conflictCount + 1
    m_sumLBD := p.m_sumLBD + (learntClauseLBD : D)
    m_averageLBD := p.m_averageLBD.add learntClauseLBD }

def registerRestart (p : AveragingRestartPolicy D) : AveragingRestartPolicy D :=
  { p with m_averageLBD := p.m_averageLBD.clear }

def shouldRestart [NatCast D] [Mul D] [Div D] [LT D] [DecidableLT D] (p : AveragingRestartPolicy D) : Bool :=
  p.m_averageLBD.isFull && decide (p.m_sumLBD / (p.m_conflictCount : D) < p.m_averageLBD.getAverage * p.m_K)

/-- What `resolveDecision` tells the policy about a conflict, and its caller about a restart. -/
def resolveConflict [NatCast D] [Add D] (p : AveragingRestartPolicy D) (lbds : LBDs) (s : CDCLSatSolver)
    (lowLBD : Bool) (conflictingClause : ClauseRef) : Option (AveragingRestartPolicy D) := do
  let lbds ← lbds.deriveLemma s lowLBD conflictingClause
  let (result, s) ← s.deriveLemma lowLBD conflictingClause
  let p := match result with
    | .fact _ => p
    | .clause newLemma _ => p.registerConflict (lbds newLemma)
  match s.registerConflict.learn result with
  | (.restart, _) => return p.registerRestart
  | _ => return p

def step [NatCast D] [Add D] (p : AveragingRestartPolicy D) (lbds : LBDs) (m : Machine) :
    Event → Option (AveragingRestartPolicy D)
  | .resolve lowLBD =>
    match m.control with
    | .conflict c => p.resolveConflict lbds m.solver lowLBD c
    | _ => none
  | .continue true _ => some p.registerRestart
  | _ => some p

end AveragingRestartPolicy

end JamSAT
