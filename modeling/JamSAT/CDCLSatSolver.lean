import JamSAT.ConflictAnalysis
import JamSAT.FactCleaner
import Mathlib.Data.List.Sort
import Mathlib.Data.List.Destutter

/-!
# The CDCL solver

The state of `CDCLSatSolverImpl` and its methods. Literal block distances are not
kept: where the source compares one, the method takes the outcome. The same
holds for the branching heuristic and the restart policy, which belong to the
steps of a `solve` call.
-/

namespace JamSAT

open VecEdit

/-- Sorts by raw value; `std::unique` then drops repeated neighbours. -/
def withoutRedundancies (lits : List CNFLit) : List CNFLit :=
  (lits.insertionSort fun a b => a.rawValue ≤ b.rawValue).destutter (· ≠ ·)

def hasComplementaryNeighbours : List CNFLit → Bool
  | a :: b :: lits => a == -b || hasComplementaryNeighbours (b :: lits)
  | _ => false

/-- `none` is a tautology. -/
def compressClause (clause : List CNFLit) : Option (List CNFLit) :=
  if hasComplementaryNeighbours (withoutRedundancies clause) then none else some (withoutRedundancies clause)

structure Model where
  getAssignment : CNFVar → TBool

namespace Model

def empty : Model := ⟨fun _ => .INDETERMINATE⟩

def setAssignment (m : Model) (l : CNFLit) : Model := ⟨Function.update m.getAssignment l.var (.ofSign l.sign)⟩

end Model

structure SolvingResult where
  isProblemSatisfiable : TBool
  getModel : Option Model
  getFailedAssumptions : List CNFLit

/-- `GlucoseClauseDBReductionPolicy` without the learnt clauses. -/
structure ClauseDBReductionPolicy where
  intervalSize : Nat
  conflictsRemaining : Nat
  deriving DecidableEq, Repr

namespace ClauseDBReductionPolicy

def intervalIncrease : Nat := 1300

def registerConflict (p : ClauseDBReductionPolicy) : ClauseDBReductionPolicy :=
  if 0 < p.conflictsRemaining then { p with conflictsRemaining := p.conflictsRemaining - 1 } else p

def shouldReduceDB (p : ClauseDBReductionPolicy) (learntClauses : List ClauseRef) : Bool :=
  p.conflictsRemaining == 0 && !learntClauses.isEmpty

def nextInterval (p : ClauseDBReductionPolicy) : ClauseDBReductionPolicy :=
  ⟨p.intervalSize + intervalIncrease, p.intervalSize + intervalIncrease⟩

/-- `sorted` are the learnt clauses in the order of their LBD, and `lowLBD` says
that the one in the middle has an LBD of at most 3. -/
def getClausesMarkedForDeletion (sorted : List ClauseRef) (lowLBD : Bool) (knownGoodClauses : Nat) :
    List ClauseRef :=
  let midIndex := (knownGoodClauses + sorted.length) / 2
  if sorted.length ≤ midIndex then []
  else if lowLBD then []
  else sorted.drop midIndex

end ClauseDBReductionPolicy

structure CDCLSatSolver where
  assignment : Assignment
  optimizer : FactCleaner
  clauseDB : List ClauseRef
  /-- the object that `createClause` hands out next -/
  nextClause : ClauseRef
  facts : List CNFLit
  lemmas : List ClauseRef
  clauseDBReductionPolicy : ClauseDBReductionPolicy
  maxVar : CNFVar
  detectedUNSAT : Bool
  amntBinariesLearnt : Nat
  conflictCount : Nat
  unitLemmas : Nat
  /-- `m_certificate` with what has been written to it -/
  certificate : Certificate
  /-- what has been written to the certificate that was finalized last -/
  finalizedProof : Certificate

inductive LemmaDerivationResult
  | fact (l : CNFLit)
  | clause (c : ClauseRef) (backtrackLevel : Nat)

inductive ResolveResult
  | continue
  | restart
  | conflict (c : ClauseRef)

namespace CDCLSatSolver

def mem (s : CDCLSatSolver) : Memory := s.assignment.mem

/-- The constructor; the clause database has no clause objects yet. -/
def new : CDCLSatSolver where
  assignment := .new (fun _ => default) 0
  optimizer := ⟨0, 0⟩
  clauseDB := []
  nextClause := 0
  facts := []
  lemmas := []
  clauseDBReductionPolicy := ⟨0, 0⟩
  maxVar := 0
  detectedUNSAT := false
  amntBinariesLearnt := 0
  conflictCount := 0
  unitLemmas := 0
  certificate := none
  finalizedProof := none

def createClause (s : CDCLSatSolver) (clause : Clause) : CDCLSatSolver :=
  { s with
    assignment := s.assignment.writeClause s.nextClause clause
    clauseDB := s.clauseDB ++ [s.nextClause]
    nextClause := s.nextClause + 1 }

def raiseMaxVar (s : CDCLSatSolver) (lits : List CNFLit) : CDCLSatSolver :=
  { s with maxVar := lits.foldl (fun maxVar lit => max maxVar lit.var) s.maxVar }

def addClause (s : CDCLSatSolver) (clause : List CNFLit) : CDCLSatSolver :=
  if clause = [] then { s with detectedUNSAT := true }
  else
    match compressClause clause with
    | none => s
    | some compressed =>
      let s :=
        match compressed with
        | [fact] => { s with facts := s.facts ++ [fact] }
        | _ => s.createClause (.ofLits compressed)
      s.raiseMaxVar compressed

def addProblem (s : CDCLSatSolver) (clauses : List (List CNFLit)) : CDCLSatSolver := clauses.foldl addClause s

def setDRATCertificate (s : CDCLSatSolver) : CDCLSatSolver := { s with certificate := some [] }

def addATClauseToProof (s : CDCLSatSolver) (clause : List CNFLit) : CDCLSatSolver :=
  { s with certificate := s.certificate.write [.addATClause clause] }

def finalizeProofOnUnsat (s : CDCLSatSolver) : CDCLSatSolver :=
  match s.certificate with
  | none => s
  | some steps => { s with certificate := none, finalizedProof := some (steps ++ [.addATClause []]) }

def resizeSubsystems (s : CDCLSatSolver) : CDCLSatSolver :=
  { s with assignment := s.assignment.increaseMaxVar s.maxVar }

def synchronizeSubsystemsWithClauseDB (s : CDCLSatSolver) : CDCLSatSolver :=
  { s with
    assignment := s.clauseDB.foldl Assignment.registerClause s.assignment.clearClauses
    lemmas := s.clauseDB.filter fun c => (s.mem c).redundant }

def prepareSolve (s : CDCLSatSolver) (assumedFacts : List CNFLit) : CDCLSatSolver :=
  let s := s.raiseMaxVar assumedFacts
  let s := { s with facts := withoutRedundancies s.facts }
  s.resizeSubsystems.synchronizeSubsystemsWithClauseDB

def backtrackAll (s : CDCLSatSolver) : CDCLSatSolver := { s with assignment := s.assignment.undoAll }

def backtrackToLevel (s : CDCLSatSolver) (targetLevel : Nat) : CDCLSatSolver :=
  { s with assignment := s.assignment.undoToLevel targetLevel }

def createSolvingResult (s : CDCLSatSolver) (result : TBool) (failedAssumptions : List CNFLit) : SolvingResult where
  isProblemSatisfiable := result
  getModel := if result.isTrue then some (s.assignment.trail.foldl Model.setAssignment .empty) else none
  getFailedAssumptions := if result.isFalse then failedAssumptions else []

def concludeSolve (s : CDCLSatSolver) (result : TBool) (failedAssumptions : List CNFLit) :
    SolvingResult × CDCLSatSolver :=
  let s := if result = .FALSE then s.finalizeProofOnUnsat else s
  (s.createSolvingResult result failedAssumptions, s.backtrackAll)

/-! ## Restarts -/

def sharedOptimizerState (s : CDCLSatSolver) : SharedOptimizerState where
  facts := s.facts
  clauseDB := s.clauseDB
  assignment := s.assignment
  unsatCertificate := s.certificate
  occMap := .empty
  detectedUnsat := false

/-- Takes the parts back that have been moved into the optimizer's state. Its
occurrence map is destroyed. -/
def takeBack (s : CDCLSatSolver) (optimizer : FactCleaner) (result : SharedOptimizerState) : CDCLSatSolver :=
  { s with
    optimizer := optimizer
    facts := result.facts
    clauseDB := result.clauseDB
    assignment := { result.assignment with mem := result.occMap.destroy result.mem }
    certificate := result.unsatCertificate }

/-- Returns whether `DETECTED_UNSAT`. The fact cleaner never makes a breaking change. -/
def trySimplify (s : CDCLSatSolver) : Bool × CDCLSatSolver :=
  if s.optimizer.wantsExecution s.conflictCount s.unitLemmas then
    let (optimizer, result) := s.optimizer.optimize s.sharedOptimizerState s.unitLemmas
    (result.detectedUnsat, s.takeBack optimizer result)
  else (false, s)

def scheduleForDeletion (s : CDCLSatSolver) (c : ClauseRef) : CDCLSatSolver :=
  { s with assignment := s.assignment.writeClause c { s.mem c with scheduledForDeletion := true } }

/-- `m_clauseDB.compress()`. The copies of the clauses keep their names. -/
def compress (s : CDCLSatSolver) : CDCLSatSolver :=
  { s with clauseDB := s.clauseDB.filter fun c => !(s.mem c).scheduledForDeletion }

def tryReduceClauseDB (s : CDCLSatSolver) (sorted : List ClauseRef) (lowLBD : Bool) : CDCLSatSolver :=
  if !s.clauseDBReductionPolicy.shouldReduceDB s.lemmas then s
  else
    let toDelete := ClauseDBReductionPolicy.getClausesMarkedForDeletion sorted lowLBD s.amntBinariesLearnt
    let s := { s with clauseDBReductionPolicy := s.clauseDBReductionPolicy.nextInterval }
    (toDelete.foldl scheduleForDeletion s).compress.synchronizeSubsystemsWithClauseDB

/-! ## Facts and assumptions -/

/-- The fact at which the propagation has failed, if there is one. The loop is
that of the fact cleaner's `withConsequences`. -/
def propagateFactsOnSystemLevels (s : CDCLSatSolver) (factsToPropagate : List CNFLit) :
    Option CNFLit × CDCLSatSolver :=
  let (failed, assignment) := s.assignment.appendFacts factsToPropagate
  (failed, { s with assignment := assignment })

def propagateHardFacts (s : CDCLSatSolver) : Bool × CDCLSatSolver :=
  match s.propagateFactsOnSystemLevels s.facts with
  | (some _, s) => (true, s)
  | (none, s) =>
    let newUnits := s.assignment.trail
    if newUnits.length ≠ s.facts.length then
      (false, { s with unitLemmas := s.unitLemmas + (newUnits.length - s.facts.length), facts := newUnits })
    else (false, s)

/-- The rounds that the searches of the conflict analysis may take. -/
def fuel (s : CDCLSatSolver) : Nat := s.assignment.size + 2

/-- The failed assumptions if the assumptions are inconsistent. Outside, `none`
is a failure of the analysis. -/
def propagateAssumedFacts (s : CDCLSatSolver) (assumedFacts : List CNFLit) :
    Option (Option (List CNFLit) × CDCLSatSolver) :=
  match s.propagateFactsOnSystemLevels assumedFacts with
  | (none, s) => some (none, s)
  | (some fact, s) =>
    (AssignmentAnalysis.analyzeAssignment s.assignment.provider s.fuel fact).map fun failed => (some failed, s)

/-! ## Lemmas -/

def lemmaSimplificationSizeBound : Nat := 30

/-- `lowLBD`: the LBD of the lemma is at most `lemmaSimplificationLBDBound`. -/
def optimizeLemma (s : CDCLSatSolver) (lowLBD : Bool) (clause : List CNFLit) : Option (List CNFLit) :=
  (ClauseMinimization.eraseRedundantLiterals s.assignment.provider s.fuel clause).map fun clause =>
    if clause.length ≤ lemmaSimplificationSizeBound ∧ lowLBD then
      ClauseMinimization.resolveWithBinaries s.assignment.getBinariesMap
        (clause.getD 0 CNFLit.undefinedLiteral) clause
    else clause

def lemmaLiterals (s : CDCLSatSolver) (lowLBD : Bool) (conflictingClause : ClauseRef) : Option (List CNFLit) :=
  match FirstUIPLearning.computeConflictClause s.assignment.provider .empty (s.mem conflictingClause).lits with
  | none => none
  | some (clause, _) => s.optimizeLemma lowLBD clause

/-- The loop over the literals from position `i` on; `best` is the position of
the literal found so far. -/
def litWithMaxDecisionLevel (level : CNFVar → Nat) : List CNFLit → (i best backtrackLevel : Nat) → Nat × Nat
  | [], _, best, backtrackLevel => (best, backtrackLevel)
  | lit :: lits, i, best, backtrackLevel =>
    let currentBacktrackLevel := max backtrackLevel (level lit.var)
    if backtrackLevel < currentBacktrackLevel then
      litWithMaxDecisionLevel level lits (i + 1) i currentBacktrackLevel
    else litWithMaxDecisionLevel level lits (i + 1) best backtrackLevel

def addLemma (s : CDCLSatSolver) (clause : List CNFLit) : CDCLSatSolver :=
  let newLemma := s.nextClause
  let s := s.createClause (.ofLits clause)
  if 2 < clause.length then { s with lemmas := s.lemmas ++ [newLemma] }
  else { s with amntBinariesLearnt := s.amntBinariesLearnt + 1 }

/-- Outside, `none` is a failure of the analysis. -/
def deriveLemma (s : CDCLSatSolver) (lowLBD : Bool) (conflictingClause : ClauseRef) :
    Option (LemmaDerivationResult × CDCLSatSolver) :=
  (s.lemmaLiterals lowLBD conflictingClause).map fun clause =>
    if clause.length = 1 then (.fact (clause.getD 0 CNFLit.undefinedLiteral), s)
    else
      let (best, backtrackLevel) := litWithMaxDecisionLevel s.assignment.getLevel (clause.drop 1) 1 1 0
      (.clause s.nextClause backtrackLevel, s.addLemma (swapAt clause best 1))

def setRedundant (s : CDCLSatSolver) (c : ClauseRef) : CDCLSatSolver :=
  { s with assignment := s.assignment.writeClause c { s.mem c with redundant := true } }

def registerConflict (s : CDCLSatSolver) : CDCLSatSolver :=
  { s with
    conflictCount := s.conflictCount + 1
    clauseDBReductionPolicy := s.clauseDBReductionPolicy.registerConflict }

def registerLemma (s : CDCLSatSolver) (c : ClauseRef) : Option ClauseRef × CDCLSatSolver :=
  let (conflictingClause, assignment) := s.assignment.registerLemma c
  (conflictingClause, { s with assignment := assignment })

def recordLemma (s : CDCLSatSolver) (newLemma : ClauseRef) : CDCLSatSolver :=
  let s := if 2 < (s.mem newLemma).size then s.setRedundant newLemma else s
  s.addATClauseToProof (s.mem newLemma).lits

/-- `resolveDecision` after the lemma has been registered. -/
def afterLemma (backtrackLevel : Nat) : Option ClauseRef × CDCLSatSolver → ResolveResult × CDCLSatSolver
  | (none, s) => (if backtrackLevel = 0 then .restart else .continue, s)
  -- a clause is false under the facts and the assumptions
  | (some c, s) => (if backtrackLevel = 0 ∨ backtrackLevel = 1 then .restart else .conflict c, s)

def learn (s : CDCLSatSolver) : LemmaDerivationResult → ResolveResult × CDCLSatSolver
  | .fact newFact =>
    (.restart,
      { s with facts := s.facts ++ [newFact], unitLemmas := s.unitLemmas + 1 }.addATClauseToProof [newFact])
  | .clause newLemma backtrackLevel =>
    afterLemma backtrackLevel (((s.recordLemma newLemma).backtrackToLevel backtrackLevel).registerLemma newLemma)

def resolveConflict (s : CDCLSatSolver) (lowLBD : Bool) (conflictingClause : ClauseRef) :
    Option (ResolveResult × CDCLSatSolver) :=
  (s.deriveLemma lowLBD conflictingClause).map fun (result, s) => s.registerConflict.learn result

def append (s : CDCLSatSolver) (decision : CNFLit) : Option ClauseRef × CDCLSatSolver :=
  let (conflictingClause, assignment) := s.assignment.append decision .includeLemmas
  (conflictingClause, { s with assignment := assignment })

def newLevel (s : CDCLSatSolver) : CDCLSatSolver := { s with assignment := s.assignment.newLevel }

end CDCLSatSolver

end JamSAT
