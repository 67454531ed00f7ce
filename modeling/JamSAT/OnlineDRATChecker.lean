import JamSAT.CDCLSatSolver
import JamSAT.CNFProblem

/-!
# The proof checker of the tests

`OnlineDRATCheckerImpl` checks each lemma with the assignment class of the solver.
Deletions are ignored and resolution asymmetric tautologies are not supported.
-/

namespace JamSAT

inductive OnlineDRATChecker.State
  | NORMAL
  | VALIDATED_UNSAT
  | FINALIZED_PROOF
  | DETECTED_INVALID_LEMMA
  | DETECTED_UNSUPPORTED_LEMMA
  deriving DecidableEq, Repr

structure OnlineDRATChecker where
  m_currentState : OnlineDRATChecker.State
  m_resultComments : List String
  m_maxVar : Nat
  m_clauses : List ClauseRef
  m_assignment : Assignment

namespace OnlineDRATChecker

def hasValidatedUnsat (c : OnlineDRATChecker) : Bool := c.m_currentState == .FINALIZED_PROOF

def toString (clause : List CNFLit) : String := String.ofList (List.intercalate [' '] (clause.map CNFLit.print))

def log (c : OnlineDRATChecker) (message : String) : OnlineDRATChecker :=
  { c with m_resultComments := c.m_resultComments ++ [message] }

/-! ## Adding clauses -/

def addUnaryClause (c : OnlineDRATChecker) (newFact : CNFLit) : OnlineDRATChecker :=
  let assignment :=
    if c.m_maxVar < newFact.var then c.m_assignment.increaseMaxVar newFact.var else c.m_assignment
  let curAssign := assignment.getAssignment newFact
  if curAssign.isDeterminate then
    if curAssign.isFalse then { c with m_currentState := .VALIDATED_UNSAT, m_assignment := assignment }
    else { c with m_assignment := assignment }
  else
    match assignment.append newFact .includeLemmas with
    | (some _, assignment) => { c with m_currentState := .VALIDATED_UNSAT, m_assignment := assignment }
    | (none, assignment) => { c with m_assignment := assignment }

def raiseMaxVar (c : OnlineDRATChecker) (lit : CNFLit) : OnlineDRATChecker :=
  if c.m_maxVar < lit.var then
    { c with m_maxVar := lit.var, m_assignment := c.m_assignment.increaseMaxVar lit.var }
  else c

/-- `createHeapClause` gives an object that is not among `m_clauses`. -/
def addNonUnaryClause (c : OnlineDRATChecker) (clause : List CNFLit) : OnlineDRATChecker :=
  let insertedClause := c.m_clauses.length
  let sorted := clause.insertionSort fun a b => a.rawValue ≤ b.rawValue
  let c := { c with
    m_clauses := c.m_clauses ++ [insertedClause]
    m_assignment := c.m_assignment.writeClause insertedClause (.ofLits sorted) }
  let c := clause.foldl raiseMaxVar c
  { c with m_assignment := c.m_assignment.registerClause insertedClause }

def addClause (c : OnlineDRATChecker) : List CNFLit → OnlineDRATChecker
  | [] => c
  | [newFact] => c.addUnaryClause newFact
  | clause => c.addNonUnaryClause clause

/-- The loop of `addProblem`, which ends at an empty clause. The units are kept for later. -/
def addClauses : List CNFClause → OnlineDRATChecker → (facts : List CNFLit) → OnlineDRATChecker × List CNFLit
  | [], c, facts => (c, facts)
  | rawClause :: clauses, c, facts =>
    match withoutRedundancies rawClause with
    | [] => ({ c with m_currentState := .VALIDATED_UNSAT }, facts)
    | [fact] => addClauses clauses c (facts ++ [fact])
    | clause =>
      if hasComplementaryNeighbours clause then addClauses clauses c facts
      else addClauses clauses (c.addClause clause) facts

def addProblem (c : OnlineDRATChecker) (problem : CNFProblem) : OnlineDRATChecker :=
  let (c, facts) := addClauses problem.clauses c []
  facts.foldl (fun c lit => c.addClause [lit]) c

def createOnlineDRATChecker (problem : CNFProblem) : OnlineDRATChecker :=
  addProblem ⟨.NORMAL, [], problem.getMaxVar, [], .new default problem.getMaxVar⟩ problem

/-! ## Checking lemmas -/

/-- The loop of `isATClause`. `none` is a literal whose variable the assignment does not have. -/
def findConflict : List CNFLit → Assignment → Option (Bool × Assignment)
  | [], assignment => some (false, assignment)
  | assignLit :: clause, assignment =>
    if assignment.size ≤ assignLit.var then none
    else
      let curAssign := assignment.getAssignment (-assignLit)
      if curAssign.isDeterminate then
        if curAssign.isFalse then some (true, assignment) else findConflict clause assignment
      else
        match assignment.append (-assignLit) .includeLemmas with
        | (some _, assignment) => some (true, assignment)
        | (none, assignment) => findConflict clause assignment

def isATClause (c : OnlineDRATChecker) (clause : List CNFLit) : Option (Bool × OnlineDRATChecker) :=
  let currentLevel := c.m_assignment.currentLevel
  (findConflict clause c.m_assignment.newLevel).map fun (hasConflict, assignment) =>
    (hasConflict, { c with m_assignment := assignment.undoToLevel currentLevel })

def isRATClause (c : OnlineDRATChecker) (clause : List CNFLit) : Option (Bool × OnlineDRATChecker) :=
  (c.isATClause clause).map fun (hasATProperty, c) =>
    if hasATProperty then (true, c)
    else (false, { c.log "RAT clauses not supported yet" with m_currentState := .DETECTED_UNSUPPORTED_LEMMA })

def completionMessage (clause : List CNFLit) : String :=
  "After proof completion, this checker accepts only the empty clause, but got: " ++ toString clause

def addRATClause (c : OnlineDRATChecker) (clause : List CNFLit) : Option OnlineDRATChecker :=
  if clause.isEmpty then
    some { c.log "Empty clause passed to addRATClause" with m_currentState := .DETECTED_INVALID_LEMMA }
  else if c.m_currentState ≠ .NORMAL then
    if c.m_currentState = .FINALIZED_PROOF ∨ c.m_currentState = .VALIDATED_UNSAT then
      some { c.log (completionMessage clause) with m_currentState := .DETECTED_UNSUPPORTED_LEMMA }
    else some c
  else
    (c.isRATClause clause).map fun (hasRATProperty, c) =>
      let c :=
        if hasRATProperty then c
        else
          { c.log ("Failed to validate RAT property for lemma " ++ toString clause) with
            m_currentState := .DETECTED_INVALID_LEMMA }
      -- the lemma is added even if the check has failed
      c.addClause clause

def addATClause (c : OnlineDRATChecker) (clause : List CNFLit) : Option OnlineDRATChecker :=
  if c.m_currentState ≠ .NORMAL then
    if c.m_currentState = .VALIDATED_UNSAT ∧ clause.isEmpty then some { c with m_currentState := .FINALIZED_PROOF }
    else if c.m_currentState = .FINALIZED_PROOF ∨ c.m_currentState = .VALIDATED_UNSAT then
      some { c.log (completionMessage clause) with m_currentState := .DETECTED_UNSUPPORTED_LEMMA }
    else some c
  else if clause.isEmpty then
    some { c.log "Failed to validate AT property for the empty clause" with m_currentState := .DETECTED_INVALID_LEMMA }
  else
    (c.isATClause clause).map fun (hasATProperty, c) =>
      let c :=
        if hasATProperty then c
        else
          { c.log ("Failed to validate AT property for lemma " ++ toString clause) with
            m_currentState := .DETECTED_INVALID_LEMMA }
      c.addClause clause

/-! ## Runs -/

inductive Call
  | addATClause (clause : List CNFLit)
  | addRATClause (clause : List CNFLit) (pivotIdx : Nat)
  | deleteClause (clause : List CNFLit)
  | flush

def Call.added : Call → Option (List CNFLit)
  | .addATClause clause => some clause
  | .addRATClause clause _ => some clause
  | .deleteClause _ | .flush => none

def call (c : OnlineDRATChecker) : Call → Option OnlineDRATChecker
  | .addATClause clause => c.addATClause clause
  | .addRATClause clause _ => c.addRATClause clause
  | .deleteClause _ => some c
  | .flush => some c

end OnlineDRATChecker

end JamSAT
