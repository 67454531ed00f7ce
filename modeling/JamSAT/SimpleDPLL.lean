import JamSAT.Assignment
import JamSAT.CNFProblem

/-!
# The DPLL solver of the integration tests

A recursive search on the assignment class of the solver. `none` is a failed
assertion: an empty clause, a branch on level 0, or no variable to branch on.
-/

namespace JamSAT

structure SimpleDPLL where
  m_assignment : Assignment
  m_clauses : List ClauseRef
  m_maxVar : Nat

namespace SimpleDPLL

def addUnitClause (d : SimpleDPLL) (unitLit : CNFLit) : SimpleDPLL :=
  if !(d.m_assignment.getAssignment unitLit).isDeterminate then
    { d with m_assignment := (d.m_assignment.append unitLit .includeLemmas).2 }
  else d

/-- `createInternalClause` gives an object that is not among `m_clauses`. -/
def addClause (d : SimpleDPLL) (clause : CNFClause) : SimpleDPLL :=
  let newClause := d.m_clauses.length
  { d with
    m_clauses := d.m_clauses ++ [newClause]
    m_assignment := (d.m_assignment.writeClause newClause (.ofLits clause)).registerClause newClause }

/-- The loop of the constructor over the clauses. The units are kept for later. -/
def addClauses : List CNFClause → SimpleDPLL → (units : List CNFLit) → Option (SimpleDPLL × List CNFLit)
  | [], d, units => some (d, units)
  | [] :: _, _, _ => none
  | [unit] :: clauses, d, units => addClauses clauses d (units ++ [unit])
  | clause :: clauses, d, units => addClauses clauses (d.addClause clause) units

/-- The constructor. What the propagation of a unit returns is not looked at. -/
def new (problem : CNFProblem) : Option SimpleDPLL :=
  (addClauses problem.clauses ⟨.new default problem.getMaxVar, [], problem.getMaxVar⟩ []).map fun (d, units) =>
    let d := units.foldl addUnitClause d
    { d with m_assignment := d.m_assignment.newLevel }

def skipDeterminate (d : SimpleDPLL) : (fuel result : Nat) → Nat
  | 0, result => result
  | fuel + 1, result =>
    if result ≤ d.m_maxVar ∧ (d.m_assignment.assignments result).isDeterminate = true then
      skipDeterminate d fuel (result + 1)
    else result

def getBranchingVariable (d : SimpleDPLL) : Option CNFVar :=
  if d.m_assignment.currentLevel = 0 then none
  else
    let result := d.skipDeterminate (d.m_maxVar + 2) (d.m_assignment.currentLevel - 1)
    if d.m_maxVar < result ∨ (d.m_assignment.assignments result).isDeterminate = true then
      some CNFVar.undefinedVariable
    else some result

def allVariablesAssigned (d : SimpleDPLL) : Bool := d.m_assignment.isComplete

/-- `autoBacktrack` -/
def undoToLevel (d : SimpleDPLL) (level : Nat) : SimpleDPLL :=
  { d with m_assignment := d.m_assignment.undoToLevel level }

def append (d : SimpleDPLL) (branchingLit : CNFLit) : Option ClauseRef × SimpleDPLL :=
  let (conflicting, assignment) := d.m_assignment.newLevel.append branchingLit .includeLemmas
  (conflicting, { d with m_assignment := assignment })

/-- `fuel` bounds the depth of the recursion. -/
def solveBranch : (fuel : Nat) → SimpleDPLL → (branchingLit : CNFLit) → Option (Bool × SimpleDPLL)
  | 0, _, _ => none
  | fuel + 1, d, branchingLit =>
    let currentDecisionLevel := d.m_assignment.currentLevel
    match d.append branchingLit with
    | (some _, d) => some (false, d.undoToLevel currentDecisionLevel)
    | (none, d) =>
      if d.allVariablesAssigned then some (true, d.undoToLevel currentDecisionLevel)
      else
        d.getBranchingVariable.bind fun branchingVariable =>
          if branchingVariable = CNFVar.undefinedVariable then none
          else
            (solveBranch fuel d ⟨branchingVariable, .negative⟩).bind fun (isSatisfiable, d) =>
              if isSatisfiable then some (true, d.undoToLevel currentDecisionLevel)
              else
                (solveBranch fuel d ⟨branchingVariable, .positive⟩).map fun (isSatisfiable, d) =>
                  (isSatisfiable, d.undoToLevel currentDecisionLevel)

def solve (d : SimpleDPLL) : Option TBool :=
  if d.allVariablesAssigned then some .TRUE
  else
    d.getBranchingVariable.bind fun firstBranchingVariable =>
      if firstBranchingVariable = CNFVar.undefinedVariable then none
      else
        (solveBranch (d.m_maxVar + 1) d ⟨firstBranchingVariable, .negative⟩).bind fun (isSatisfiable, d) =>
          if isSatisfiable then some .TRUE
          else
            (solveBranch (d.m_maxVar + 1) d ⟨firstBranchingVariable, .positive⟩).map fun (isSatisfiable, _) =>
              if isSatisfiable then .TRUE else .FALSE

end SimpleDPLL

end JamSAT
