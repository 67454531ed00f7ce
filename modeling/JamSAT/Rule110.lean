import JamSAT.CNFProblem

/-!
# The problem generator for Rule 110

The integration tests ask the solver whether a cellular automaton gets from one state to
another. States are given as texts of `0`, `1` and `x`, where `x` leaves a cell open.
`none` is a failed assertion.
-/

namespace JamSAT

structure Rule110PredecessorStateProblem where
  m_targetStateSpec : List Char
  m_sourceStateSpec : List Char
  m_numberOfIntermediateSteps : Nat
  m_automatonWidth : Nat
  deriving DecidableEq, Repr

structure Rule110Encoding where
  cnfProblem : CNFProblem
  freeInputs : List CNFLit
  deriving DecidableEq, Repr

namespace Rule110PredecessorStateProblem

def new (sourceStateSpec targetStateSpec : List Char) (numberOfIntermediateSteps : Nat) :
    Option Rule110PredecessorStateProblem :=
  -- the width is cast to 32 bits
  if targetStateSpec.length < uint32Size ∧ targetStateSpec.length = sourceStateSpec.length then
    some ⟨targetStateSpec, sourceStateSpec, numberOfIntermediateSteps, targetStateSpec.length⟩
  else none

variable (p : Rule110PredecessorStateProblem)

def numberOfStates : Nat := (p.m_numberOfIntermediateSteps + 2) % uint32Size

def getCellVariable (step cellIndex : Nat) : Option CNFVar :=
  if cellIndex < p.m_automatonWidth ∧ step < p.numberOfStates then
    some ((step * p.m_automatonWidth + cellIndex) % uint32Size)
  else none

def cellLit (step cellIndex : Nat) (sign : CNFSign) : Option CNFLit :=
  (p.getCellVariable step cellIndex).bind fun v => if v = CNFVar.undefinedVariable then none else some ⟨v, sign⟩

def signOf (cell : Char) : CNFSign := if cell = '1' then .positive else .negative

/-! ## The clauses of a cell -/

/-- Apart from `futureMid`, the literals are true of cells with 0. -/
def nonBorderConstraints (left mid right futureMid : CNFLit) : List CNFClause :=
  [[left, mid, right, -futureMid],
    [left, mid, -right, futureMid],
    [left, -mid, right, futureMid],
    [left, -mid, -right, -futureMid],
    [-left, mid, right, futureMid],
    [-left, mid, -right, futureMid],
    [-left, -mid, right, futureMid],
    [-left, -mid, -right, -futureMid]]

def leftBorderConstraints (mid right futureMid : CNFLit) : List CNFClause :=
  [[mid, right, futureMid],
    [mid, -right, futureMid],
    [-mid, right, futureMid],
    [-mid, -right, -futureMid]]

def rightBorderConstraints (left mid futureMid : CNFLit) : List CNFClause :=
  [[left, mid, futureMid],
    [left, -mid, -futureMid],
    [-left, mid, futureMid],
    [-left, -mid, -futureMid]]

def transitionConstraints (step cellIndex : Nat) : Option (List CNFClause) := do
  let mid ← p.cellLit (step - 1) cellIndex .negative
  let futureMid ← p.cellLit step cellIndex .positive
  if 0 < cellIndex ∧ cellIndex < p.m_automatonWidth - 1 then
    let left ← p.cellLit (step - 1) (cellIndex - 1) .negative
    let right ← p.cellLit (step - 1) (cellIndex + 1) .negative
    some (nonBorderConstraints left mid right futureMid)
  else if cellIndex = 0 then
    let right ← p.cellLit (step - 1) (cellIndex + 1) .negative
    some (leftBorderConstraints mid right futureMid)
  else
    let left ← p.cellLit (step - 1) (cellIndex - 1) .negative
    some (rightBorderConstraints left mid futureMid)

def targetConstraints (step cellIndex : Nat) : Option (List CNFClause) :=
  if step = (p.m_numberOfIntermediateSteps + 1) % uint32Size then do
    let cell ← p.m_targetStateSpec[cellIndex]?
    if cell = 'x' then some []
    else (p.cellLit step cellIndex (signOf cell)).map fun lit => [[lit]]
  else some []

def createConstraints (step cellIndex : Nat) (freeInputs : List CNFLit) :
    Option (List CNFClause × List CNFLit) :=
  if cellIndex < p.m_automatonWidth ∧ step < p.numberOfStates then
    if step = 0 then do
      let cell ← p.m_sourceStateSpec[cellIndex]?
      let lit ← p.cellLit step cellIndex (signOf cell)
      if cell = 'x' then some ([], freeInputs ++ [-lit]) else some ([[lit]], freeInputs)
    else do
      let target ← p.targetConstraints step cellIndex
      let transition ← p.transitionConstraints step cellIndex
      some (target ++ transition, freeInputs)
  else none

/-! ## The encoding -/

def encodeCell (step : Nat) (result : Rule110Encoding) (cellIndex : Nat) : Option Rule110Encoding :=
  (p.createConstraints step cellIndex result.freeInputs).map fun (encoding, freeInputs) =>
    ⟨encoding.foldl CNFProblem.addClause result.cnfProblem, freeInputs⟩

def encodeStep (result : Rule110Encoding) (step : Nat) : Option Rule110Encoding :=
  (List.range p.m_targetStateSpec.length).foldlM (p.encodeCell step) result

def getCNFEncoding : Option Rule110Encoding := (List.range p.numberOfStates).foldlM p.encodeStep ⟨.new, []⟩

end Rule110PredecessorStateProblem

end JamSAT
