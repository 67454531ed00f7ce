import JamSAT.CNFLiteral
import JamSAT.TextStream

/-!
# CNF problems and their DIMACS text

`CNFProblem` with its maximum variable, the writers, and the readers with their
failure paths. `unsigned int` and `uint32_t` have 32 bits.
-/

namespace JamSAT

abbrev CNFClause := List CNFLit

def CNFVar.maxRawValue : Nat := CNFVar.undefinedVariable - 1

def uint32Size : Nat := TextStream.unsignedMax + 1

structure CNFProblem where
  clauses : List CNFClause
  maxVar : CNFVar
  deriving DecidableEq, Repr

namespace CNFProblem

def new : CNFProblem := ⟨[], CNFVar.undefinedVariable⟩

def raiseMaxVar (maxVar : Nat) (literal : CNFLit) : Nat :=
  if maxVar = CNFVar.undefinedVariable ∨ maxVar < literal.var then literal.var else maxVar

def addClause (problem : CNFProblem) (clause : CNFClause) : CNFProblem :=
  ⟨problem.clauses ++ [clause], clause.foldl raiseMaxVar problem.maxVar⟩

def getSize (problem : CNFProblem) : Nat := problem.clauses.length

def isEmpty (problem : CNFProblem) : Bool := problem.clauses.isEmpty

def getMaxVar (problem : CNFProblem) : CNFVar :=
  if problem.isEmpty then CNFVar.undefinedVariable else problem.maxVar

def clear (_ : CNFProblem) : CNFProblem := new

def ofClauses (clauses : List CNFClause) : CNFProblem := clauses.foldl addClause new

end CNFProblem

/-! ## Writing -/

def CNFVar.print (v : CNFVar) : List Char := Nat.toDigits 10 ((v + 1) % uint32Size)

def CNFLit.print (literal : CNFLit) : List Char :=
  (match literal.sign with
    | .positive => ' '
    | .negative => '-') :: CNFVar.print literal.var

def CNFClause.print (clause : CNFClause) : List Char := clause.flatMap (fun literal => literal.print ++ [' ']) ++ ['0']

def CNFProblem.print (problem : CNFProblem) : List Char :=
  if problem.isEmpty then "p cnf 0 0\n".toList
  else
    "p cnf ".toList ++ CNFVar.print problem.getMaxVar ++ [' '] ++ Nat.toDigits 10 problem.getSize ++ ['\n'] ++
      problem.clauses.flatMap fun clause => CNFClause.print clause ++ ['\n']

/-! ## Reading -/

structure DIMACSHeader where
  valid : Bool
  variableCount : Nat
  clauseCount : Nat
  deriving DecidableEq, Repr

/-- The loop that looks for the line of the header. A line takes at least one
character from the stream or sets its failure bit. -/
def readHeaderLine : (fuel : Nat) → TextStream → List Char → List Char × TextStream
  | 0, input, lineBuffer => (lineBuffer, input)
  | fuel + 1, input, lineBuffer =>
    if input.ok ∧ lineBuffer.head? ≠ some 'p' then
      let (lineBuffer, input) := input.ws.getline lineBuffer
      readHeaderLine fuel input lineBuffer
    else (lineBuffer, input)

def parseHeaderLine (line : List Char) : DIMACSHeader :=
  let headerLine := TextStream.ofText line
  let (p, headerLine) := headerLine.readToken []
  let (cnf, headerLine) := headerLine.readToken p
  let (variableCount, headerLine) := headerLine.readUnsigned
  let (clauseCount, headerLine) := headerLine.readUnsigned
  { valid := headerLine.ok && p == ['p'] && cnf == ['c', 'n', 'f'] &&
      decide (variableCount.getD 0 ≤ CNFVar.maxRawValue)
    variableCount := variableCount.getD 0
    clauseCount := clauseCount.getD 0 }

def readDIMACSHeader (input : TextStream) : DIMACSHeader × TextStream :=
  let (lineBuffer, input) := readHeaderLine (input.rest.length + 1) input ['c']
  if lineBuffer.head? = some 'p' then (parseHeaderLine lineBuffer, input) else (⟨false, 0, 0⟩, input)

def decodeCNFLit (encodedLiteral : Int) : Option CNFLit :=
  if encodedLiteral = -(TextStream.intMax + 1 : Nat) then none
  else
    let literalSign := if 0 < encodedLiteral then CNFSign.positive else CNFSign.negative
    let rawVariable := encodedLiteral.natAbs - 1
    if CNFVar.maxRawValue < rawVariable then none else some ⟨rawVariable, literalSign⟩

/-- One turn of the loop of `>>` for clauses: what is returned, or the state for
the next turn. -/
def readClauseTurn (input : TextStream) (buffer : List Char) (clause : CNFClause) :
    (CNFClause × TextStream) ⊕ (TextStream × List Char × CNFClause) :=
  let (buffer, input) := input.readToken buffer
  match (TextStream.ofText buffer).readInt.1 with
  | none =>
    if buffer = ['c'] then
      let (buffer, input) := ({ input with failbit := false } : TextStream).getline buffer
      .inr (input, buffer, clause)
    -- `parsingFailed`
    else .inl ([], input.setFail)
  | some encodedLiteral =>
    if encodedLiteral = 0 then .inl (clause, input)
    else
      match decodeCNFLit encodedLiteral with
      | none => .inl ([], input.setFail)
      | some literal => .inr (input, buffer, clause ++ [literal])

/-- Each turn takes at least one character from the stream or sets its failure bit. -/
def readClauseLoop (originalClause : CNFClause) :
    (fuel : Nat) → TextStream → (buffer : List Char) → CNFClause → CNFClause × TextStream
  | 0, input, _, _ => (originalClause, input)
  | fuel + 1, input, buffer, clause =>
    if input.ok then
      match readClauseTurn input buffer clause with
      | .inl result => result
      | .inr (input, buffer, clause) => readClauseLoop originalClause fuel input buffer clause
    else (originalClause, input)

def CNFClause.read (input : TextStream) (clause : CNFClause) : CNFClause × TextStream :=
  readClauseLoop clause (input.rest.length + 2) input [] clause

/-- The loop of `readDIMACSClauses`; its counter `i` wraps around. Each clause that
is read takes at least one character from the stream. -/
def readDIMACSClausesLoop (header : DIMACSHeader) :
    (fuel : Nat) → (i : Nat) → TextStream → CNFProblem → CNFProblem × TextStream
  | 0, _, input, problem => (problem, input)
  | fuel + 1, i, input, problem =>
    if header.clauseCount < i then (problem, input)
    else
      let (newClause, input) := CNFClause.read input []
      if !input.ok then (problem.clear, input)
      else
        let problem := problem.addClause newClause
        if header.variableCount < problem.getMaxVar + 1 then (problem.clear, input.setFail)
        else readDIMACSClausesLoop header fuel ((i + 1) % uint32Size) input problem

def readDIMACSClauses (input : TextStream) (header : DIMACSHeader) (problem : CNFProblem) : CNFProblem × TextStream :=
  readDIMACSClausesLoop header (input.rest.length + 1) 1 input problem

def CNFProblem.read (input : TextStream) (problem : CNFProblem) : CNFProblem × TextStream :=
  let (header, input) := readDIMACSHeader input
  if header.valid then readDIMACSClauses input header problem else (problem, input.setFail)

end JamSAT
