import JamSAT.FrontendParser
import JamSAT.SolverMachine

/-!
# The IPASIR interface

The state behind a handle of `ipasir_init` and the calls on it. A call of `solve`
takes the steps of the solver's call. Running out of memory is an exception that a
call catches; `none` is undefined behaviour.
-/

namespace JamSAT

def Event.internal : Event → Bool
  | .addClause _ | .addProblem _ | .setDRATCertificate | .solve _ => false
  | _ => true

/-- A whole call of `solve`, which takes the steps `run`. -/
def Machine.solve (m : Machine) (assumedFacts : List CNFLit) (run : List Event) : Option (SolvingResult × Machine) :=
  if run.all Event.internal then
    (m.run (.solve assumedFacts :: run)).bind fun m =>
      match m.control with
      | .ready (some r) => some (r, m)
      | _ => none
  else none

namespace Ipasir

structure IPASIRContext where
  /-- the solver with its history -/
  m_solver : Option Machine
  m_clauseAddBuffer : List CNFLit
  m_assumptionBuffer : List CNFLit
  m_result : Option SolvingResult
  m_failedAssumptions : List CNFLit
  m_failed : Bool

/-- The conversion of a literal that a client passes. No client passes 0. -/
def convert (lit : Int) : Option CNFLit := if lit = 0 then none else ipasirLitToCNFLit lit

def indeterminateResult : Int := 0

def satisfiableResult : Int := 10

def unsatisfiableResult : Int := 20

def resultCode : TBool → Int
  | .TRUE => satisfiableResult
  | .FALSE => unsatisfiableResult
  | .INDETERMINATE => indeterminateResult

namespace IPASIRContext

def new : IPASIRContext := ⟨none, [], [], none, [], false⟩

def solver (c : IPASIRContext) : Machine := c.m_solver.getD .new

def add (c : IPASIRContext) (lit_or_zero : Int) : Option IPASIRContext :=
  if c.m_failed then some c
  else if lit_or_zero ≠ 0 then
    (convert lit_or_zero).map fun l =>
      { c with m_solver := some c.solver, m_clauseAddBuffer := c.m_clauseAddBuffer ++ [l] }
  else
    (c.solver.step (.addClause c.m_clauseAddBuffer)).map fun m =>
      { c with m_solver := some m, m_clauseAddBuffer := [] }

def assume (c : IPASIRContext) (lit : Int) : Option IPASIRContext :=
  if c.m_failed then some c
  else
    (convert lit).map fun l =>
      { c with m_solver := some c.solver, m_assumptionBuffer := c.m_assumptionBuffer ++ [l] }

def solve (c : IPASIRContext) (run : List Event) : Option (Int × IPASIRContext) :=
  if c.m_failed then some (indeterminateResult, c)
  else
    (c.solver.solve c.m_assumptionBuffer run).map fun (r, m) =>
      (resultCode r.isProblemSatisfiable,
        { c with
          m_solver := some m
          m_assumptionBuffer := []
          m_result := some r
          m_failedAssumptions := if r.isProblemSatisfiable.isFalse then r.getFailedAssumptions else [] })

/-- A call of `solve` that catches an exception when it has copied the first `copied` failed assumptions. -/
def solveOutOfMemory (c : IPASIRContext) (run : List Event) (copied : Nat) : Option (Int × IPASIRContext) :=
  if c.m_failed then some (indeterminateResult, c)
  else
    (c.solver.solve c.m_assumptionBuffer run).bind fun (r, m) =>
      if r.isProblemSatisfiable.isFalse ∧ copied < r.getFailedAssumptions.length then
        some (indeterminateResult,
          { c with
            m_solver := some m
            m_assumptionBuffer := []
            m_result := some r
            m_failedAssumptions := r.getFailedAssumptions.take copied
            m_failed := true })
      else none

def val (c : IPASIRContext) (lit : Int) : Option Int :=
  c.m_result.bind fun r =>
    if r.isProblemSatisfiable.isTrue then
      r.getModel.bind fun model => (convert lit).map fun internalLit =>
        let varAssignment := model.getAssignment internalLit.var
        if !varAssignment.isDeterminate then 0
        else if (varAssignment.xorSign internalLit.sign).isTrue then lit
        else -lit
    else some 0

def failed (c : IPASIRContext) (lit : Int) : Option Int :=
  (convert lit).map fun l => if l ∈ c.m_failedAssumptions then 1 else 0

def setLogger (c : IPASIRContext) : IPASIRContext := { c with m_solver := some c.solver }

end IPASIRContext

inductive Call
  | add (lit_or_zero : Int)
  | assume (lit : Int)
  | solve (run : List Event)
  | solveOutOfMemory (run : List Event) (copied : Nat)
  | setLogger
  /-- a call that catches an exception and leaves the last result as it is -/
  | catches

/-- What the call returns, 0 if it has no result, and the state behind it. -/
def IPASIRContext.call (c : IPASIRContext) : Call → Option (Int × IPASIRContext)
  | .add lit_or_zero => (c.add lit_or_zero).map fun c => (0, c)
  | .assume lit => (c.assume lit).map fun c => (0, c)
  | .solve run => c.solve run
  | .solveOutOfMemory run copied => c.solveOutOfMemory run copied
  | .setLogger => some (0, c.setLogger)
  | .catches => some (indeterminateResult, { c with m_failed := true })

end Ipasir

end JamSAT
