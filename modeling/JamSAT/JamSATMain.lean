import JamSAT.IPASIRContext

/-!
# The program

The wrapper around the IPASIR interface and `jamsatMain`. The options come from a
library for command lines, and the log of verbose runs is passed in.
-/

namespace JamSAT

open Ipasir

namespace IpasirSolver

inductive Result
  | INDETERMINATE
  | SATISFIABLE
  | UNSATISFIABLE
  deriving DecidableEq, Repr

def addClause (c : IPASIRContext) (literals : List Int) : Option IPASIRContext :=
  (literals ++ [0]).foldlM IPASIRContext.add c

def ofResultCode (result : Int) : Result :=
  if result = 10 then .SATISFIABLE else if result = 20 then .UNSATISFIABLE else .INDETERMINATE

def solve (c : IPASIRContext) (assumedFacts : List Int) (run : List Event) : Option (Result × IPASIRContext) :=
  (assumedFacts.foldlM IPASIRContext.assume c).bind fun c =>
    (c.solve run).map fun (result, c) => (ofResultCode result, c)

/-- The solver with the clauses that come before an error, and the error. -/
def readProblem (c : IPASIRContext) (content : List Char) : Option (IPASIRContext × Option String) :=
  ((Parser.readProblem content).1.foldlM addClause c).map fun c => (c, (Parser.readProblem content).2)

end IpasirSolver

structure JamSATOptions where
  problemFilename : String
  printVersion : Bool
  waitForUserInput : Bool
  verbose : Bool
  quit : Bool
  deriving DecidableEq, Repr

structure Output where
  out : String
  err : String
  exitCode : Int
  deriving DecidableEq, Repr

namespace Frontend

def exitSuccess : Int := 0

def exitFailure : Int := 1

def solve (c : IPASIRContext) (run : List Event) (out : String) : Option Output :=
  (IpasirSolver.solve c [] run).map fun (result, _) =>
    match result with
    | .SATISFIABLE => ⟨out ++ "SATISFIABLE\n", "", 10⟩
    | .UNSATISFIABLE => ⟨out ++ "UNSATISFIABLE\n", "", 20⟩
    | .INDETERMINATE => ⟨out ++ "INDETERMINATE\n", "", 0⟩

def printErrorMessage (message : String) : String := "Error: " ++ message ++ "\n"

def readingMessage (content : List Char) : String :=
  match Parser.readHeader ⟨content, false⟩ with
  | .ok (header, _) => "Reading a problem with " ++ toString header.numClauses ++ " clauses and " ++
      toString header.numVariables ++ " variables\n"
  | .error _ => ""

def prompt (options : JamSATOptions) : String :=
  if options.waitForUserInput then "Press any key to start the solver.\n" else ""

/-- `none` for the options is the exception for bad ones, and `none` for a file that
it cannot be opened. `run` are the steps of the solver, `log` is what it logs. -/
def jamsatMain (signature : String) (openFile : String → Option (List Char)) (options : Option JamSATOptions)
    (run : List Event) (log : String) : Option Output :=
  match options with
  | none => some ⟨"", "", exitFailure⟩
  | some options =>
    if options.quit then some ⟨"", "", exitSuccess⟩
    else if options.printVersion then some ⟨signature ++ "\n", "", exitSuccess⟩
    else
      match openFile options.problemFilename with
      | none => some ⟨prompt options, printErrorMessage "Could not open input file.", exitFailure⟩
      | some content =>
        let c := if options.verbose then IPASIRContext.new.setLogger else .new
        let out := if options.verbose then prompt options ++ readingMessage content else prompt options
        match IpasirSolver.readProblem c content with
        | none => none
        | some (_, some message) => some ⟨out, printErrorMessage message, exitFailure⟩
        | some (c, none) => solve c run (if options.verbose then out ++ log else out)

end Frontend

end JamSAT
