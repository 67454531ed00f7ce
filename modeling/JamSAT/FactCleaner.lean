import JamSAT.Assignment
import JamSAT.OccurrenceMap

/-!
# The fact cleaner

Deletes the clauses that a fact satisfies and removes the literals that a fact
falsifies, after the facts have been closed under unit propagation.
-/

namespace JamSAT

inductive ProofStep
  | addATClause (clause : List CNFLit)
  | deleteClause (clause : List CNFLit)
  deriving DecidableEq, Repr

/-- A certificate, if there is one, with the steps written to it so far. -/
abbrev Certificate := Option (List ProofStep)

def Certificate.write (cert : Certificate) (steps : List ProofStep) : Certificate := cert.map (· ++ steps)

structure SharedOptimizerState where
  facts : List CNFLit
  clauseDB : List ClauseRef
  assignment : Assignment
  unsatCertificate : Certificate
  occMap : OccurrenceMap ClauseRef CNFLit
  detectedUnsat : Bool

namespace SharedOptimizerState

def mem (st : SharedOptimizerState) : Memory := st.assignment.mem

def withMem (st : SharedOptimizerState) (r : OccurrenceMap ClauseRef CNFLit × Memory) : SharedOptimizerState :=
  { st with occMap := r.1, assignment := { st.assignment with mem := r.2 } }

def precomputeOccurrenceMap (st : SharedOptimizerState) : SharedOptimizerState :=
  { st with occMap := .ofClauses st.mem st.clauseDB }

end SharedOptimizerState

/-- Appends the facts one after another; stops at a fact that is false or
whose propagation ends in a conflict. -/
def Assignment.appendFacts : List CNFLit → Assignment → Option CNFLit × Assignment
  | [], s => (none, s)
  | fact :: facts, s =>
    match s.getAssignment fact with
    | .TRUE => appendFacts facts s
    | .FALSE => (some fact, s)
    | .INDETERMINATE =>
      match s.append fact .includeLemmas with
      | (some _, s) => (some fact, s)
      | (none, s) => appendFacts facts s

def swapWithLastElement (xs : List CNFLit) (element : CNFLit) : List CNFLit :=
  match xs.idxOf? element with
  | some i => VecEdit.swapAt xs i (xs.length - 1)
  | none => xs

structure FactCleaner where
  learntFactsAfterLastCall : Nat
  factsAfterLastCall : Nat
  deriving DecidableEq, Repr

namespace FactCleaner

/-- `none` for an `InconsistentFactsException`. -/
def withConsequences (assignment : Assignment) (facts : List CNFLit) : Option (List CNFLit) × Assignment :=
  match assignment.undoAll.appendFacts facts with
  | (some _, s) => (none, s.undoAll)
  | (none, s) => (some s.trail, s.undoAll)

def deleteClause (st : SharedOptimizerState) (c : ClauseRef) : SharedOptimizerState :=
  let assignment :=
    (st.assignment.writeClause c { st.mem c with scheduledForDeletion := true }).registerClauseModification c
  { st with
    unsatCertificate := st.unsatCertificate.write [.deleteClause (st.mem c).lits]
    assignment := assignment
    occMap := st.occMap.remove assignment.mem c }

def removeLiteral (fact : CNFLit) (st : SharedOptimizerState) (c : ClauseRef) : SharedOptimizerState :=
  let lits := swapWithLastElement (st.mem c).lits (-fact)
  let assignment :=
    st.assignment.writeClause c { st.mem c with lits := lits.take (lits.length - 1), modified := true }
  let st := { st with
    unsatCertificate := st.unsatCertificate.write
      [.addATClause (lits.take (lits.length - 1)), .deleteClause lits]
    assignment := assignment }
  let st := st.withMem (st.occMap.setModified st.mem c [] [-fact])
  { st with assignment := st.assignment.registerClauseModification c }

def strengthen (fact : CNFLit) (st : SharedOptimizerState) (c : ClauseRef) : SharedOptimizerState :=
  if (st.mem c).scheduledForDeletion then st
  else if (st.mem c).size = 2 then deleteClause st c
  else removeLiteral fact st c

def forOccurrences (body : SharedOptimizerState → ClauseRef → SharedOptimizerState)
    (st : SharedOptimizerState) (value : CNFLit) : SharedOptimizerState :=
  let st := st.withMem (st.occMap.lookup st.mem value)
  (st.occMap.occList value).foldl body st

def deleteSatisfied (st : SharedOptimizerState) : SharedOptimizerState :=
  st.facts.foldl (forOccurrences deleteClause) st

def strengthenAll (st : SharedOptimizerState) : SharedOptimizerState :=
  st.facts.foldl (fun st fact => forOccurrences (strengthen fact) st (-fact)) st

def wantsExecution (fc : FactCleaner) (conflictCount unitLemmas : Nat) : Bool :=
  conflictCount == 0 || decide (unitLemmas > fc.learntFactsAfterLastCall)

/-- Differences and sums of counters wrap around at `2 ^ 64`. -/
def optimize (fc : FactCleaner) (st : SharedOptimizerState) (unitLemmas : Nat) :
    FactCleaner × SharedOptimizerState :=
  if st.detectedUnsat then (fc, st)
  else
    let fc := { fc with learntFactsAfterLastCall := unitLemmas }
    if st.facts.length = fc.factsAfterLastCall then (fc, st)
    else
      let st := st.precomputeOccurrenceMap
      match withConsequences st.assignment st.facts with
      | (none, assignment) => (fc, { st with assignment := assignment, detectedUnsat := true })
      | (some facts, assignment) =>
        let additionalFacts := (facts.length + UInt64.size - st.facts.length) % UInt64.size
        (⟨(fc.learntFactsAfterLastCall + additionalFacts) % UInt64.size, facts.length⟩,
          strengthenAll (deleteSatisfied { st with facts := facts, assignment := assignment }))

end FactCleaner

end JamSAT
