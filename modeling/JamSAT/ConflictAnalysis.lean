import JamSAT.Assignment
import JamSAT.OverApproximatingSet

/-!
# Conflict analysis and lemma minimization

The algorithms see the assignment as a `Provider` of decision levels and
reasons. A run fails (`none`) where the source would dereference a null reason
or run past the begin of a level; searches through reasons take fuel.
-/

namespace JamSAT

structure Provider where
  currentLevel : Nat
  level : CNFVar → Nat
  /-- `getLevelAssignments(getCurrentLevel())` -/
  levelAssignments : List CNFLit
  reason : CNFVar → Option (List CNFLit)

def Assignment.provider (s : Assignment) : Provider where
  currentLevel := s.currentLevel
  level := s.getLevel
  levelAssignments := s.getLevelAssignments s.currentLevel
  reason v := (s.getReason v).map fun c => (s.mem c).lits

abbrev Stamps := CNFVar → Bool

namespace Stamps

def empty : Stamps := fun _ => false

def set (stamps : Stamps) (v : CNFVar) (b : Bool) : Stamps := Function.update stamps v b

end Stamps

/-! ## First-UIP learning -/

namespace FirstUIPLearning

structure State where
  stamps : Stamps
  unresolvedCount : Nat
  result : List CNFLit

def addReasonLit (p : Provider) (resolveAtLit : CNFLit) (st : State) (reasonLit : CNFLit) : State :=
  if resolveAtLit ≠ reasonLit ∧ st.stamps reasonLit.var = false then
    let st := { st with stamps := st.stamps.set reasonLit.var true }
    if p.level reasonLit.var = p.currentLevel then
      { st with unresolvedCount := st.unresolvedCount + 1 }
    else { st with result := st.result ++ [reasonLit] }
  else st

def addResolvent (p : Provider) (reason : List CNFLit) (resolveAtLit : CNFLit) (st : State) : State :=
  let st :=
    if resolveAtLit ≠ CNFLit.undefinedLiteral then
      { st with stamps := st.stamps.set resolveAtLit.var false }
    else st
  reason.foldl (addReasonLit p resolveAtLit) st

/-- The imaginary literal `undefinedLiteral` is put where the asserting literal will be. -/
def initializeResult (p : Provider) (conflictingClause : List CNFLit) (stamps : Stamps) : State :=
  addResolvent p conflictingClause CNFLit.undefinedLiteral ⟨stamps, 0, [CNFLit.undefinedLiteral]⟩

/-- `cursor` lists the assignments of the current level from the cursor down. -/
def resolveUntilUIP (p : Provider) : (cursor : List CNFLit) → State → Option State
  | [], _ => none
  | lit :: cursor, st =>
    if 1 < st.unresolvedCount then
      if st.stamps lit.var then
        match p.reason lit.var with
        | none => none
        | some reason =>
          resolveUntilUIP p cursor
            (addResolvent p reason lit { st with unresolvedCount := st.unresolvedCount - 1 })
      else resolveUntilUIP p cursor st
    else if st.stamps lit.var then
      some { st with stamps := st.stamps.set lit.var false, result := st.result.set 0 (-lit) }
    else resolveUntilUIP p cursor st

def clearStamps (lits : List CNFLit) (stamps : Stamps) : Stamps :=
  lits.foldl (fun stamps w => stamps.set w.var false) stamps

def computeConflictClause (p : Provider) (stamps : Stamps) (conflictingClause : List CNFLit) :
    Option (List CNFLit × Stamps) :=
  (resolveUntilUIP p p.levelAssignments.reverse (initializeResult p conflictingClause stamps)).map
    fun st => (st.result, clearStamps st.result st.stamps)

end FirstUIPLearning

/-! ## Minimization -/

namespace ClauseMinimization

/-- `work` has the last element of `m_work` first. -/
structure Check where
  stamps : Stamps
  work : List CNFVar
  stampCleanup : List CNFVar

/-- The loop over a reason clause; `false` when a literal is not redundant. -/
def checkReason (p : Provider) (levels : OverApproximatingSet) : List CNFLit → Check → Bool × Check
  | [], c => (true, c)
  | lit :: reason, c =>
    if !levels.mightContain (p.level lit.var) then (false, c)
    else if p.level lit.var = 0 ∨ c.stamps lit.var = true then checkReason p levels reason c
    else if (p.reason lit.var).isSome then
      checkReason p levels reason
        ⟨c.stamps.set lit.var true, lit.var :: c.work, c.stampCleanup ++ [lit.var]⟩
    else (false, c)

def checkWork (p : Provider) (levels : OverApproximatingSet) : (fuel : Nat) → Check → Option (Bool × Check)
  | 0, _ => none
  | fuel + 1, c =>
    match c.work with
    | [] => some (true, c)
    | workItem :: work =>
      match p.reason workItem with
      | none => none
      | some reason =>
        match checkReason p (levels.insert 0) reason { c with work := work } with
        | (true, c) => checkWork p levels fuel c
        | (false, c) => some (false, c)

def isRedundant (p : Provider) (fuel : Nat) (levels : OverApproximatingSet) (stamps : Stamps)
    (literal : CNFLit) : Option (Bool × Stamps) :=
  if p.level literal.var = p.currentLevel then some (false, stamps)
  else
    match checkWork p levels fuel ⟨stamps, [literal.var], []⟩ with
    | none => none
    | some (true, c) => some (true, c.stamps)
    | some (false, c) => some (false, c.stampCleanup.foldl (fun stamps v => stamps.set v false) c.stamps)

def eraseLoop (p : Provider) (fuel : Nat) (levels : OverApproximatingSet) :
    List CNFLit → Stamps → Option (List CNFLit)
  | [], _ => some []
  | literal :: rest, stamps =>
    match p.reason literal.var with
    | some _ =>
      match isRedundant p fuel levels stamps literal with
      | none => none
      | some (true, stamps) => eraseLoop p fuel levels rest stamps
      | some (false, stamps) => (eraseLoop p fuel levels rest stamps).map (literal :: ·)
    | none =>
      if p.level literal.var = 0 then eraseLoop p fuel levels rest stamps
      else (eraseLoop p fuel levels rest stamps).map (literal :: ·)

def eraseRedundantLiterals (p : Provider) (fuel : Nat) (literals : List CNFLit) : Option (List CNFLit) :=
  eraseLoop p fuel (literals.foldl (fun levels l => levels.insert (p.level l.var)) .empty) literals
    (literals.foldl (fun stamps l => stamps.set l.var true) .empty)

def resolveWithBinaries (binaryClauses : CNFLit → List CNFLit) (resolveAt : CNFLit) (literals : List CNFLit) :
    List CNFLit :=
  if binaryClauses resolveAt = [] then literals
  else literals.filter fun l => decide (-l ∉ binaryClauses resolveAt)

end ClauseMinimization

/-! ## Assumptions behind an assignment -/

namespace AssignmentAnalysis

/-- `toAnalyze` has the last element first. -/
structure State where
  stamps : Stamps
  toAnalyze : List CNFVar
  result : List CNFLit

def visitLit (p : Provider) (st : State) (lit : CNFLit) : State :=
  if st.stamps lit.var then st
  else
    let st := { st with stamps := st.stamps.set lit.var true }
    if p.level lit.var = p.currentLevel then
      if (p.reason lit.var).isSome then { st with toAnalyze := lit.var :: st.toAnalyze }
      else { st with result := st.result ++ [-lit] }
    else st

def analyze (p : Provider) : (fuel : Nat) → State → Option (List CNFLit)
  | 0, _ => none
  | fuel + 1, st =>
    match st.toAnalyze with
    | [] => some st.result
    | currentVar :: toAnalyze =>
      match p.reason currentVar with
      | none => none
      | some assignmentReason =>
        analyze p fuel
          (assignmentReason.foldl (visitLit p)
            { st with toAnalyze := toAnalyze, stamps := st.stamps.set currentVar true })

def analyzeAssignment (p : Provider) (fuel : Nat) (query : CNFLit) : Option (List CNFLit) :=
  if p.reason query.var = none then some [query]
  else analyze p fuel ⟨.empty, [query.var], [query]⟩

end AssignmentAnalysis

end JamSAT
