import JamSAT.Assignment
import JamSAT.BinaryHeap

/-!
# The branching heuristic

`VSIDSBranchingHeuristic` with its base class and its comparator. The type of the
activities, `double` in the source, is a parameter. The maps are lists by variable.
-/

namespace JamSAT

structure VSIDSBranchingHeuristic (D : Type) where
  m_decisionVariables : List Bool
  m_variableOrder : BinaryMaxHeap CNFVar
  /-- of the comparator -/
  m_activity : List D
  m_activityBumpDelta : D
  m_decayRate : D
  m_maxDecayRate : D
  m_numberOfConflicts : Nat
  deriving DecidableEq

namespace VSIDSBranchingHeuristic

variable {D : Type}

def setEligibleForDecisions (h : VSIDSBranchingHeuristic D) (var : CNFVar) (isEligible : Bool) :
    VSIDSBranchingHeuristic D :=
  { h with m_decisionVariables := h.m_decisionVariables.set var isEligible }

def isEligibleForDecisions (h : VSIDSBranchingHeuristic D) (var : CNFVar) : Bool :=
  h.m_decisionVariables.getD var false

variable [OfScientific D] [LT D] [DecidableLT D]

def lessThan (h : VSIDSBranchingHeuristic D) (lhs rhs : CNFVar) : Bool :=
  decide (h.m_activity.getD lhs 0.0 < h.m_activity.getD rhs 0.0)

/-- `reset` for a single variable -/
def reset (h : VSIDSBranchingHeuristic D) (var : CNFVar) : Option (VSIDSBranchingHeuristic D) :=
  (h.m_variableOrder.insert h.lessThan var).map fun order => { h with m_variableOrder := order }

/-- `reset` for all variables -/
def resetAll (h : VSIDSBranchingHeuristic D) : Option (VSIDSBranchingHeuristic D) :=
  (List.range h.m_activity.length).foldlM reset { h with m_variableOrder := h.m_variableOrder.clear }

def new (maxVar : CNFVar) : Option (VSIDSBranchingHeuristic D) :=
  resetAll {
    m_decisionVariables := List.replicate (maxVar + 1) false
    m_variableOrder := .new maxVar
    m_activity := List.replicate (maxVar + 1) 0.0
    m_activityBumpDelta := 1.0
    m_decayRate := 0.8
    m_maxDecayRate := 0.95
    m_numberOfConflicts := 0 }

/-- A new variable: `activityMap[i] = 0.0f`, then it is inserted. -/
def addVariable (h : VSIDSBranchingHeuristic D) (i : CNFVar) : Option (VSIDSBranchingHeuristic D) :=
  { h with m_activity := h.m_activity.set i 0.0 }.reset i

def increaseMaxVarTo (h : VSIDSBranchingHeuristic D) (newMaxVar : CNFVar) : Option (VSIDSBranchingHeuristic D) := do
  let firstNewVar := h.m_activity.length
  let order ← h.m_variableOrder.increaseMaxSizeTo newMaxVar
  let newVars := newMaxVar + 1 - firstNewVar
  (List.range' firstNewVar newVars).foldlM addVariable { h with
    m_decisionVariables :=
      h.m_decisionVariables ++ List.replicate (newMaxVar + 1 - h.m_decisionVariables.length) false
    m_variableOrder := order
    m_activity := h.m_activity ++ List.replicate newVars 0.0 }

def phaseSign (phase : TBool) : CNFSign := if phase.isTrue then .positive else .negative

/-- The loop of `pickBranchLiteral`. `steps` bounds the turns. -/
def pickLoop (s : Assignment) : (steps : Nat) → VSIDSBranchingHeuristic D → Option (CNFLit × VSIDSBranchingHeuristic D)
  | 0, _ => none
  | steps + 1, h =>
    if h.m_variableOrder.empty then some (CNFLit.undefinedLiteral, h)
    else do
      let (order, branchingVar) ← h.m_variableOrder.removeMax h.lessThan
      let h := { h with m_variableOrder := order }
      if !(s.assignments branchingVar).isDeterminate && h.isEligibleForDecisions branchingVar then
        return (⟨branchingVar, phaseSign (s.phases branchingVar)⟩, h)
      else pickLoop s steps h

def pickBranchLiteral (h : VSIDSBranchingHeuristic D) (s : Assignment) :
    Option (CNFLit × VSIDSBranchingHeuristic D) := pickLoop s (h.m_variableOrder.m_size + 1) h

variable [Add D] [Mul D] [Div D] [Min D] [LE D] [DecidableLE D]

def scaleDownActivities (h : VSIDSBranchingHeuristic D) : VSIDSBranchingHeuristic D :=
  { h with
    m_activity := h.m_activity.map fun activity => 1e-100 * activity
    m_activityBumpDelta := h.m_activityBumpDelta * 1e-100 }

/-- The update of the activities in `seenInConflict`. -/
def bump (h : VSIDSBranchingHeuristic D) (var : CNFVar) : VSIDSBranchingHeuristic D :=
  let activity := h.m_activity.getD var 0.0 + h.m_activityBumpDelta
  let h := { h with m_activity := h.m_activity.set var activity }
  if 1e100 ≤ activity then h.scaleDownActivities else h

def seenInConflict (h : VSIDSBranchingHeuristic D) (var : CNFVar) : Option (VSIDSBranchingHeuristic D) :=
  let h := h.bump var
  if h.m_variableOrder.contains var then
    (h.m_variableOrder.increasingUpdate h.lessThan var).map fun order => { h with m_variableOrder := order }
  else some h

def beginHandlingConflict (h : VSIDSBranchingHeuristic D) : VSIDSBranchingHeuristic D :=
  if h.m_numberOfConflicts + 1 = 5000 then
    { h with m_decayRate := min (h.m_decayRate + 0.1) h.m_maxDecayRate, m_numberOfConflicts := 0 }
  else { h with m_numberOfConflicts := h.m_numberOfConflicts + 1 }

def endHandlingConflict (h : VSIDSBranchingHeuristic D) : VSIDSBranchingHeuristic D :=
  { h with m_activityBumpDelta := h.m_activityBumpDelta * (1.0 / h.m_decayRate) }

end VSIDSBranchingHeuristic

end JamSAT
