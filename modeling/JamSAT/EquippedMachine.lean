import JamSAT.BranchingMachine
import JamSAT.LiteralBlockDistance

/-!
# The solver with all of its parts

The events of this machine are those that its branching heuristic, its LBDs and its
policies choose. What is left open is what the caller does, how `std::sort` orders equal
clauses, and the arithmetic of `double`.
-/

namespace JamSAT

structure EquippedMachine (D : Type) where
  machine : Machine
  m_branchingHeuristic : VSIDSBranchingHeuristic D
  m_stamps : SolverStamps
  lbds : LBDs
  m_restartPolicy : AveragingRestartPolicy D

namespace EquippedMachine

variable {D : Type} [OfScientific D] [LT D] [DecidableLT D] [Add D] [Mul D] [Div D] [Min D] [LE D] [DecidableLE D]
  [NatCast D]

def movingAverageWindowSize : Nat := 50

omit [LE D] [Add D] [Mul D] [Div D] [Min D] [DecidableLE D] [NatCast D] in
def new : Option (EquippedMachine D) :=
  (VSIDSBranchingHeuristic.new 0).map fun h =>
    ⟨.new, h, .new .uint16 (getMaxLit 0).rawValue, fun _ => 0, .new movingAverageWindowSize⟩

omit [OfScientific D] [Add D] [Min D] [LE D] [DecidableLE D] in
def chooses (p : EquippedMachine D) : Event → Bool
  | .tryReduceClauseDB sorted lowLBD =>
    decide (p.lbds.Sorted p.machine.solver.mem sorted) &&
      lowLBD == p.lbds.lowMidLBD sorted p.machine.solver.amntBinariesLearnt
  | .resolve lowLBD =>
    match p.machine.control with
    | .conflict c => LBDs.lowLemmaLBD p.machine.solver c == some lowLBD
    | _ => false
  | .continue shouldRestart _ => shouldRestart == p.m_restartPolicy.shouldRestart
  | _ => true

def step (p : EquippedMachine D) (e : Event) : Option (EquippedMachine D) := do
  guard (p.chooses e)
  let h ← p.m_branchingHeuristic.step p.machine e
  let (_, stamps) ← Stamping.step p.machine e p.m_stamps
  let lbds ← p.lbds.step p.machine e
  let restartPolicy ← p.m_restartPolicy.step p.lbds p.machine e
  let m ← p.machine.step e
  return ⟨m, h, stamps, lbds, restartPolicy⟩

def Reachable : EquippedMachine D → Prop :=
  Runs.Reachable (fun p => new = some p) fun p q => ∃ e : Event, e.Regular ∧ p.step e = some q

end EquippedMachine

end JamSAT
