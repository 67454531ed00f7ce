import JamSAT.SolverMachine

/-!
# Restarts asked for by the policy

`GlucoseRestartPolicy` without the LBDs: of its moving average only the number of
values is kept. A machine with this policy goes on as the solver does while nobody
calls `stop`.
-/

namespace JamSAT

structure GlucoseRestartPolicy where
  movingAverageWindowSize : Nat
  /-- the number of values in `m_averageLBD` -/
  averageLBD : Nat
  deriving DecidableEq, Repr

namespace GlucoseRestartPolicy

def new (movingAverageWindowSize : Nat) : GlucoseRestartPolicy := ⟨movingAverageWindowSize, 0⟩

def registerConflict (p : GlucoseRestartPolicy) : GlucoseRestartPolicy :=
  if p.averageLBD = p.movingAverageWindowSize then p else { p with averageLBD := p.averageLBD + 1 }

def registerRestart (p : GlucoseRestartPolicy) : GlucoseRestartPolicy := { p with averageLBD := 0 }

def isFull (p : GlucoseRestartPolicy) : Bool := p.averageLBD == p.movingAverageWindowSize

/-- `highLBD` says that the average LBD times `m_K` exceeds the mean LBD of all lemmas. -/
def shouldRestart (p : GlucoseRestartPolicy) (highLBD : Bool) : Bool := p.isFull && highLBD

end GlucoseRestartPolicy

structure PacedMachine where
  machine : Machine
  restartPolicy : GlucoseRestartPolicy

namespace PacedMachine

def notify (p : GlucoseRestartPolicy) (control : Control) : Event → GlucoseRestartPolicy
  | .resolve _ =>
    match control with
    | .restarting => p.registerRestart
    | _ => p.registerConflict
  | .continue true _ => p.registerRestart
  | _ => p

/-- `stop` has never been called, and the policy decides about the restarts after
decisions without conflicts. -/
def allows (p : GlucoseRestartPolicy) : Event → Bool
  | .stop => false
  | .continue shouldRestart stopRequested =>
    !stopRequested && (shouldRestart == p.shouldRestart true || shouldRestart == p.shouldRestart false)
  | _ => true

def step (p : PacedMachine) (e : Event) : Option PacedMachine :=
  if allows p.restartPolicy e then
    (p.machine.step e).map fun m => ⟨m, notify p.restartPolicy m.control e⟩
  else none

def Steps (p q : PacedMachine) : Prop := ∃ e : Event, e.Regular ∧ p.step e = some q

def Determined (p : PacedMachine) : Prop :=
  p.machine.control.verdict = some .TRUE ∨ p.machine.control.verdict = some .FALSE

end PacedMachine

end JamSAT
