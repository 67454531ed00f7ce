import JamSAT.SeenVariables
import JamSAT.Runs

/-!
# First-UIP learning out of memory

An allocation of `computeConflictClause` may throw `std::bad_alloc`. The handler clears the
stamps up to the maximum variable given to the constructor, which `increaseMaxVarTo` does not
change.
-/

namespace JamSAT

namespace LowMemory

open FirstUIPLearning (State addReasonLit clearStamps)

/-- The memory an implementation of `std::vector` allocates for `newSize` elements. -/
structure Growth where
  allocated : (size capacity newSize : Nat) → Nat
  newSize_le : ∀ size capacity newSize, newSize ≤ allocated size capacity newSize

def Growth.reserve (G : Growth) (size capacity newSize : Nat) : Nat :=
  if capacity < newSize then G.allocated size capacity newSize else capacity

/-- The places of a call at which `std::bad_alloc` may be thrown: the insertions into `result`, which throw only
if they allocate, and the injected faults of the tests. A call of `addResolvent` is known by the literal at which it
resolves. -/
inductive Allocation
  | pushBack
  | resize (resolveAtLit : CNFLit)
  | injectedFault (resolveAtLit : CNFLit)
  | initializationFault
  deriving DecidableEq

/-- `capacity` is that of `result`. -/
structure BufferedState extends State where
  capacity : Nat

variable (G : Growth)

/-- An error leaves the stamps as they are when the exception is thrown. -/
def addResolvent (p : Provider) (fault : Option Allocation) (reason : List CNFLit) (resolveAtLit : CNFLit)
    (st : BufferedState) : Except Stamps BufferedState :=
  let stamps :=
    if resolveAtLit ≠ CNFLit.undefinedLiteral then st.stamps.set resolveAtLit.var false else st.stamps
  let newSize := st.result.length + reason.length
  if st.capacity < newSize ∧ fault = some (.resize resolveAtLit) then .error stamps
  else
    let st' := reason.foldl (addReasonLit p resolveAtLit) { st.toState with stamps := stamps }
    if fault = some (.injectedFault resolveAtLit) then .error st'.stamps
    else .ok { st' with capacity := G.reserve st.result.length st.capacity newSize }

def initializeResult (p : Provider) (fault : Option Allocation) (conflictingClause : List CNFLit) (capacity : Nat)
    (stamps : Stamps) : Except Stamps BufferedState :=
  if capacity < 1 ∧ fault = some .pushBack then .error stamps
  else
    match addResolvent G p fault conflictingClause CNFLit.undefinedLiteral
        ⟨⟨stamps, 0, [CNFLit.undefinedLiteral]⟩, G.reserve 0 capacity 1⟩ with
    | .error stamps => .error stamps
    | .ok st => if fault = some .initializationFault then .error st.stamps else .ok st

def resolveUntilUIP (p : Provider) (fault : Option Allocation) :
    (cursor : List CNFLit) → BufferedState → Option (Except Stamps BufferedState)
  | [], _ => none
  | lit :: cursor, st =>
    if 1 < st.unresolvedCount then
      if st.stamps lit.var then
        match p.reason lit.var with
        | none => none
        | some reason =>
          match addResolvent G p fault reason lit { st with unresolvedCount := st.unresolvedCount - 1 } with
          | .error stamps => some (.error stamps)
          | .ok st => resolveUntilUIP p fault cursor st
      else resolveUntilUIP p fault cursor st
    else if st.stamps lit.var then
      some (.ok { st with stamps := st.stamps.set lit.var false, result := st.result.set 0 (-lit) })
    else resolveUntilUIP p fault cursor st

/-- `size` is that of `m_stamps`. -/
structure FirstUIPLearning where
  m_maxVar : CNFVar
  m_stamps : Stamps
  size : Nat

namespace FirstUIPLearning

def new (maxVar : CNFVar) : FirstUIPLearning := ⟨maxVar, .empty, maxVar + 1⟩

def increaseMaxVarTo (l : FirstUIPLearning) (newMaxVar : CNFVar) : FirstUIPLearning :=
  { l with
    m_stamps := (List.range' l.size (newMaxVar + 1 - l.size)).foldl (fun stamps v => stamps.set v false) l.m_stamps
    size := max l.size (newMaxVar + 1) }

def restoreInvariant (l : FirstUIPLearning) (stamps : Stamps) : FirstUIPLearning :=
  { l with m_stamps := (List.range (l.m_maxVar + 1)).foldl (fun stamps v => stamps.set v false) stamps }

/-- There is no conflict clause when the call throws; `capacity` is that of the vector passed to it. -/
def computeConflictClause (l : FirstUIPLearning) (p : Provider) (fault : Option Allocation)
    (conflictingClause : List CNFLit) (capacity : Nat) : Option (Option (List CNFLit) × FirstUIPLearning) :=
  match initializeResult G p fault conflictingClause capacity l.m_stamps with
  | .error stamps => some (none, l.restoreInvariant stamps)
  | .ok st =>
    match resolveUntilUIP G p fault p.levelAssignments.reverse st with
    | none => none
    | some (.error stamps) => some (none, l.restoreInvariant stamps)
    | some (.ok st) => some (some st.result, { l with m_stamps := clearStamps st.result st.stamps })

def InvariantA (l : FirstUIPLearning) : Prop := ∀ v < l.size, l.m_stamps v = false

end FirstUIPLearning

inductive Call
  | increaseMaxVarTo (newMaxVar : CNFVar)
  | computeConflictClause (p : Provider) (conflictingClause : List CNFLit) (capacity : Nat)
    (fault : Option Allocation)

def FirstUIPLearning.step (l : FirstUIPLearning) : Call → Option FirstUIPLearning
  | .increaseMaxVarTo newMaxVar => some (l.increaseMaxVarTo newMaxVar)
  | .computeConflictClause p conflictingClause capacity fault =>
    (l.computeConflictClause G p fault conflictingClause capacity).map Prod.snd

end LowMemory

end JamSAT
