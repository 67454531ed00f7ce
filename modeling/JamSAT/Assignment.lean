import JamSAT.Clause
import Mathlib.Logic.Function.Basic

/-!
# The assignment: trail, watch lists and unit propagation

`Assignment` holds the trail and the two watch-list maps. The clauses it
points to are in `mem`, which propagation rewrites when it moves watches.
Entries of a map beyond `size` are those of a value-initialised vector.
-/

namespace JamSAT

open VecEdit

inductive UpMode
  | excludeLemmas
  | includeLemmas
  deriving DecidableEq, Repr

structure ReasonAndAssignmentLevel where
  reason : Option ClauseRef
  level : Nat

structure Assignment where
  mem : ClauseRef → Clause
  size : Nat
  trail : List CNFLit
  levelLimits : List Nat
  assignments : CNFVar → TBool
  phases : CNFVar → TBool
  currentLevel : Nat
  reasonsAndALs : CNFVar → ReasonAndAssignmentLevel
  binaryWatchers : CNFLit → List Watcher
  watchers : CNFLit → List Watcher
  litsRequiringWatcherUpdate : CNFLit → Bool
  litsRequiringWatcherUpdateAsVec : List CNFLit

namespace Assignment

def new (mem : ClauseRef → Clause) (maxVar : Nat) : Assignment where
  mem := mem
  size := maxVar + 1
  trail := []
  levelLimits := [0]
  assignments := fun _ => .INDETERMINATE
  phases := fun _ => .FALSE
  currentLevel := 0
  reasonsAndALs := fun _ => ⟨none, 0⟩
  binaryWatchers := fun _ => []
  watchers := fun _ => []
  litsRequiringWatcherUpdate := fun _ => false
  litsRequiringWatcherUpdateAsVec := []

def getAssignment (s : Assignment) (l : CNFLit) : TBool := (s.assignments l.var).xorSign l.sign

def getLevel (s : Assignment) (v : CNFVar) : Nat := (s.reasonsAndALs v).level

def getReason (s : Assignment) (v : CNFVar) : Option ClauseRef := (s.reasonsAndALs v).reason

def isComplete (s : Assignment) : Bool := s.trail.length == s.size

def getNumAssignments (s : Assignment) : Nat := s.trail.length

def clearClauses (s : Assignment) : Assignment :=
  { s with watchers := fun _ => [], binaryWatchers := fun _ => [] }

def increaseMaxVar (s : Assignment) (var : Nat) : Assignment :=
  if var + 1 - s.size = 0 then s
  else
    { s with
      size := var + 1
      assignments := fun v => if s.size ≤ v ∧ v ≤ var then .INDETERMINATE else s.assignments v
      reasonsAndALs := fun v => if s.size ≤ v ∧ v ≤ var then ⟨none, 0⟩ else s.reasonsAndALs v
      phases := fun v => if s.size ≤ v ∧ v ≤ var then .FALSE else s.phases v }

def assign (s : Assignment) (literal : CNFLit) (reason : Option ClauseRef) : Assignment :=
  { s with
    trail := s.trail ++ [literal]
    assignments := Function.update s.assignments literal.var (.ofSign literal.sign)
    reasonsAndALs := Function.update s.reasonsAndALs literal.var ⟨reason, s.currentLevel⟩ }

def addWatcher (s : Assignment) (l : CNFLit) (w : Watcher) : Assignment :=
  { s with watchers := Function.update s.watchers l (s.watchers l ++ [w]) }

def addBinaryWatcher (s : Assignment) (l : CNFLit) (w : Watcher) : Assignment :=
  { s with binaryWatchers := Function.update s.binaryWatchers l (s.binaryWatchers l ++ [w]) }

/-- `removeCurrent()` with the traversal of the list of `l` at position `current`. -/
def removeWatcher (s : Assignment) (l : CNFLit) (current : Nat) : Assignment :=
  { s with watchers := Function.update s.watchers l (removeAt (s.watchers l) current) }

def removeBinaryWatcher (s : Assignment) (l : CNFLit) (current : Nat) : Assignment :=
  { s with binaryWatchers := Function.update s.binaryWatchers l (removeAt (s.binaryWatchers l) current) }

/-- The client or the propagation overwrites the clause object at `c`. -/
def writeClause (s : Assignment) (c : ClauseRef) (cl : Clause) : Assignment :=
  { s with mem := Function.update s.mem c cl }

def registerClause (s : Assignment) (c : ClauseRef) : Assignment :=
  let clause := s.mem c
  let lit0 := clause.lit 0
  let lit1 := clause.lit 1
  let watcher1 : Watcher := ⟨c, lit0, 1, clause.redundant⟩
  let watcher2 : Watcher := ⟨c, lit1, 0, clause.redundant⟩
  if clause.size ≤ 2 then (s.addBinaryWatcher lit0 watcher2).addBinaryWatcher lit1 watcher1
  else (s.addWatcher lit0 watcher2).addWatcher lit1 watcher1

def markForUpdate (s : Assignment) (l : CNFLit) : Assignment :=
  if s.litsRequiringWatcherUpdate l then s
  else
    { s with
      litsRequiringWatcherUpdate := Function.update s.litsRequiringWatcherUpdate l true
      litsRequiringWatcherUpdateAsVec := s.litsRequiringWatcherUpdateAsVec ++ [l] }

def registerClauseModification (s : Assignment) (c : ClauseRef) : Assignment :=
  (s.markForUpdate ((s.mem c).lit 0)).markForUpdate ((s.mem c).lit 1)

/-! ## Levels -/

def newLevel (s : Assignment) : Assignment :=
  { s with levelLimits := s.levelLimits ++ [s.trail.length], currentLevel := s.currentLevel + 1 }

def unassign (s : Assignment) (l : CNFLit) : Assignment :=
  { s with
    phases := Function.update s.phases l.var (s.assignments l.var)
    assignments := Function.update s.assignments l.var .INDETERMINATE }

def undoToLevel (s : Assignment) (level : Nat) : Assignment :=
  let limit := s.levelLimits.getD (level + 1) 0
  let s := (s.trail.drop limit).foldl unassign s
  { s with
    trail := s.trail.take limit
    levelLimits := s.levelLimits.take (level + 1)
    currentLevel := level }

def undoAll (s : Assignment) : Assignment :=
  let s := s.trail.foldl unassign s
  { s with
    trail := s.trail.take 0
    levelLimits := s.levelLimits.take 1
    currentLevel := 0 }

def getLevelAssignments (s : Assignment) (level : Nat) : List CNFLit :=
  if s.levelLimits.length ≤ level then []
  else
    let fromBegin := s.trail.drop (s.levelLimits.getD level 0)
    if level + 1 = s.levelLimits.length then fromBegin
    else fromBegin.take (s.levelLimits.getD (level + 1) 0 - s.levelLimits.getD level 0)

def getBinariesMap (s : Assignment) (l : CNFLit) : List CNFLit :=
  (s.binaryWatchers l).map Watcher.otherWatchedLiteral

def isReason (s : Assignment) (c : ClauseRef) : Bool :=
  if s.getNumAssignments = 0 then false
  else
    [((s.mem c).lit 0).var, ((s.mem c).lit 1).var].any fun v =>
      -- reasons are not cleared when assignments are undone
      decide (s.getReason v = some c) && decide (s.getLevel v ≤ s.currentLevel)

/-! ## Watcher cleanup -/

def cleanupNonbinaryWatchers (lit : CNFLit) : (toTraverse current : Nat) → Assignment → Assignment
  | 0, _, s => s
  | toTraverse + 1, current, s =>
    let w := (s.watchers lit).getD current default
    let clause := s.mem w.clause
    if clause.scheduledForDeletion then
      cleanupNonbinaryWatchers lit toTraverse current (s.removeWatcher lit current)
    else if clause.size = 2 then
      let w := { w with otherWatchedLiteral := clause.lit (1 - w.index), isRedundant := false }
      cleanupNonbinaryWatchers lit toTraverse current
        ((s.addBinaryWatcher (clause.lit w.index) w).removeWatcher lit current)
    else if clause.lit w.index ≠ lit then
      let w := { w with
        otherWatchedLiteral := clause.lit (1 - w.index), isRedundant := clause.redundant }
      cleanupNonbinaryWatchers lit toTraverse current
        ((s.addWatcher (clause.lit w.index) w).removeWatcher lit current)
    else cleanupNonbinaryWatchers lit toTraverse (current + 1) s

def cleanupBinaryWatchers (lit : CNFLit) : (toTraverse current : Nat) → Assignment → Assignment
  | 0, _, s => s
  | toTraverse + 1, current, s =>
    let w := (s.binaryWatchers lit).getD current default
    if (s.mem w.clause).scheduledForDeletion then
      cleanupBinaryWatchers lit toTraverse current (s.removeBinaryWatcher lit current)
    else cleanupBinaryWatchers lit toTraverse (current + 1) s

def cleanupWatchersOf (s : Assignment) (lit : CNFLit) : Assignment :=
  let s := cleanupNonbinaryWatchers lit (s.watchers lit).length 0 s
  let s := cleanupBinaryWatchers lit (s.binaryWatchers lit).length 0 s
  { s with litsRequiringWatcherUpdate := Function.update s.litsRequiringWatcherUpdate lit false }

def isWatcherCleanupRequired (s : Assignment) : Bool := !s.litsRequiringWatcherUpdateAsVec.isEmpty

def cleanupWatchers (s : Assignment) : Assignment :=
  let s := s.litsRequiringWatcherUpdateAsVec.foldl cleanupWatchersOf s
  { s with litsRequiringWatcherUpdateAsVec := [] }

/-! ## Propagation -/

def propagateBinaries (toPropagate : CNFLit) :
    (toTraverse current : Nat) → Assignment → Nat → Option ClauseRef × Assignment × Nat
  | 0, _, s, amntNewFacts => (none, s, amntNewFacts)
  | toTraverse + 1, current, s, amntNewFacts =>
    let w := (s.binaryWatchers (-toPropagate)).getD current default
    let secondLit := w.otherWatchedLiteral
    let assignment := s.getAssignment secondLit
    if assignment.isFalse then (some w.clause, s, amntNewFacts)
    else if !assignment.isDeterminate then
      propagateBinaries toPropagate toTraverse (current + 1)
        (s.assign secondLit (some w.clause)) (amntNewFacts + 1)
    else propagateBinaries toPropagate toTraverse (current + 1) s amntNewFacts

inductive Visit
  | skip
  | move (i : Nat)
  | conflict
  | force (l : CNFLit)

def findUnfalsified (s : Assignment) (clause : Clause) : Option Nat :=
  ((clause.lits.drop 2).findIdx? fun l => !(s.getAssignment l).isFalse).map (· + 2)

def visit (s : Assignment) (mode : UpMode) (w : Watcher) : Visit :=
  if mode = .excludeLemmas ∧ w.isRedundant then .skip
  else if (s.getAssignment w.otherWatchedLiteral).isTrue then .skip
  else
    -- the blocker might not be the other watched literal due to earlier moves
    let otherWatchedLit := (s.mem w.clause).lit (1 - w.index)
    if (s.getAssignment otherWatchedLit).isTrue then .skip
    else
      match s.findUnfalsified (s.mem w.clause) with
      | some i => .move i
      | none => if (s.getAssignment otherWatchedLit).isFalse then .conflict else .force otherWatchedLit

def moveWatch (s : Assignment) (from_ : CNFLit) (current : Nat) (w : Watcher) (i : Nat) : Assignment :=
  let currentLit := (s.mem w.clause).lit i
  ((s.writeClause w.clause ((s.mem w.clause).swapLits w.index i)).addWatcher currentLit w).removeWatcher
    from_ current

def propagateWatchers (mode : UpMode) (toPropagate : CNFLit) :
    (toTraverse current : Nat) → Assignment → Nat → Option ClauseRef × Assignment × Nat
  | 0, _, s, amntNewFacts => (none, s, amntNewFacts)
  | toTraverse + 1, current, s, amntNewFacts =>
    let w := (s.watchers (-toPropagate)).getD current default
    match s.visit mode w with
    | .skip => propagateWatchers mode toPropagate toTraverse (current + 1) s amntNewFacts
    | .move i =>
      propagateWatchers mode toPropagate toTraverse current
        (s.moveWatch (-toPropagate) current w i) amntNewFacts
    | .conflict => (some w.clause, s, amntNewFacts)
    | .force l =>
      propagateWatchers mode toPropagate toTraverse (current + 1)
        (s.assign l (some w.clause)) (amntNewFacts + 1)

def propagate (s : Assignment) (mode : UpMode) (toPropagate : CNFLit) :
    Option ClauseRef × Assignment × Nat :=
  match propagateBinaries toPropagate (s.binaryWatchers (-toPropagate)).length 0 s 0 with
  | (some c, s, amntNewFacts) => (some c, s, amntNewFacts)
  | (none, s, amntNewFacts) =>
    propagateWatchers mode toPropagate (s.watchers (-toPropagate)).length 0 s amntNewFacts

/-- The propagation queue is the part `[queueBegin, queueEnd)` of the trail.
Every round takes one entry of the bounded trail. -/
def propagateQueue (mode : UpMode) :
    (fuel queueBegin queueEnd : Nat) → Assignment → Option ClauseRef × Assignment
  | 0, _, _, s => (none, s)
  | fuel + 1, queueBegin, queueEnd, s =>
    if queueBegin = queueEnd then (none, s)
    else
      match s.propagate mode (s.trail.getD queueBegin CNFLit.undefinedLiteral) with
      | (some c, s, _) => (some c, s)
      | (none, s, localNewFacts) => propagateQueue mode fuel (queueBegin + 1) (queueEnd + localNewFacts) s

def propagateUntilFixpoint (s : Assignment) (toPropagate : CNFLit) (mode : UpMode) :
    Option ClauseRef × Assignment :=
  let s := if s.isWatcherCleanupRequired then s.cleanupWatchers else s
  let queueBegin := s.trail.length
  match s.propagate mode toPropagate with
  | (some c, s, _) => (some c, s)
  | (none, s, amntNewFacts) => propagateQueue mode s.size queueBegin (queueBegin + amntNewFacts) s

def append (s : Assignment) (literal : CNFLit) (mode : UpMode) : Option ClauseRef × Assignment :=
  (s.assign literal none).propagateUntilFixpoint literal mode

def registerLemma (s : Assignment) (c : ClauseRef) : Option ClauseRef × Assignment :=
  let s := s.registerClause c
  let assertingLit := (s.mem c).lit 0
  (s.assign assertingLit (some c)).propagateUntilFixpoint assertingLit .includeLemmas

end Assignment

end JamSAT
