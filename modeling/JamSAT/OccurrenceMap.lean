import JamSAT.Clause
import Mathlib.Logic.Function.Basic

/-!
# The occurrence map

For each element the list of the containers it occurs in; the containers of the solver
are clauses. Containers that have been deleted or have lost elements are removed lazily,
when a list is looked at. The map reads and clears flags of the containers in the memory
`mem`. The lists of the elements above the current maximum are the default ones.
-/

namespace JamSAT

class OccContainer (T : Type) (E : outParam Type) where
  elements : T → List E
  deleted : T → Bool
  modified : T → Bool
  clearModified : T → T
  elements_clearModified : ∀ t, elements (clearModified t) = elements t
  deleted_clearModified : ∀ t, deleted (clearModified t) = deleted t

instance : OccContainer Clause CNFLit where
  elements := Clause.lits
  deleted := Clause.scheduledForDeletion
  modified := Clause.modified
  clearModified c := { c with modified := false }
  elements_clearModified _ := rfl
  deleted_clearModified _ := rfl

/-- Clearing the flag clears it. -/
class LawfulOccContainer (T : Type) {E : Type} [OccContainer T E] : Prop where
  modified_clearModified : ∀ t : T, OccContainer.modified (OccContainer.clearModified t) = false

instance : LawfulOccContainer Clause := ⟨fun _ => rfl⟩

structure OccurrenceMap (C E : Type) where
  requiresUpdate : E → Bool
  occList : E → List C
  /-- the lists a modified container is still to be removed from -/
  delModUpdates : List (C × List E)

abbrev Memory := ClauseRef → Clause

namespace OccurrenceMap

open OccContainer

variable {C T E : Type} [DecidableEq C] [DecidableEq E] [OccContainer T E]

def clearModified (mem : C → T) (c : C) : C → T := Function.update mem c (OccContainer.clearModified (mem c))

def empty : OccurrenceMap C E := ⟨fun _ => false, fun _ => [], []⟩

def increaseMaxElementTo (m : OccurrenceMap C E) (_ : E) : OccurrenceMap C E := m

def pushBack (c : C) (m : OccurrenceMap C E) (l : E) : OccurrenceMap C E :=
  { m with occList := Function.update m.occList l (m.occList l ++ [c]) }

def insert (mem : C → T) (m : OccurrenceMap C E) (c : C) : OccurrenceMap C E :=
  if deleted (mem c) then m else (elements (mem c)).foldl (pushBack c) m

def ofClauses (mem : C → T) (clauses : List C) : OccurrenceMap C E := clauses.foldl (insert mem) empty

def setRequiresUpdate (m : OccurrenceMap C E) (l : E) : OccurrenceMap C E :=
  { m with requiresUpdate := Function.update m.requiresUpdate l true }

def remove (mem : C → T) (m : OccurrenceMap C E) (c : C) : OccurrenceMap C E :=
  (elements (mem c)).foldl setRequiresUpdate m

/-! ## Pending removals -/

def pending (m : OccurrenceMap C E) (c : C) : Option (List E) := m.delModUpdates.lookup c

def erasePending (m : OccurrenceMap C E) (c : C) : OccurrenceMap C E :=
  { m with delModUpdates := m.delModUpdates.filter fun e => e.1 ≠ c }

def setPending (m : OccurrenceMap C E) (c : C) (ls : List E) : OccurrenceMap C E :=
  { m with delModUpdates := (c, ls) :: (m.erasePending c).delModUpdates }

/-- A pending removal of the element is taken back, else it is added to its list. -/
def addElement (c : C) (m : OccurrenceMap C E × List E) (l : E) : OccurrenceMap C E × List E :=
  if l ∈ m.2 then (m.1, m.2.filter (· ≠ l)) else (m.1.pushBack c l, m.2)

def addElements (mem : C → T) (m : OccurrenceMap C E) (c : C) (additions : List E)
    (hasNewRemovals : Bool) : OccurrenceMap C E × (C → T) :=
  match m.pending c with
  | some ls =>
    let r := additions.foldl (addElement c) (m, ls)
    if r.2.isEmpty && !hasNewRemovals then (r.1.erasePending c, clearModified mem c)
    else (r.1.setPending c r.2, mem)
  | none =>
    let m := additions.foldl (pushBack c) m
    if !hasNewRemovals then (m, clearModified mem c) else (m, mem)

def setModified (mem : C → T) (m : OccurrenceMap C E) (c : C) (additions removals : List E) :
    OccurrenceMap C E × (C → T) :=
  let hasNewRemovals := !removals.isEmpty
  let r := m.addElements mem c additions hasNewRemovals
  if hasNewRemovals then
    (removals.foldl setRequiresUpdate (r.1.setPending c ((r.1.pending c).getD [] ∪ removals)), r.2)
  else r

/-! ## Lookup -/

def clearRemoval (mem : C → T) (m : OccurrenceMap C E) (c : C) (value : E) : OccurrenceMap C E × (C → T) :=
  let rest := ((m.pending c).getD []).filter (· ≠ value)
  if rest.isEmpty then (m.erasePending c, clearModified mem c) else (m.setPending c rest, mem)

/-- The removal predicate of `update` over the rest of a list. -/
def sweep (value : E) : List C → OccurrenceMap C E → (C → T) → List C × OccurrenceMap C E × (C → T)
  | [], m, mem => ([], m, mem)
  | c :: cs, m, mem =>
    if deleted (mem c) then sweep value cs m mem
    else if modified (mem c) ∧ value ∈ (m.pending c).getD [] then
      let r := m.clearRemoval mem c value
      sweep value cs r.1 r.2
    else
      let r := sweep value cs m mem
      (c :: r.1, r.2)

def update (mem : C → T) (m : OccurrenceMap C E) (value : E) : OccurrenceMap C E × (C → T) :=
  let r := sweep value (m.occList value) m mem
  ({ r.2.1 with
      occList := Function.update r.2.1.occList value r.1
      requiresUpdate := Function.update r.2.1.requiresUpdate value false },
    r.2.2)

/-- `operator[]` brings the list up to date. -/
def lookup (mem : C → T) (m : OccurrenceMap C E) (value : E) : OccurrenceMap C E × (C → T) :=
  if m.requiresUpdate value then m.update mem value else (m, mem)

/-- The last line is the assertion that no removal is pending any more. -/
def resolveModifications (mem : C → T) (m : OccurrenceMap C E) : Option (OccurrenceMap C E × (C → T)) :=
  let toUpdate := m.delModUpdates.flatMap (·.2)
  let toClear := m.delModUpdates.map (·.1)
  let r := toUpdate.foldl (fun r element => r.1.lookup r.2 element) (m, mem)
  let mem := toClear.foldl clearModified r.2
  if r.1.delModUpdates.isEmpty then some (r.1, mem) else none

def clear (m : OccurrenceMap C E) : OccurrenceMap C E := { m with occList := fun _ => [] }

/-- The destructor. -/
def destroy (mem : C → T) (m : OccurrenceMap C E) : C → T :=
  m.delModUpdates.foldl (fun mem e => clearModified mem e.1) mem

end OccurrenceMap

end JamSAT
