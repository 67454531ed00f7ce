import JamSAT.CNFLiteral
import JamSAT.OverApproximatingSet
import Mathlib.Algebra.GroupWithZero.Nat

/-!
# The clause database

Clauses are records of different lengths in regions of one size. Pointers are byte offsets
from the start of a region, whose memory is aligned; memory is a function that says which
clause object begins at an offset. A failed assertion and a read where no clause begins have
no result.
-/

namespace JamSAT

namespace IterableClauseDB

/-! ## Clause objects -/

inductive Flag
  | SCHEDULED_FOR_DELETION
  | REDUNDANT
  | MODIFIED
  deriving DecidableEq, Repr

def Flag.mask : Flag → BitVec 15
  | .SCHEDULED_FOR_DELETION => 1
  | .REDUNDANT => 2
  | .MODIFIED => 4

structure Clause where
  m_size : Nat
  m_lbd : Nat
  m_flags : BitVec 15
  m_resized : Bool
  m_approximatedClause : OverApproximatingSet
  /-- the literals from `m_anchor` on, the one past the end included -/
  m_anchor : Nat → CNFLit

def sizeofClause : Nat := 24
def alignofClause : Nat := 8
def sizeofCNFLit : Nat := 4

def maxClauseSize : Nat := 4294967295

namespace Clause

/-- `clauseSize - 1` wraps around. -/
def getAllocationSize (clauseSize : Nat) : Nat :=
  let size := sizeofClause + (if clauseSize = 0 then maxClauseSize else clauseSize - 1) * sizeofCNFLit
  let overlapToAligned := size % alignofClause
  if overlapToAligned ≠ 0 then size + (alignofClause - overlapToAligned) else size

/-- The other literals are what the memory holds. -/
def constructIn (size : Nat) (uninitialized : Nat → CNFLit) : Clause where
  m_size := size
  m_lbd := 0
  m_flags := 0
  m_resized := false
  m_approximatedClause := .empty
  m_anchor := Function.update uninitialized 0 CNFLit.undefinedLiteral

/-- `CNFLit{CNFVar{initSize}, CNFSign::POSITIVE}`, whose raw value has 32 bits -/
def sizeLiteral (initSize : Nat) : CNFLit := ⟨initSize % 2147483648, .positive⟩

def initialSize (c : Clause) : Nat := if !c.m_resized then c.m_size else (c.m_anchor c.m_size).var

def resize (c : Clause) (newSize : Nat) : Clause :=
  if newSize = c.m_size then c
  else { c with
    m_size := newSize
    m_anchor := Function.update c.m_anchor newSize (sizeLiteral c.initialSize)
    m_resized := true }

def write (c : Clause) (index : Nat) (lit : CNFLit) : Clause :=
  { c with m_anchor := Function.update c.m_anchor index lit }

def setLBD (c : Clause) (lbd : Nat) : Clause := { c with m_lbd := min lbd 65535 }

def setFlag (c : Clause) (f : Flag) : Clause := { c with m_flags := c.m_flags ||| f.mask }

def clearFlag (c : Clause) (f : Flag) : Clause := { c with m_flags := c.m_flags &&& ~~~f.mask }

def getFlag (c : Clause) (f : Flag) : Bool := c.m_flags &&& f.mask != 0

def erase (c : Clause) (pos : Nat) : Clause := (c.write pos (c.m_anchor (c.m_size - 1))).resize (c.m_size - 1)

def replaceErased (c : Clause) (writableBegin replacement : Nat) : (steps : Nat) → Clause
  | 0 => c
  | steps + 1 =>
    (c.write writableBegin (c.m_anchor replacement)).replaceErased (writableBegin + 1) (replacement + 1) steps

def eraseRange (c : Clause) (first last : Nat) : Clause :=
  let eraseDist := last - first
  let replacement := if c.m_size - eraseDist < first + eraseDist then first + eraseDist else c.m_size - eraseDist
  (c.replaceErased first replacement (c.m_size - replacement)).resize (c.m_size - eraseDist)

def clauseUpdated (c : Clause) : Clause :=
  { c with
    m_approximatedClause :=
      ((List.range c.m_size).map c.m_anchor).foldl (fun s lit => s.insert lit.var) OverApproximatingSet.empty }

def mightContain (c : Clause) (lit : CNFLit) : Bool := c.m_approximatedClause.mightContain lit.var

def mightShareAllVarsWith (c other : Clause) : Bool :=
  c.m_approximatedClause.mightBeSubsetOf other.m_approximatedClause

def assign (c other : Clause) : Clause :=
  let c := { c with m_lbd := other.m_lbd, m_flags := other.m_flags }.resize other.m_size
  { c with m_anchor := fun i => if i < other.m_size then other.m_anchor i else c.m_anchor i }

end Clause

/-! ## Regions -/

def align (alignment size ptr space : Nat) : Option (Nat × Nat) :=
  let padding := (alignment - ptr % alignment) % alignment
  if space < size + padding then none else some (ptr + padding, space - padding)

structure Region where
  memory : Nat → Option Clause
  m_nextFreeCell : Nat
  m_size : Nat
  m_free : Nat

namespace Region

def new (size : Nat) : Region := ⟨fun _ => none, 0, size, size⟩

def getUsedSize (r : Region) : Nat := r.m_size - r.m_free

def getFreeSize (r : Region) : Nat := r.m_free

def empty (r : Region) : Bool := r.m_free == r.m_size

def put (r : Region) (p : Nat) (c : Clause) : Region := { r with memory := Function.update r.memory p (some c) }

/-- `none` is `nullptr`. The objects in the memory of the new clause end. -/
def allocate (r : Region) (numLiterals : Nat) (uninitialized : Nat → CNFLit) : Option (Nat × Region) :=
  let sizeInBytes := Clause.getAllocationSize numLiterals
  if r.getFreeSize < sizeInBytes then none
  else
    match align alignofClause sizeInBytes r.m_nextFreeCell r.m_free with
    | none => none
    | some (result, free) =>
      let r := { r with
        memory := fun p => if result ≤ p ∧ p < result + sizeInBytes then none else r.memory p
        m_nextFreeCell := result + sizeInBytes
        m_free := free - sizeInBytes }
      some (result, r.put result (Clause.constructIn numLiterals uninitialized))

/-- Inside, `none` is `nullptr`. -/
def getFirstClause (r : Region) : Option (Option Nat) :=
  if r.getUsedSize = 0 then some none
  else (align alignofClause sizeofClause 0 r.m_size).map fun (firstClause, _) => some firstClause

def getNextClause (r : Region) (p : Nat) : Option (Option Nat) := do
  let clause ← r.memory p
  let clauseSize := Clause.getAllocationSize clause.initialSize
  if p + clauseSize = r.getUsedSize then return none
  else (align alignofClause sizeofClause (p + clauseSize) r.m_size).map fun (nextClause, _) => some nextClause

/-- The loop of `clear`, which gives the clauses that it destroys. `steps` bounds the turns. -/
def destroy (r : Region) : (steps : Nat) → Option Nat → Option (List (Nat × Clause))
  | _, none => some []
  | 0, some _ => none
  | steps + 1, some p => do
    let clause ← r.memory p
    let next ← r.getNextClause p
    return (p, clause) :: (← r.destroy steps next)

def clear (r : Region) : Option Region := do
  let first ← r.getFirstClause
  let _ ← r.destroy r.m_size first
  return { r with m_free := r.m_size, m_nextFreeCell := 0 }

end Region

end IterableClauseDB

open IterableClauseDB

structure IterableClauseDB where
  m_regionSize : Nat
  m_activeRegions : List Region
  m_spareRegions : List Region

namespace IterableClauseDB

def new (regionSize : Nat) : IterableClauseDB := ⟨regionSize, [], []⟩

structure Pointer where
  region : Nat
  offset : Nat
  deriving DecidableEq, Repr

def read (db : IterableClauseDB) (p : Pointer) : Option Clause := do
  (← db.m_activeRegions[p.region]?).memory p.offset

def modify (db : IterableClauseDB) (p : Pointer) (f : Clause → Clause) : Option IterableClauseDB := do
  let region ← db.m_activeRegions[p.region]?
  let clause ← region.memory p.offset
  return { db with m_activeRegions := db.m_activeRegions.set p.region (region.put p.offset (f clause)) }

def createActiveRegion (db : IterableClauseDB) : Region × IterableClauseDB :=
  let spares := db.m_spareRegions ++ List.replicate (3 - db.m_spareRegions.length) (Region.new db.m_regionSize)
  let region := spares.getLastD (Region.new db.m_regionSize)
  (region, { db with
    m_activeRegions := db.m_activeRegions ++ [region]
    m_spareRegions := spares.dropLast })

/-- `none` is `nullptr`. -/
def createClause (db : IterableClauseDB) (size : Nat) (uninitialized : Nat → CNFLit) :
    Option Pointer × IterableClauseDB :=
  let newClauseSize := size % (maxClauseSize + 1)
  if maxClauseSize < size ∨ db.m_regionSize < Clause.getAllocationSize newClauseSize then (none, db)
  else
    let (targetRegion, db) :=
      match db.m_activeRegions.getLast? with
      | none => db.createActiveRegion
      | some region => (region, db)
    let store (db : IterableClauseDB) (region : Region) : IterableClauseDB :=
      { db with m_activeRegions := db.m_activeRegions.dropLast ++ [region] }
    match targetRegion.allocate newClauseSize uninitialized with
    | some (p, region) => (some ⟨db.m_activeRegions.length - 1, p⟩, store db region)
    | none =>
      let (newRegion, db) := db.createActiveRegion
      match newRegion.allocate newClauseSize uninitialized with
      | some (p, region) => (some ⟨db.m_activeRegions.length - 1, p⟩, store db region)
      | none => (none, db)

/-! ## Compression -/

structure CompressState where
  currentSpare : Region
  m_activeRegions : List Region
  swapInIndex : Nat

namespace CompressState

def copyTo (st : CompressState) (clause : Clause) (p : Nat) (currentSpare : Region) : Option CompressState := do
  let copy ← currentSpare.memory p
  return { st with currentSpare := currentSpare.put p (copy.assign clause) }

def copyClause (st : CompressState) (idx : Nat) (clause : Clause) : Option CompressState :=
  if clause.getFlag .SCHEDULED_FOR_DELETION then some st
  else
    match st.currentSpare.allocate clause.m_size default with
    | some (copy, currentSpare) => st.copyTo clause copy currentSpare
    | none =>
      if idx = st.swapInIndex then none
      else do
        let swappedIn ← st.m_activeRegions[st.swapInIndex]?
        let st := { st with
          m_activeRegions := st.m_activeRegions.set st.swapInIndex st.currentSpare
          swapInIndex := st.swapInIndex + 1 }
        if swappedIn.getUsedSize ≠ 0 then none
        else
          let (copy, currentSpare) ← swappedIn.allocate clause.m_size default
          st.copyTo clause copy currentSpare

def copyRegion (idx : Nat) : (steps : Nat) → Option Nat → CompressState → Option CompressState
  | _, none, st => some st
  | 0, some _, _ => none
  | steps + 1, some p, st => do
    let clause ← (← st.m_activeRegions[idx]?).memory p
    let st ← st.copyClause idx clause
    let next ← (← st.m_activeRegions[idx]?).getNextClause p
    copyRegion idx steps next st

def InvariantA (st : CompressState) (idx : Nat) (region : Region) : Prop :=
  idx ≠ st.swapInIndex ∨ region.getUsedSize ≤ st.currentSpare.getFreeSize

instance (st : CompressState) (idx : Nat) (region : Region) : Decidable (st.InvariantA idx region) :=
  inferInstanceAs (Decidable (_ ∨ _))

def compressRegion (st : CompressState) (idx : Nat) : Option CompressState := do
  let region ← st.m_activeRegions[idx]?
  if st.InvariantA idx region then
    let first ← region.getFirstClause
    let st ← copyRegion idx region.m_size first st
    let region ← (← st.m_activeRegions[idx]?).clear
    return { st with m_activeRegions := st.m_activeRegions.set idx region }
  else none

end CompressState

/-- The loop over the active regions up to the one with the index `idx`. -/
def compressRegions (st : CompressState) : (idx : Nat) → Option CompressState
  | 0 => some st
  | idx + 1 => do (← compressRegions st idx).compressRegion idx

/-- The last loop of `compress`; both lists start with their last region. -/
def retireRegions : (activeRegions spareRegions : List Region) → List Region × List Region
  | region :: region' :: activeRegions, spareRegions =>
    if region.getUsedSize = 0 then retireRegions (region' :: activeRegions) (region :: spareRegions)
    else (region :: region' :: activeRegions, spareRegions)
  | activeRegions, spareRegions => (activeRegions, spareRegions)

def compressStart (db : IterableClauseDB) : Option CompressState := do
  let currentSpare ← db.m_spareRegions.getLast?
  if currentSpare.empty then return ⟨currentSpare, db.m_activeRegions, 0⟩ else none

def compress (db : IterableClauseDB) : Option IterableClauseDB :=
  if db.m_activeRegions = [] then some db
  else do
    let st ← compressRegions (← db.compressStart) db.m_activeRegions.length
    let currentSpare ← (← st.m_activeRegions[st.swapInIndex]?).clear
    let (activeRegions, spareRegions) :=
      retireRegions (st.m_activeRegions.set st.swapInIndex st.currentSpare).reverse
        (currentSpare :: db.m_spareRegions.dropLast.reverse)
    return { db with m_activeRegions := activeRegions.reverse, m_spareRegions := spareRegions.reverse }

/-! ## Iteration -/

/-- `m_outerIt` is an index, `m_innerIt` the current clause of its region. -/
structure FlatteningIterator where
  m_outerIt : Nat
  m_innerIt : Option (Option Nat)

namespace FlatteningIterator

def skipEmpty (regions : List Region) (outerIt : Nat) : Nat :=
  outerIt + ((regions.drop outerIt).takeWhile Region.empty).length

def enter (regions : List Region) (outerIt : Nat) : Option FlatteningIterator :=
  match regions[outerIt]? with
  | none => some ⟨outerIt, none⟩
  | some region => region.getFirstClause.map fun first => ⟨outerIt, some first⟩

def new (regions : List Region) : Option FlatteningIterator := enter regions (skipEmpty regions 0)

/-- `operator++` -/
def next (regions : List Region) (it : FlatteningIterator) : Option FlatteningIterator :=
  match it.m_innerIt with
  | none => some it
  | some innerIt => do
    let newInnerIt ←
      match innerIt with
      | none => some none
      | some p => (← regions[it.m_outerIt]?).getNextClause p
    match newInnerIt with
    | some p => return { it with m_innerIt := some (some p) }
    | none => enter regions (skipEmpty regions (it.m_outerIt + 1))

end FlatteningIterator

structure ClauseValue where
  lits : List CNFLit
  lbd : Nat
  flags : BitVec 15

def Clause.value (c : Clause) : ClauseValue := ⟨(List.range c.m_size).map c.m_anchor, c.m_lbd, c.m_flags⟩

/-- What a loop from `it` to the end visits. `steps` bounds the turns. -/
def collect (db : IterableClauseDB) : (steps : Nat) → FlatteningIterator → Option (List (Pointer × ClauseValue))
  | 0, _ => none
  | steps + 1, it =>
    match it.m_innerIt with
    | none => some []
    | some innerIt => do
      let p : Pointer := ⟨it.m_outerIt, ← innerIt⟩
      let clause ← db.read p
      let it ← it.next db.m_activeRegions
      return (p, clause.value) :: (← db.collect steps it)

def getClauses (db : IterableClauseDB) : Option (List (Pointer × ClauseValue)) := do
  db.collect ((db.m_activeRegions.map Region.getUsedSize).sum + 1) (← FlatteningIterator.new db.m_activeRegions)

/-! ## Clients -/

inductive Edit
  | write (index : Nat) (lit : CNFLit)
  | resize (newSize : Nat)
  | setLBD (lbd : Nat)
  | setFlag (f : Flag)
  | clearFlag (f : Flag)

namespace Edit

def apply (c : Clause) : Edit → Clause
  | .write index lit => c.write index lit
  | .resize newSize => c.resize newSize
  | .setLBD lbd => c.setLBD lbd
  | .setFlag f => c.setFlag f
  | .clearFlag f => c.clearFlag f

def applyValue (v : ClauseValue) : Edit → ClauseValue
  | .write index lit => { v with lits := v.lits.set index lit }
  | .resize newSize => { v with lits := v.lits.take newSize }
  | .setLBD lbd => { v with lbd := min lbd 65535 }
  | .setFlag f => { v with flags := v.flags ||| f.mask }
  | .clearFlag f => { v with flags := v.flags &&& ~~~f.mask }

def Allowed (size : Nat) : Edit → Prop
  | .write index _ => index < size
  | .resize newSize => 1 ≤ newSize ∧ newSize ≤ size
  | .setLBD lbd => 0 < lbd
  | _ => True

instance (size : Nat) : ∀ e : Edit, Decidable (e.Allowed size)
  | .write index _ => inferInstanceAs (Decidable (index < size))
  | .resize newSize => inferInstanceAs (Decidable (1 ≤ newSize ∧ newSize ≤ size))
  | .setLBD lbd => inferInstanceAs (Decidable (0 < lbd))
  | .setFlag _ | .clearFlag _ => .isTrue trivial

end Edit

inductive Operation
  | createClause (size : Nat) (uninitialized : Nat → CNFLit)
  | edit (p : Pointer) (e : Edit)
  | compress

def ClauseValue.scheduled (v : ClauseValue) : Bool := v.flags &&& Flag.SCHEDULED_FOR_DELETION.mask != 0

/-- The clauses that are to be left, with their new pointers in the same order. One
that the range has lost keeps its old pointer. -/
def relocate {α : Type} (range : List Pointer) (left : List (Pointer × α)) : List (Pointer × α) :=
  left.zipIdx.map fun (x, i) => (range.getD i x.1, x.2)

structure Session where
  db : IterableClauseDB
  /-- the clauses created and not removed, in that order, with the pointers that reach them -/
  clauses : List (Pointer × ClauseValue)

namespace Session

def new (regionSize : Nat) : Session := ⟨.new regionSize, []⟩

def Allowed (s : Session) : Operation → Prop
  | .createClause size _ => 1 ≤ size
  | .edit p e => ∃ x ∈ s.clauses, x.1 = p ∧ e.Allowed x.2.lits.length
  | .compress => True

instance (s : Session) : ∀ op : Operation, Decidable (s.Allowed op)
  | .createClause size _ => inferInstanceAs (Decidable (1 ≤ size))
  | .edit p e => inferInstanceAs (Decidable (∃ x ∈ s.clauses, x.1 = p ∧ e.Allowed x.2.lits.length))
  | .compress => .isTrue trivial

/-- After `compress` the client takes the new pointers from the range. -/
def step (s : Session) : Operation → Option Session
  | .createClause size uninitialized =>
    match s.db.createClause size uninitialized with
    | (none, db) => some { s with db := db }
    | (some p, db) => some ⟨db, s.clauses ++ [(p, (Clause.constructIn size uninitialized).value)]⟩
  | .edit p e => do
    let db ← s.db.modify p fun c => e.apply c
    return ⟨db, s.clauses.map fun (q, v) => (q, if q = p then e.applyValue v else v)⟩
  | .compress => do
    let db ← s.db.compress
    let range ← db.getClauses
    return ⟨db, relocate (range.map Prod.fst) (s.clauses.filter fun x => !x.2.scheduled)⟩

end Session

end IterableClauseDB

end JamSAT
