import JamSAT.CNFLiteral

/-!
# The heap of variables

`BinaryMaxHeap`. Accesses outside of the arrays and failed assertions have no result.
The comparator `m_lessThan` is an argument: keys change between the calls. An element
without a position has the index `-1`, with which every access is out of bounds.
-/

namespace JamSAT

class Index (K : Type) where
  getIndex : K → Nat
  unique : ∀ {x y}, getIndex x = getIndex y → x = y

instance : Index CNFVar := ⟨id, id⟩

structure BinaryMaxHeap (K : Type) where
  /-- by `getIndex` -/
  m_indices : List Int
  m_heap : List K
  m_size : Nat
  deriving DecidableEq, Repr

namespace BinaryMaxHeap

open Index

variable {K : Type} [Index K]

def maxIndex : Nat := 2147483647

def getParentIdx (index : Nat) : Nat := (index - 1) / 2

def getLeftChildIdx (index : Nat) : Nat := 2 * index + 1

def getRightChildIdx (index : Nat) : Nat := 2 * index + 2

def new [Inhabited K] (maxElement : K) : BinaryMaxHeap K :=
  ⟨List.replicate (getIndex maxElement + 1) (-1), List.replicate (getIndex maxElement + 1) default, 0⟩

def increaseMaxSizeTo [Inhabited K] (h : BinaryMaxHeap K) (newMaxElement : K) : Option (BinaryMaxHeap K) :=
  let newSize := getIndex newMaxElement + 1
  if newSize ≥ h.m_heap.length then
    some { h with
      m_heap := h.m_heap ++ List.replicate (newSize - h.m_heap.length) default
      m_indices := h.m_indices ++ List.replicate (newSize - h.m_indices.length) (-1) }
  else none

def empty (h : BinaryMaxHeap K) : Bool := h.m_size = 0

/-- `m_indices[element]`, read as a position. -/
def position (h : BinaryMaxHeap K) (element : K) : Option Nat := do
  let index ← h.m_indices[getIndex element]?
  if 0 ≤ index then some index.toNat else none

def contains (h : BinaryMaxHeap K) (element : K) : Bool := (h.position element).isSome

/-- `m_heap[idx] = element; m_indices[element] = idx` -/
def put (h : BinaryMaxHeap K) (idx : Nat) (element : K) : Option (BinaryMaxHeap K) :=
  if idx < h.m_heap.length ∧ getIndex element < h.m_indices.length then
    some { h with m_heap := h.m_heap.set idx element, m_indices := h.m_indices.set (getIndex element) idx }
  else none

/-- `m_indices[element] = -1` -/
def unmark (h : BinaryMaxHeap K) (element : K) : Option (BinaryMaxHeap K) :=
  if getIndex element < h.m_indices.length then
    some { h with m_indices := h.m_indices.set (getIndex element) (-1) }
  else none

variable (m_lessThan : K → K → Bool)

/-- The loop of `increasingUpdate`, and the writes after it. `steps` bounds the turns. -/
def moveUp (element : K) : (steps : Nat) → BinaryMaxHeap K → (cursorIdx : Nat) → Option (BinaryMaxHeap K)
  | 0, _, _ => none
  | steps + 1, h, cursorIdx =>
    if cursorIdx = 0 then h.put cursorIdx element
    else do
      let parent ← h.m_heap[getParentIdx cursorIdx]?
      if m_lessThan element parent then h.put cursorIdx element
      else do
        let h ← h.put cursorIdx parent
        moveUp element steps h (getParentIdx cursorIdx)

def increasingUpdate (h : BinaryMaxHeap K) (element : K) : Option (BinaryMaxHeap K) := do
  let cursorIdx ← h.position element
  if cursorIdx = 0 then return h
  moveUp m_lessThan element (cursorIdx + 1) h cursorIdx

def maxChildIdx (h : BinaryMaxHeap K) (cursorIdx : Nat) : Option Nat :=
  let leftChildIdx := getLeftChildIdx cursorIdx
  let rightChildIdx := getRightChildIdx cursorIdx
  if rightChildIdx < h.m_size then do
    let leftChild ← h.m_heap[leftChildIdx]?
    let rightChild ← h.m_heap[rightChildIdx]?
    return if m_lessThan leftChild rightChild then rightChildIdx else leftChildIdx
  else some leftChildIdx

def moveDown (element : K) : (steps : Nat) → BinaryMaxHeap K → (cursorIdx : Nat) → Option (BinaryMaxHeap K)
  | 0, _, _ => none
  | steps + 1, h, cursorIdx =>
    if getLeftChildIdx cursorIdx < h.m_size then do
      let maxChildIdx ← h.maxChildIdx m_lessThan cursorIdx
      let maxChild ← h.m_heap[maxChildIdx]?
      if m_lessThan element maxChild then do
        let h ← h.put cursorIdx maxChild
        moveDown element steps h maxChildIdx
      else h.put cursorIdx element
    else if cursorIdx < h.m_size then h.put cursorIdx element
    else none

def decreasingUpdate (h : BinaryMaxHeap K) (element : K) : Option (BinaryMaxHeap K) := do
  let cursorIdx ← h.position element
  moveDown m_lessThan element h.m_size h cursorIdx

def insert (h : BinaryMaxHeap K) (element : K) : Option (BinaryMaxHeap K) :=
  if h.contains element then some h
  else if h.m_size ≠ h.m_heap.length ∧ h.m_size ≤ maxIndex then do
    let h ← { h with m_size := h.m_size + 1 }.put h.m_size element
    increasingUpdate m_lessThan h element
  else none

def removeMax (h : BinaryMaxHeap K) : Option (BinaryMaxHeap K × K) :=
  if h.m_size > 0 then do
    let result ← h.m_heap[0]?
    let h ← h.unmark result
    if h.m_size > 1 then do
      let replacement ← h.m_heap[h.m_size - 1]?
      let h ← h.put 0 replacement
      let h ← decreasingUpdate m_lessThan { h with m_size := h.m_size - 1 } replacement
      return (h, result)
    else return ({ h with m_size := 0 }, result)
  else none

def clear (h : BinaryMaxHeap K) : BinaryMaxHeap K := { h with m_size := 0 }

end BinaryMaxHeap

end JamSAT
