import JamSAT.Assignment
import JamSAT.Runs
import Mathlib.Data.List.Perm.Subperm

/-!
# Clients of the assignment

A session is an assignment object together with what its client has done to it:
which clauses it has registered and announced for modification, and whether the
last propagation ended with a conflict. Clause objects belong to the client, who
may rewrite those that are not registered at any time.
-/

namespace JamSAT

inductive Op
  | increaseMaxVar (n : Nat)
  | registerClause (c : ClauseRef)
  | registerLemma (c : ClauseRef)
  | registerClauseModification (c : ClauseRef)
  | modify (c : ClauseRef) (cl : Clause)
  | clearClauses
  | newLevel
  | append (l : CNFLit) (mode : UpMode)
  | undoToLevel (k : Nat)
  | undoAll

structure Session where
  asg : Assignment
  registered : List ClauseRef
  /-- scheduled for deletion when they were registered -/
  predeleted : List ClauseRef
  /-- announced for modification since the last cleanup -/
  announced : List ClauseRef
  /-- announced while they had more than two literals -/
  long : List ClauseRef
  conflict : Option ClauseRef
  /-- some propagation has left out the redundant clauses since the trail was last empty -/
  excluded : Bool

namespace Session

def new (mem : ClauseRef → Clause) (maxVar : Nat) : Session :=
  ⟨.new mem maxVar, [], [], [], [], none, false⟩

def enter (σ : Session) (c : ClauseRef) : Session :=
  { σ with
    registered := c :: σ.registered
    predeleted := if (σ.asg.mem c).scheduledForDeletion then c :: σ.predeleted else σ.predeleted }

/-- A propagation has run and has cleaned up the watchers first. -/
def propagated (σ : Session) (r : Option ClauseRef × Assignment) : Session :=
  { σ with asg := r.2, conflict := r.1, announced := [], long := [] }

/-- Assignments have been undone, and with the last of them what has been left out. -/
def undone (σ : Session) (s : Assignment) : Session :=
  { σ with asg := s, conflict := none, excluded := σ.excluded && !s.trail.isEmpty }

def exec (σ : Session) : Op → Session
  | .increaseMaxVar n => { σ with asg := σ.asg.increaseMaxVar n }
  | .registerClause c => { σ.enter c with asg := σ.asg.registerClause c }
  | .registerLemma c => (σ.enter c).propagated (σ.asg.registerLemma c)
  | .registerClauseModification c =>
    { σ with
      asg := σ.asg.registerClauseModification c
      announced := c :: σ.announced
      long := if 2 < (σ.asg.mem c).size then c :: σ.long else σ.long }
  | .modify c cl => { σ with asg := σ.asg.writeClause c cl }
  | .clearClauses =>
    { σ with asg := σ.asg.clearClauses, registered := [], predeleted := [], announced := [], long := [] }
  | .newLevel => { σ with asg := σ.asg.newLevel }
  | .append l mode =>
    { σ with excluded := σ.excluded || mode == UpMode.excludeLemmas }.propagated (σ.asg.append l mode)
  | .undoToLevel k => σ.undone (σ.asg.undoToLevel k)
  | .undoAll => σ.undone σ.asg.undoAll

def Reachable (ok : Session → Op → Prop) : Session → Prop :=
  Runs.Reachable (fun σ => ∃ mem n, σ = new mem n) fun σ τ => ∃ op, ok σ op ∧ τ = σ.exec op

/-- What keeps the watch lists meaningful: a clause is registered once, and a
registered clause is modified only after it has been announced. A binary clause
keeps its literals and no clause is taken back from deletion. -/
def Watchable (σ : Session) : Op → Prop
  | .registerClause c => c ∉ σ.registered ∧ 2 ≤ (σ.asg.mem c).size
  | .registerLemma c => c ∉ σ.registered ∧ 2 ≤ (σ.asg.mem c).size
  | .registerClauseModification c => c ∈ σ.registered
  | .modify c cl => c ∉ σ.registered ∨ c ∈ σ.announced ∧ 2 ≤ cl.size ∧
      (c ∈ σ.long ∨ cl.lits.Perm (σ.asg.mem c).lits) ∧
      ((σ.asg.mem c).scheduledForDeletion = true → cl.scheduledForDeletion = true)
  | _ => True

/-- The contract of the class. Only an undo follows a conflict, and clauses are
modified while nothing is assigned. -/
def Legal (σ : Session) : Op → Prop
  | .increaseMaxVar n => σ.conflict = none ∧ σ.asg.size ≤ n + 1
  | .registerClause c => σ.conflict = none ∧ σ.asg.trail = [] ∧ c ∉ σ.registered ∧
      (σ.asg.mem c).WellFormed ∧ ∀ l ∈ (σ.asg.mem c).lits, l.var < σ.asg.size
  | .registerLemma c => σ.conflict = none ∧ c ∉ σ.registered ∧
      (σ.asg.mem c).WellFormed ∧ (∀ l ∈ (σ.asg.mem c).lits, l.var < σ.asg.size) ∧
      σ.asg.getAssignment ((σ.asg.mem c).lit 0) = .INDETERMINATE ∧
      (∀ x ∈ (σ.asg.mem c).lits, x ≠ (σ.asg.mem c).lit 0 → σ.asg.getAssignment x = .FALSE) ∧
      σ.asg.getLevel ((σ.asg.mem c).lit 1).var = σ.asg.currentLevel
  | .registerClauseModification c => σ.conflict = none ∧ σ.asg.trail = [] ∧ c ∈ σ.registered ∧
      3 ≤ (σ.asg.mem c).size
  | .modify c cl => c ∈ σ.announced ∧ 2 ≤ cl.size ∧ cl.lits.Subperm (σ.asg.mem c).lits ∧
      ((σ.asg.mem c).scheduledForDeletion = true → cl.scheduledForDeletion = true)
  | .clearClauses => σ.conflict = none ∧ σ.asg.trail = []
  | .newLevel => σ.conflict = none
  | .append l _ => σ.conflict = none ∧ σ.asg.getAssignment l = .INDETERMINATE ∧ l.var < σ.asg.size
  | .undoToLevel k => k < σ.asg.currentLevel
  | .undoAll => True

instance (σ : Session) : ∀ op, Decidable (σ.Watchable op)
  | .registerClause c => inferInstanceAs (Decidable (c ∉ σ.registered ∧ 2 ≤ (σ.asg.mem c).size))
  | .registerLemma c => inferInstanceAs (Decidable (c ∉ σ.registered ∧ 2 ≤ (σ.asg.mem c).size))
  | .registerClauseModification c => inferInstanceAs (Decidable (c ∈ σ.registered))
  | .modify c cl => inferInstanceAs (Decidable (c ∉ σ.registered ∨ c ∈ σ.announced ∧ 2 ≤ cl.size ∧
      (c ∈ σ.long ∨ cl.lits.Perm (σ.asg.mem c).lits) ∧
      ((σ.asg.mem c).scheduledForDeletion = true → cl.scheduledForDeletion = true)))
  | .increaseMaxVar _ => .isTrue trivial
  | .clearClauses => .isTrue trivial
  | .newLevel => .isTrue trivial
  | .append _ _ => .isTrue trivial
  | .undoToLevel _ => .isTrue trivial
  | .undoAll => .isTrue trivial

instance (σ : Session) : ∀ op, Decidable (σ.Legal op)
  | .increaseMaxVar n => inferInstanceAs (Decidable (σ.conflict = none ∧ σ.asg.size ≤ n + 1))
  | .registerClause c => inferInstanceAs (Decidable (σ.conflict = none ∧ σ.asg.trail = [] ∧ c ∉ σ.registered ∧
      (σ.asg.mem c).WellFormed ∧ ∀ l ∈ (σ.asg.mem c).lits, l.var < σ.asg.size))
  | .registerLemma c => inferInstanceAs (Decidable (σ.conflict = none ∧ c ∉ σ.registered ∧
      (σ.asg.mem c).WellFormed ∧ (∀ l ∈ (σ.asg.mem c).lits, l.var < σ.asg.size) ∧
      σ.asg.getAssignment ((σ.asg.mem c).lit 0) = .INDETERMINATE ∧
      (∀ x ∈ (σ.asg.mem c).lits, x ≠ (σ.asg.mem c).lit 0 → σ.asg.getAssignment x = .FALSE) ∧
      σ.asg.getLevel ((σ.asg.mem c).lit 1).var = σ.asg.currentLevel))
  | .registerClauseModification c => inferInstanceAs (Decidable (σ.conflict = none ∧ σ.asg.trail = [] ∧
      c ∈ σ.registered ∧ 3 ≤ (σ.asg.mem c).size))
  | .modify c cl => inferInstanceAs (Decidable (c ∈ σ.announced ∧ 2 ≤ cl.size ∧
      cl.lits.Subperm (σ.asg.mem c).lits ∧
      ((σ.asg.mem c).scheduledForDeletion = true → cl.scheduledForDeletion = true)))
  | .clearClauses => inferInstanceAs (Decidable (σ.conflict = none ∧ σ.asg.trail = []))
  | .newLevel => inferInstanceAs (Decidable (σ.conflict = none))
  | .append l _ => inferInstanceAs (Decidable (σ.conflict = none ∧
      σ.asg.getAssignment l = .INDETERMINATE ∧ l.var < σ.asg.size))
  | .undoToLevel k => inferInstanceAs (Decidable (k < σ.asg.currentLevel))
  | .undoAll => .isTrue trivial

def AllOk (ok : Session → Op → Prop) : Session → List Op → Prop
  | _, [] => True
  | σ, op :: ops => ok σ op ∧ AllOk ok (σ.exec op) ops

instance (ok : Session → Op → Prop) [∀ σ op, Decidable (ok σ op)] : ∀ σ ops, Decidable (AllOk ok σ ops)
  | _, [] => .isTrue trivial
  | σ, op :: ops =>
    have := instDecidableAllOk ok (σ.exec op) ops
    inferInstanceAs (Decidable (ok σ op ∧ AllOk ok (σ.exec op) ops))

theorem Reachable.foldl {ok : Session → Op → Prop} {σ : Session} (h : Reachable ok σ) {ops : List Op}
    (hok : AllOk ok σ ops) : Reachable ok (ops.foldl exec σ) := by
  induction ops generalizing σ with
  | nil => exact h
  | cons op ops ih => exact ih (.step h ⟨op, hok.1, rfl⟩) hok.2

theorem Reachable.new (ok : Session → Op → Prop) (mem : ClauseRef → Clause) (n : Nat) :
    Reachable ok (new mem n) := .init ⟨mem, n, rfl⟩

end Session

namespace Op

/-- The operations that neither modify registered clauses nor clear the lists. -/
def isBasic : Op → Bool
  | registerClauseModification _ => false
  | modify _ _ => false
  | clearClauses => false
  | _ => true

def includesLemmas : Op → Bool
  | append _ .excludeLemmas => false
  | _ => true

end Op

end JamSAT
