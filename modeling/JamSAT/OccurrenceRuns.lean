import JamSAT.OccurrenceMapSound
import JamSAT.Runs

/-!
# Lookups in every run

A run inserts, deletes and modifies containers, and tells the map. A container that has
been removed may be modified afterwards: `setModified` does not ask whether the
container is deleted, and adds it to lists that are not looked through again.
-/

namespace JamSAT

open OccContainer OccurrenceMap

structure OccState (C T E : Type) where
  inserted : List C
  mem : C → T
  map : OccurrenceMap C E

/-- What is done to containers and the map. `container` is the container as it is when the map is told. -/
inductive OccOp (C T E : Type)
  | insert (c : C) (container : T)
  | remove (c : C) (container : T)
  | setModified (c : C) (container : T) (additions removals : List E)
  | increaseMaxElementTo (maxElement : E)
  | resolveModifications
  | lookup (value : E)

variable {C T E : Type} [DecidableEq C] [DecidableEq E] [OccContainer T E]

namespace OccOp

def run (s : OccState C T E) : OccOp C T E → Option (OccState C T E)
  | insert c container =>
    let mem := Function.update s.mem c container
    some ⟨s.inserted ++ [c], mem, s.map.insert mem c⟩
  | remove c container =>
    let mem := Function.update s.mem c container
    some ⟨s.inserted, mem, s.map.remove mem c⟩
  | setModified c container additions removals =>
    let r := s.map.setModified (Function.update s.mem c container) c additions removals
    some ⟨s.inserted, r.2, r.1⟩
  | increaseMaxElementTo maxElement => some { s with map := s.map.increaseMaxElementTo maxElement }
  | resolveModifications => (s.map.resolveModifications s.mem).map fun r => ⟨s.inserted, r.2, r.1⟩
  | lookup value =>
    let r := s.map.lookup s.mem value
    some ⟨s.inserted, r.2, r.1⟩

/-- The preconditions. Additions and removals are the change that has been made. -/
def Legal (s : OccState C T E) : OccOp C T E → Prop
  | insert c container => c ∉ s.inserted ∧ (elements container).Nodup
  | remove c container => c ∈ s.inserted ∧ deleted container = true ∧ elements container = elements (s.mem c) ∧
      modified container = modified (s.mem c)
  | setModified c container additions removals => c ∈ s.inserted ∧ modified container = true ∧
      deleted container = deleted (s.mem c) ∧ additions.Nodup ∧ (∀ l ∈ additions, l ∉ elements (s.mem c)) ∧
      (∀ l ∈ removals, l ∈ elements (s.mem c)) ∧
      ∀ l, l ∈ elements container ↔ l ∈ elements (s.mem c) ∧ l ∉ removals ∨ l ∈ additions
  | _ => True

/-- The steps that go well: a deleted container is added to no list, except to one that is looked through
again, and modifications are resolved while no deleted container has pending removals. -/
def Guarded (s : OccState C T E) : OccOp C T E → Prop
  | setModified c _ additions _ => deleted (s.mem c) = true →
      ∀ l ∈ additions, s.map.Pending c l ∨ s.map.requiresUpdate l = true
  | resolveModifications => ∀ c l, s.map.Pending c l → deleted (s.mem c) = false
  | _ => True

end OccOp

namespace OccState

def occurrences (s : OccState C T E) (value : E) : List C := (s.map.lookup s.mem value).1.occList value

/-- Every lookup returns the inserted, not deleted containers with the value, each once. -/
def Exact (s : OccState C T E) : Prop :=
  ∀ value, (s.occurrences value).Nodup ∧
    ∀ c, c ∈ s.occurrences value ↔ c ∈ s.inserted ∧ deleted (s.mem c) = false ∧ value ∈ elements (s.mem c)

def Reachable (ok : OccState C T E → OccOp C T E → Prop) : OccState C T E → Prop :=
  Runs.Reachable (fun s => ∃ mem, s = ⟨[], mem, .empty⟩) fun s s' => ∃ op, op.Legal s ∧ ok s op ∧ op.run s = some s'

abbrev Inv (s : OccState C T E) : Prop := s.map.Inv s.inserted s.mem

variable {s s' : OccState C T E}

theorem Inv.exact (h : s.Inv) : s.Exact := by
  intro value
  obtain ⟨hi, hu, hexact⟩ := OccurrenceMap.Inv.lookup h value
  refine ⟨hi.nodup value, fun c => ⟨fun hc => ?_, fun ⟨hc, ha, hv⟩ => ?_⟩⟩
  · exact ⟨hi.sound value c hc, hexact c hc⟩
  · exact hi.complete c hc ((hu.deleted c).trans ha) value (hu.elements c ▸ hv)

/-- A deleted container that has been added to a list outside of the guard is returned. -/
theorem Inv.returned (h : s.Inv) {c : C} {container : T} {additions removals : List E}
    (hl : (OccOp.setModified c container additions removals).Legal s) (hd : deleted (s.mem c) = true) {l : E}
    (ha : l ∈ additions) (hp : ¬ s.map.Pending c l) (hr : s.map.requiresUpdate l ≠ true)
    (hs : (OccOp.setModified c container additions removals).run s = some s') : ¬ s'.Exact := by
  obtain ⟨-, -, hdel, hn, hadd, hrem, -⟩ := hl
  obtain rfl := Option.some.inj hs
  intro hexact
  have hm := setModified_spec h.entries (Function.update s.mem c container) c hn removals
  have hclean : ¬ ((s.map.setModified (Function.update s.mem c container) c additions removals).1.requiresUpdate l =
      true) := by
    rw [hm.requiresUpdate_iff]
    rintro (hin | hreq)
    · exact hadd l ha (hrem l hin)
    · exact hr hreq
  have hin : c ∈ (s.map.setModified (Function.update s.mem c container) c additions removals).1.occList l :=
    (hm.mem_iff l c).mpr (.inr ⟨rfl, ha, hp⟩)
  have hlookup := (hexact l).2 c
  unfold occurrences OccurrenceMap.lookup at hlookup
  dsimp only at hlookup
  rw [if_neg hclean] at hlookup
  have hfalse := (hlookup.mp hin).2.1
  rw [hm.same.deleted, Function.update_self, hdel, hd] at hfalse
  cases hfalse

theorem Inv.step (h : s.Inv) {op : OccOp C T E} (hl : op.Legal s) (hg : op.Guarded s) (hs : op.run s = some s') :
    s'.Inv := by
  cases op with
  | insert c container =>
    obtain rfl := Option.some.inj hs
    have hagree : ∀ d ∈ s.inserted, Function.update s.mem c container d = s.mem d := by
      intro d hd
      apply Function.update_of_ne
      rintro rfl
      exact hl.1 hd
    refine OccurrenceMap.Inv.insert (h.of_agree hagree) hl.1 fun _ => ?_
    dsimp only
    rw [Function.update_self]
    exact hl.2
  | remove c container =>
    obtain rfl := Option.some.inj hs
    obtain ⟨-, hdel, helem, hmod⟩ := hl
    refine OccurrenceMap.Inv.remove h (fun d => ?_) (fun d => ?_) (fun d hd => ?_) fun d hd => ?_
    all_goals dsimp only at *
    all_goals by_cases hdc : d = c
    · rw [hdc, Function.update_self, helem]
    · rw [Function.update_of_ne hdc]
    · rw [hdc, Function.update_self, hmod]
    · rw [Function.update_of_ne hdc]
    · exact .inl hdc
    · right
      rwa [Function.update_of_ne hdc] at hd
    · rw [hdc, Function.update_self, hdel]
    · rwa [Function.update_of_ne hdc]
  | setModified c container additions removals =>
    obtain rfl := Option.some.inj hs
    obtain ⟨hc, hmod, hdel, hn, hadd, hrem, helem⟩ := hl
    refine (OccurrenceMap.Inv.setModified h hc additions removals hn
      (fun d hd => Function.update_of_ne hd _ _) ?_ hadd
      hrem ?_ ?_ hg).1
    all_goals rw [Function.update_self]
    · exact helem
    · exact hmod
    · exact hdel
  | increaseMaxElementTo maxElement =>
    obtain rfl := Option.some.inj hs
    exact h
  | resolveModifications =>
    obtain ⟨r, hr, rfl⟩ := Option.map_eq_some_iff.mp hs
    exact (OccurrenceMap.Inv.resolveModifications h hr).1
  | lookup value =>
    obtain rfl := Option.some.inj hs
    exact (OccurrenceMap.Inv.lookup h value).1

theorem Inv.guarded_iff (h : s.Inv) {op : OccOp C T E} (hl : op.Legal s) :
    (∃ s', op.run s = some s' ∧ s'.Exact) ↔ op.Guarded s := by
  constructor
  · rintro ⟨s', hs, hexact⟩
    cases op with
    | setModified c container additions removals =>
      intro hd l ha
      by_contra hnot
      rw [not_or] at hnot
      exact h.returned hl hd ha hnot.1 hnot.2 hs hexact
    | resolveModifications =>
      obtain ⟨r, hr, -⟩ := Option.map_eq_some_iff.mp hs
      exact (OccurrenceMap.Inv.isSome_resolveModifications h).mp (Option.isSome_of_mem hr)
    | _ => trivial
  · intro hg
    have hrun : ∃ s', op.run s = some s' := by
      cases op with
      | resolveModifications =>
        have hsome := (OccurrenceMap.Inv.isSome_resolveModifications h).mpr hg
        exact Option.isSome_iff_exists.mp (by unfold OccOp.run; rwa [Option.isSome_map])
      | _ => exact ⟨_, rfl⟩
    obtain ⟨s', hs⟩ := hrun
    exact ⟨s', hs, (h.step hl hg hs).exact⟩

theorem Reachable.inv (h : s.Reachable fun s op => op.Guarded s) : s.Inv :=
  Runs.Reachable.invariant h (fun _ ⟨_, he⟩ => he ▸ inv_empty) fun _ _ hi ⟨_, hl, hg, hs⟩ => hi.step hl hg hs

/-- Lookups are exact while every step is guarded, and the first step that is not guarded has no
result or leads to a lookup that is not exact. -/
theorem lookup_exact (h : s.Reachable fun s op => op.Guarded s) :
    s.Exact ∧ ∀ op : OccOp C T E, op.Legal s → ((∃ s', op.run s = some s' ∧ s'.Exact) ↔ op.Guarded s) :=
  ⟨h.inv.exact, fun _ hl => h.inv.guarded_iff hl⟩

/-! ## A container that is modified after it has been removed -/

def oneClause (lits : List CNFLit) (scheduledForDeletion modified : Bool) : Clause :=
  ⟨lits, false, scheduledForDeletion, modified⟩

def insertedAndRemoved : List (OccOp ClauseRef Clause CNFLit) :=
  [.insert 0 (oneClause [⟨0, .positive⟩] false false), .remove 0 (oneClause [⟨0, .positive⟩] true false)]

def removedModified : OccOp ClauseRef Clause CNFLit :=
  .setModified 0 (oneClause [⟨0, .positive⟩, ⟨1, .positive⟩] true true) [⟨1, .positive⟩] []

def start : OccState ClauseRef Clause CNFLit := ⟨[], fun _ => oneClause [] false false, .empty⟩

def after (s : OccState ClauseRef Clause CNFLit) (ops : List (OccOp ClauseRef Clause CNFLit)) :
    OccState ClauseRef Clause CNFLit := ops.foldl (fun s op => (op.run s).getD s) s

theorem removed_reachable (ok : OccState ClauseRef Clause CNFLit → OccOp ClauseRef Clause CNFLit → Prop)
    (hok : ∀ s, ∀ op ∈ insertedAndRemoved, ok s op) : (after start insertedAndRemoved).Reachable ok := by
  have hstart : start.Reachable ok := .init ⟨_, rfl⟩
  have hinsert :=
    hstart.step ⟨insertedAndRemoved[0], ⟨by decide, by decide⟩, hok _ _ (by simp [insertedAndRemoved]), rfl⟩
  exact hinsert.step
    ⟨insertedAndRemoved[1], ⟨by decide, rfl, rfl, rfl⟩, hok _ _ (by simp [insertedAndRemoved]), rfl⟩

theorem removed_exact :
    (after start insertedAndRemoved).Exact ∧ ∀ op : OccOp ClauseRef Clause CNFLit,
      op.Legal (after start insertedAndRemoved) →
        ((∃ s', op.run (after start insertedAndRemoved) = some s' ∧ s'.Exact) ↔
          op.Guarded (after start insertedAndRemoved)) := by
  apply lookup_exact
  apply removed_reachable
  intro s op hop
  obtain rfl | rfl := List.mem_pair.mp hop
  · trivial
  · trivial

/-- The removed clause is returned for its second literal. -/
theorem removed_returned :
    ¬ ∀ s : OccState ClauseRef Clause CNFLit, s.Reachable (fun _ _ => True) → s.Exact := by
  intro hall
  have hreached := (removed_reachable (fun _ _ => True) fun _ _ _ => trivial).step
    (t := after start (insertedAndRemoved ++ [removedModified]))
    ⟨removedModified, ⟨by decide, rfl, rfl, by decide, by decide, by decide, fun l => ?_⟩, trivial, rfl⟩
  · have hin := ((hall _ hreached ⟨1, .positive⟩).2 0).mp (by decide)
    exact absurd hin.2.1 (by decide)
  · simp [OccContainer.elements, oneClause, after, insertedAndRemoved, start, OccOp.run]

end OccState

end JamSAT
