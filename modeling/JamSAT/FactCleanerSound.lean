import JamSAT.FactPropagation
import JamSAT.OccurrenceMapSound
import Mathlib.Logic.Relation

/-!
# The fact cleaner keeps the meaning

The cleaner takes steps: a list of the occurrence map is looked up, a clause
with a fact is deleted, or a literal that a fact falsifies is removed behind the
watched literals. What it needs from propagation is that a clause without a fact
has no false watched literal.
-/

namespace JamSAT

open UnitLogic VecEdit Assignment

/-! ## Editing one clause -/

/-- `C₀` has lost false literals behind the watched ones, or has been deleted for a literal of `F`. -/
structure Edited (F : Set CNFLit) (C₀ C : Clause) : Prop where
  redundant : C.redundant = C₀.redundant
  lit : ∀ i : Fin 2, C.lit i = C₀.lit i
  two_le : 2 ≤ C₀.size → 2 ≤ C.size
  subperm : C.lits.Subperm C₀.lits
  removed : ∀ x ∈ C₀.lits, x ∈ C.lits ∨ -x ∈ F
  kept : C₀.scheduledForDeletion = true → C.lits = C₀.lits ∧ C.scheduledForDeletion = true
  deleted : C.scheduledForDeletion = true → C₀.scheduledForDeletion = true ∨ ∃ x ∈ C.lits, x ∈ F

namespace Edited

variable {F : Set CNFLit} {C₀ C C' : Clause}

theorem of_same (hl : C.lits = C₀.lits) (hr : C.redundant = C₀.redundant)
    (hd : C.scheduledForDeletion = C₀.scheduledForDeletion) : Edited F C₀ C where
  redundant := hr
  lit i := by rw [Clause.lit, hl]; rfl
  two_le h := by rw [Clause.size, hl]; exact h
  subperm := hl ▸ List.Subperm.refl _
  removed x hx := .inl (hl ▸ hx)
  kept h := ⟨hl, hd.trans h⟩
  deleted h := .inl (hd.symm.trans h)

theorem refl (C : Clause) : Edited F C C := of_same rfl rfl rfl

theorem trans (h : Edited F C₀ C) (h' : Edited F C C') : Edited F C₀ C' where
  redundant := h'.redundant.trans h.redundant
  lit i := (h'.lit i).trans (h.lit i)
  two_le hs := h'.two_le (h.two_le hs)
  subperm := h'.subperm.trans h.subperm
  removed x hx := by
    rcases h.removed x hx with hx | hx
    · exact h'.removed x hx
    · exact .inr hx
  kept hd := by
    obtain ⟨h₁, h₂⟩ := h.kept hd
    obtain ⟨h₃, h₄⟩ := h'.kept h₂
    exact ⟨h₃.trans h₁, h₄⟩
  deleted hd := by
    rcases h'.deleted hd with hd | hd
    · rcases h.deleted hd with h₀ | ⟨x, hx, hF⟩
      · exact .inl h₀
      · exact .inr ⟨x, (h'.kept hd).1 ▸ hx, hF⟩
    · exact .inr hd

theorem delete {x : CNFLit} (hx : x ∈ C.lits) (hF : x ∈ F) : Edited F C { C with scheduledForDeletion := true } :=
  ⟨rfl, fun _ => rfl, id, List.Subperm.refl _, fun _ hx => .inl hx, fun _ => ⟨rfl, rfl⟩, fun _ => .inr ⟨x, hx, hF⟩⟩

theorem alive (h : Edited F C₀ C) (ha : C.scheduledForDeletion = false) : C₀.scheduledForDeletion = false :=
  Bool.eq_false_of_not_eq_true fun hd => Bool.false_ne_true (ha.symm.trans (h.kept hd).2)

theorem wellFormed (h : Edited F C₀ C) (hwf : C₀.WellFormed) : C.WellFormed := by
  obtain ⟨xs, hp, hs⟩ := h.subperm
  exact ⟨h.two_le hwf.two_le_size, (hp.map _).nodup_iff.mp (hwf.nodup_vars.sublist (hs.map _))⟩

end Edited

theorem swapWithLastElement_eq {xs : List CNFLit} {x : CNFLit} (hx : x ∈ xs) :
    ∃ ys, swapWithLastElement xs x = ys ++ [x] ∧ (ys ++ [x]).Perm xs ∧
      ∀ j y, xs[j]? = some y → y ≠ x → j + 1 < xs.length → ys[j]? = some y := by
  have hpos : 0 < xs.length := List.length_pos_of_mem hx
  obtain ⟨i, hi⟩ : ∃ i, xs.idxOf? x = some i := by
    cases h : xs.idxOf? x with
    | none => exact absurd hx (List.idxOf?_eq_none_iff.mp h)
    | some i => exact ⟨i, rfl⟩
  have hget : xs[i]? = some x := by
    obtain ⟨hlt, he, -⟩ := List.idxOf?_eq_some_iff.mp hi
    exact List.getElem?_eq_some_iff.mpr ⟨hlt, he⟩
  have hlt : i < xs.length := (List.getElem?_eq_some_iff.mp hget).1
  have hdef : swapWithLastElement xs x = swapAt xs i (xs.length - 1) := by rw [swapWithLastElement, hi]
  have hlast : (swapAt xs i (xs.length - 1))[xs.length - 1]? = some x := by
    rw [getElem?_swapAt_right hlt (by omega), hget]
  have hlen : (swapAt xs i (xs.length - 1)).length = (xs.length - 1) + 1 := by rw [length_swapAt]; omega
  have happ : (swapAt xs i (xs.length - 1)).take (xs.length - 1) ++ [x] = swapAt xs i (xs.length - 1) := by
    obtain ⟨hl, he⟩ := List.getElem?_eq_some_iff.mp hlast
    rw [← he, List.take_append_getElem hl, List.take_of_length_le hlen.le]
  refine ⟨(swapAt xs i (xs.length - 1)).take (xs.length - 1), hdef.trans happ.symm, ?_, fun j y hj hne hjl => ?_⟩
  · rw [happ]; exact swapAt_perm _ _ _
  · rw [List.getElem?_take_of_lt (by omega), getElem?_swapAt_of_ne ?_ (by omega), hj]
    intro hji
    rw [hji, hget] at hj
    exact hne (Option.some.inj hj).symm

structure Removal (F : Set CNFLit) (C : Clause) (x : CNFLit) (ys : List CNFLit) : Prop where
  swap : swapWithLastElement C.lits x = ys ++ [x]
  perm : (ys ++ [x]).Perm C.lits
  mem_iff : ∀ y, y ∈ ys ↔ y ∈ C.lits ∧ y ≠ x
  edited : Edited F C { C with lits := ys, modified := true }

theorem exists_removal {F : Set CNFLit} {C : Clause} {x : CNFLit} (hn : C.lits.Nodup) (hx : x ∈ C.lits)
    (hw : ∀ i : Fin 2, C.lit i ≠ x) (hF : -x ∈ F) (ha : C.scheduledForDeletion = false) :
    ∃ ys, Removal F C x ys := by
  obtain ⟨ys, hswap, hperm, hget⟩ := swapWithLastElement_eq hx
  obtain ⟨j, hj, hjx⟩ := Clause.exists_lit_of_mem hx
  have hj2 : 2 ≤ j := by
    by_contra hlt
    exact hw ⟨j, by omega⟩ hjx
  have hlen : ys.length + 1 = C.size := by rw [Clause.size, ← hperm.length_eq]; simp
  have hmem : ∀ y, y ∈ ys ↔ y ∈ C.lits ∧ y ≠ x := by
    intro y
    obtain ⟨-, hnx⟩ := List.nodup_append.mp (hperm.nodup_iff.mpr hn)
    rw [← hperm.mem_iff, List.mem_append, List.mem_singleton]
    constructor
    · intro hy
      exact ⟨.inl hy, hnx.2 y hy x (List.mem_singleton_self x)⟩
    · rintro ⟨hy, hne⟩
      exact hy.resolve_right hne
  have halive : C.scheduledForDeletion ≠ true := fun hd => Bool.false_ne_true (ha.symm.trans hd)
  refine ⟨ys, hswap, hperm, hmem, rfl, fun i => ?_, fun _ => ?_, ?_, fun y hy => ?_, fun hd => absurd hd halive,
    fun hd => absurd hd halive⟩
  · have hi := i.isLt
    have hlit := hget i (C.lit i) (Clause.lit_eq (by omega)) (hw i) (show i.val + 1 < C.size by omega)
    rw [Clause.lit, List.getD_eq_getElem?_getD, hlit]; rfl
  · show 2 ≤ ys.length
    omega
  · exact (List.sublist_append_left ys [x]).subperm.trans hperm.subperm
  · by_cases hyx : y = x
    · exact .inr (hyx ▸ hF)
    · exact .inl ((hmem y).mpr ⟨hy, hyx⟩)

/-! ## Steps of the cleaner -/

namespace FactCleaner

/-- `u` is the assignment before the cleaning, `F` are the facts and `db` is the database. -/
structure Cleaning (F : List CNFLit) (db : List ClauseRef) (u : Assignment) (st : SharedOptimizerState) : Prop where
  facts : st.facts = F
  clauseDB : st.clauseDB = db
  sane : st.detectedUnsat = false
  trail : SameTrail u st.assignment
  watchers : st.assignment.watchers = u.watchers
  binaryWatchers : st.assignment.binaryWatchers = u.binaryWatchers
  flags : st.assignment.FlagInv
  edited : ∀ c, Edited {l | l ∈ F} (u.mem c) (st.mem c)
  marked : ∀ c, (st.mem c).lits = (u.mem c).lits ∧
      (st.mem c).scheduledForDeletion = (u.mem c).scheduledForDeletion ∨
    c ∈ db ∧ ∀ i : Fin 2, (u.mem c).lit i ∈ st.assignment.dirty
  occ : st.occMap.Inv db st.mem

inductive CleanStep : SharedOptimizerState → SharedOptimizerState → Prop
  | lookup (st : SharedOptimizerState) (value : CNFLit) :
    CleanStep st (st.withMem (st.occMap.lookup st.mem value))
  | delete {st : SharedOptimizerState} {c : ClauseRef} {fact : CNFLit} (hc : c ∈ st.clauseDB)
    (ha : (st.mem c).scheduledForDeletion = false) (hf : fact ∈ st.facts) (hl : fact ∈ (st.mem c).lits) :
    CleanStep st (deleteClause st c)
  | remove {st : SharedOptimizerState} {c : ClauseRef} {fact : CNFLit} (hc : c ∈ st.clauseDB)
    (ha : (st.mem c).scheduledForDeletion = false) (hf : fact ∈ st.facts) (hl : -fact ∈ (st.mem c).lits)
    (hw : ∀ i : Fin 2, (st.mem c).lit i ≠ -fact) : CleanStep st (removeLiteral fact st c)

variable {F : List CNFLit} {db : List ClauseRef} {u : Assignment} {st st' : SharedOptimizerState} {c : ClauseRef}

theorem Cleaning.edit (h : Cleaning F db u st) (hc : c ∈ db) {C : Clause} (he : Edited {l | l ∈ F} (st.mem c) C)
    (hm : st'.assignment = (st.assignment.writeClause c C).registerClauseModification c)
    (hf : st'.facts = st.facts) (hdb : st'.clauseDB = st.clauseDB) (hs : st'.detectedUnsat = st.detectedUnsat)
    (hocc : st'.occMap.Inv db st'.mem) : Cleaning F db u st' := by
  obtain ⟨D, V, hreg⟩ := registerClauseModification_eq (st.assignment.writeClause c C) c
  have hself : (st.assignment.writeClause c C).mem c = C := writeClause_mem_self _ _ _
  have hflags : (st.assignment.writeClause c C).FlagInv := flagInv_congr h.flags rfl rfl
  have hdirty : st'.assignment.dirty = insert (C.lit 1) (insert (C.lit 0) st.assignment.dirty) := by
    rw [hm, dirty_registerClauseModification hflags c, hself]; rfl
  have hmem : st'.mem = (st.assignment.writeClause c C).mem := by
    show st'.assignment.mem = _
    rw [hm, hreg]
  have hsame : SameTrail st.assignment st'.assignment := by
    rw [hm, hreg]; exact ⟨rfl, rfl, rfl, rfl, rfl, rfl⟩
  have hmem_self : st'.mem c = C := by rw [hmem, hself]
  have hmem_ne : ∀ d, d ≠ c → st'.mem d = st.mem d := fun d hd => by
    rw [hmem]; exact writeClause_mem_of_ne hd
  refine ⟨hf.trans h.facts, hdb.trans h.clauseDB, hs.trans h.sane, h.trail.trans hsame,
    ?_, ?_, ?_, fun d => ?_, fun d => ?_, hocc⟩
  · rw [hm, hreg]; exact h.watchers
  · rw [hm, hreg]; exact h.binaryWatchers
  · rw [hm]; exact flagInv_registerClauseModification hflags c
  · by_cases hd : d = c
    · rw [hd, hmem_self]; exact (h.edited c).trans he
    · rw [hmem_ne d hd]; exact h.edited d
  · have hsub : st.assignment.dirty ⊆ st'.assignment.dirty := by
      rw [hdirty]
      exact (Set.subset_insert _ _).trans (Set.subset_insert _ _)
    by_cases hd : d = c
    · rw [hd]
      refine .inr ⟨hc, fun i => ?_⟩
      rw [← ((h.edited c).trans he).lit i, hdirty]
      rcases eq_or_eq_one_sub 0 i with hi | hi
      · rw [hi]; exact .inr (.inl rfl)
      · rw [hi]; exact .inl rfl
    · rw [hmem_ne d hd]
      exact (h.marked d).imp_right fun hm => ⟨hm.1, fun i => hsub (hm.2 i)⟩

theorem Cleaning.lookup (h : Cleaning F db u st) (value : CNFLit) :
    Cleaning F db u (st.withMem (st.occMap.lookup st.mem value)) := by
  obtain ⟨hocc, hu, -⟩ := h.occ.lookup value
  have hsame := Memory.Same.of_unflagged hu
  have hd : (st.withMem (st.occMap.lookup st.mem value)).assignment.dirty = st.assignment.dirty := rfl
  refine ⟨h.facts, h.clauseDB, h.sane, h.trail.trans ⟨rfl, rfl, rfl, rfl, rfl, rfl⟩, h.watchers, h.binaryWatchers,
    flagInv_congr h.flags rfl rfl, fun c => ?_, fun c => ?_, hocc⟩
  · exact (h.edited c).trans (.of_same (hsame.lits c) (hsame.redundant c) (hsame.scheduledForDeletion c))
  · rw [hd]
    exact (h.marked c).imp_left fun hm => ⟨(hsame.lits c).trans hm.1, (hsame.scheduledForDeletion c).trans hm.2⟩

theorem deleteClause_mem (st : SharedOptimizerState) (c : ClauseRef) : (deleteClause st c).mem =
    Function.update st.mem c { st.mem c with scheduledForDeletion := true } := by
  obtain ⟨D, V, hreg⟩ := registerClauseModification_eq
    (st.assignment.writeClause c { st.mem c with scheduledForDeletion := true }) c
  show (Assignment.registerClauseModification _ c).mem = _
  rw [hreg]; rfl

theorem Cleaning.delete (h : Cleaning F db u st) (hc : c ∈ db) {fact : CNFLit} (hf : fact ∈ F)
    (hl : fact ∈ (st.mem c).lits) : Cleaning F db u (deleteClause st c) := by
  refine h.edit hc (Edited.delete hl hf) rfl rfl rfl rfl ?_
  have hocc : (deleteClause st c).occMap = st.occMap.remove (deleteClause st c).mem c := rfl
  rw [hocc, deleteClause_mem]
  refine h.occ.remove ?_ ?_ ?_ ?_
  · intro d; by_cases hd : d = c <;> simp [hd, OccContainer.elements]
  · intro d; by_cases hd : d = c <;> simp [hd, OccContainer.modified]
  · intro d hdd
    by_cases hd : d = c
    · exact .inl hd
    · rw [Function.update_of_ne hd] at hdd
      exact .inr hdd
  · intro d hdd
    by_cases hd : d = c
    · simp [hd, OccContainer.deleted]
    · rwa [Function.update_of_ne hd]

theorem removeLiteral_assignment {fact : CNFLit} {ys : List CNFLit} (h : Cleaning F db u st) (hc : c ∈ db)
    (hr : Removal {l | l ∈ F} (st.mem c) (-fact) ys) :
    (removeLiteral fact st c).assignment =
        (st.assignment.writeClause c { st.mem c with lits := ys, modified := true }).registerClauseModification c ∧
      (removeLiteral fact st c).occMap.Inv db (removeLiteral fact st c).mem ∧
      (removeLiteral fact st c).mem = Function.update st.mem c { st.mem c with lits := ys, modified := true } ∧
      (removeLiteral fact st c).unsatCertificate =
        st.unsatCertificate.write [.addATClause ys, .deleteClause (ys ++ [-fact])] := by
  have htake : (swapWithLastElement (st.mem c).lits (-fact)).take
      ((swapWithLastElement (st.mem c).lits (-fact)).length - 1) = ys := by
    rw [hr.swap]; simp
  set C : Clause := { st.mem c with lits := ys, modified := true }
  have hself : (st.assignment.writeClause c C).mem c = C := writeClause_mem_self _ _ _
  have hlost : -fact ∈ (st.mem c).lits := hr.perm.mem_iff.mp (List.mem_append_right _ (List.mem_singleton_self _))
  have hocc : OccurrenceMap.Inv db (st.assignment.writeClause c C).mem
      (st.occMap.setModified (st.assignment.writeClause c C).mem c [] [-fact]).1 ∧
      (st.occMap.setModified (st.assignment.writeClause c C).mem c [] [-fact]).2 =
        (st.assignment.writeClause c C).mem := by
    have hmod := OccurrenceMap.setModified_spec h.occ.entries (st.assignment.writeClause c C).mem c
      (List.nodup_nil (α := CNFLit)) [-fact]
    have heq := hmod.flagged ⟨-fact, (hmod.pending_iff c _).mpr (.inr ⟨rfl, List.mem_singleton_self _⟩)⟩
    have hi : OccurrenceMap.Inv db (st.occMap.setModified (st.assignment.writeClause c C).mem c [] [-fact]).2
        (st.occMap.setModified (st.assignment.writeClause c C).mem c [] [-fact]).1 := by
      refine (h.occ.setModified hc [] [-fact] List.nodup_nil (fun d hd => writeClause_mem_of_ne hd)
        (fun l => ?_) nofun
        (fun l hl => List.mem_singleton.mp hl ▸ hlost) (by rw [hself]; rfl) (by rw [hself]; rfl) nofun).1
      rw [hself]
      exact (hr.mem_iff l).trans (by simp [OccContainer.elements])
    rw [heq] at hi
    exact ⟨hi, heq⟩
  have hasg : (removeLiteral fact st c).assignment =
      (st.assignment.writeClause c C).registerClauseModification c := by
    unfold removeLiteral
    dsimp only
    rw [htake]
    exact congrArg
      (fun m => Assignment.registerClauseModification { st.assignment.writeClause c C with mem := m } c)
      hocc.2
  obtain ⟨D, V, hreg⟩ := registerClauseModification_eq (st.assignment.writeClause c C) c
  have hmem : (removeLiteral fact st c).mem = (st.assignment.writeClause c C).mem := by
    show (removeLiteral fact st c).assignment.mem = _
    rw [hasg, hreg]
  refine ⟨hasg, ?_, hmem, ?_⟩
  · rw [hmem]
    unfold removeLiteral
    dsimp only
    rw [htake]
    exact hocc.1
  · unfold removeLiteral
    dsimp only
    rw [htake, hr.swap]
    rfl

theorem Cleaning.remove (h : Cleaning F db u st) (hc : c ∈ db) {fact : CNFLit} {ys : List CNFLit}
    (hr : Removal {l | l ∈ F} (st.mem c) (-fact) ys) : Cleaning F db u (removeLiteral fact st c) := by
  obtain ⟨hasg, hocc, -, -⟩ := removeLiteral_assignment h hc hr
  exact h.edit hc hr.edited hasg rfl rfl rfl hocc

theorem Cleaning.exists_removal (h : Cleaning F db u st)
    (hwf : ∀ c ∈ db, (u.mem c).scheduledForDeletion = false → (u.mem c).WellFormed) (hc : c ∈ db)
    (ha : (st.mem c).scheduledForDeletion = false) {fact : CNFLit} (hf : fact ∈ F) (hl : -fact ∈ (st.mem c).lits)
    (hw : ∀ i : Fin 2, (st.mem c).lit i ≠ -fact) : ∃ ys, Removal {l | l ∈ F} (st.mem c) (-fact) ys := by
  have he := h.edited c
  have hn := (he.wellFormed (hwf c hc (he.alive ha))).nodup
  exact JamSAT.exists_removal hn hl hw (by rw [neg_neg]; exact hf) ha

theorem Cleaning.step (hwf : ∀ c ∈ db, (u.mem c).scheduledForDeletion = false → (u.mem c).WellFormed)
    (h : Cleaning F db u st) (hs : CleanStep st st') : Cleaning F db u st' := by
  cases hs with
  | lookup value => exact h.lookup value
  | delete hc ha hf hl => exact h.delete (h.clauseDB ▸ hc) (h.facts ▸ hf) hl
  | remove hc ha hf hl hw =>
    have hc := h.clauseDB ▸ hc
    obtain ⟨ys, hr⟩ := h.exists_removal hwf hc ha (h.facts ▸ hf) hl hw
    exact h.remove hc hr

theorem Cleaning.edited_step (hwf : ∀ c ∈ db, (u.mem c).scheduledForDeletion = false → (u.mem c).WellFormed)
    (h : Cleaning F db u st) (hs : CleanStep st st') (c : ClauseRef) :
    Edited {l | l ∈ F} (st.mem c) (st'.mem c) := by
  cases hs with
  | lookup value =>
    have hsame := Memory.Same.of_unflagged (h.occ.lookup value).2.1
    exact .of_same (hsame.lits c) (hsame.redundant c) (hsame.scheduledForDeletion c)
  | @delete d fact hc ha hf hl =>
    rw [deleteClause_mem]
    by_cases hd : c = d
    · rw [hd, Function.update_self]
      exact .delete hl (show fact ∈ F from h.facts ▸ hf)
    · rw [Function.update_of_ne hd]
      exact .refl _
  | @remove d fact hc ha hf hl hw =>
    obtain ⟨ys, hr⟩ := h.exists_removal hwf (h.clauseDB ▸ hc) ha (h.facts ▸ hf) hl hw
    rw [(removeLiteral_assignment h (h.clauseDB ▸ hc) hr).2.2.1]
    by_cases hd : c = d
    · rw [hd, Function.update_self]
      exact hr.edited
    · rw [Function.update_of_ne hd]
      exact .refl _

/-! ## The loops -/

def Absent (st : SharedOptimizerState) (l : CNFLit) : Prop :=
  ∀ c ∈ st.clauseDB, (st.mem c).scheduledForDeletion = false → l ∉ (st.mem c).lits

structure Progress (F : List CNFLit) (db : List ClauseRef) (u : Assignment) (A : Set CNFLit)
    (st st' : SharedOptimizerState) : Prop where
  steps : Relation.ReflTransGen CleanStep st st'
  cleaning : Cleaning F db u st'
  absent : ∀ l ∈ A, Absent st' l

section
variable (hwf : ∀ c ∈ db, (u.mem c).scheduledForDeletion = false → (u.mem c).WellFormed)
include hwf

theorem Progress.step {A : Set CNFLit} {st'' : SharedOptimizerState} (h : Progress F db u A st st')
    (hs : CleanStep st' st'') : Progress F db u A st st'' := by
  refine ⟨h.steps.tail hs, h.cleaning.step hwf hs, fun l hl c hc ha hm => ?_⟩
  have he := h.cleaning.edited_step hwf hs c
  have hdb : st''.clauseDB = st'.clauseDB :=
    (h.cleaning.step hwf hs).clauseDB.trans h.cleaning.clauseDB.symm
  exact h.absent l hl c (hdb ▸ hc) (he.alive ha) (he.subperm.subset hm)

structure Handles (value : CNFLit) (st : SharedOptimizerState) (c : ClauseRef)
    (st' : SharedOptimizerState) : Prop where
  step : CleanStep st st'
  frame : ∀ d, d ≠ c → st'.mem d = st.mem d
  gone : (st'.mem c).scheduledForDeletion = false → value ∉ (st'.mem c).lits

variable {A : Set CNFLit} {value : CNFLit} {body : SharedOptimizerState → ClauseRef → SharedOptimizerState}

theorem Progress.foldl_body
    (hbody : ∀ st c, Cleaning F db u st → (∀ l ∈ A, Absent st l) → c ∈ db →
      (st.mem c).scheduledForDeletion = false → value ∈ (st.mem c).lits → Handles value st c (body st c)) :
    ∀ (cs : List ClauseRef) (st' : SharedOptimizerState), Progress F db u A st st' → cs.Nodup →
      (∀ c ∈ cs, c ∈ db ∧ (st'.mem c).scheduledForDeletion = false ∧ value ∈ (st'.mem c).lits) →
      (∀ c ∈ db, (st'.mem c).scheduledForDeletion = false → value ∈ (st'.mem c).lits → c ∈ cs) →
      Progress F db u (insert value A) st (cs.foldl body st') := by
  intro cs
  induction cs with
  | nil =>
    intro st' h _ _ hall
    refine ⟨h.steps, h.cleaning, fun l hl c hc ha hm => ?_⟩
    rcases hl with rfl | hl
    · exact absurd (hall c (h.cleaning.clauseDB ▸ hc) ha hm) List.not_mem_nil
    · exact h.absent l hl c hc ha hm
  | cons c cs ih =>
    intro st' h hn hcs hall
    obtain ⟨hcn, hn⟩ := List.nodup_cons.mp hn
    obtain ⟨⟨hc, ha, hv⟩, hcs⟩ := List.forall_mem_cons.mp hcs
    obtain ⟨hstep, hframe, hgone⟩ := hbody st' c h.cleaning h.absent hc ha hv
    refine ih _ (h.step hwf hstep) hn (fun d hd => ?_) fun d hd had hvd => ?_
    · rw [hframe d fun he => hcn (he ▸ hd)]
      exact hcs d hd
    · by_cases hdc : d = c
      · subst hdc
        exact absurd hvd (hgone had)
      · rw [hframe d hdc] at had hvd
        exact (List.mem_cons.mp (hall d hd had hvd)).resolve_left hdc

theorem Progress.forOccurrences
    (hbody : ∀ st c, Cleaning F db u st → (∀ l ∈ A, Absent st l) → c ∈ db →
      (st.mem c).scheduledForDeletion = false → value ∈ (st.mem c).lits → Handles value st c (body st c))
    (h : Progress F db u A st st') : Progress F db u (insert value A) st (forOccurrences body st' value) := by
  have hlook := h.step hwf (.lookup st' value)
  obtain ⟨hocc, hu, hexact⟩ := h.cleaning.occ.lookup value
  have hsame := Memory.Same.of_unflagged hu
  refine Progress.foldl_body hwf hbody _ _ hlook (hocc.nodup value) (fun c hc => ?_) fun c hc ha hv => ?_
  · obtain ⟨ha, hv⟩ := hexact c hc
    refine ⟨hocc.sound value c hc, (hsame.scheduledForDeletion c).trans ha, ?_⟩
    show value ∈ ((st'.occMap.lookup st'.mem value).2 c).lits
    rw [hsame.lits c]
    exact hv
  · exact hocc.complete c hc ha value hv

theorem Progress.foldl_facts {A' : Set CNFLit}
    {b : CNFLit → SharedOptimizerState → ClauseRef → SharedOptimizerState} {v : CNFLit → CNFLit}
    (hb : ∀ fact ∈ F, ∀ st c, Cleaning F db u st → (∀ l ∈ A, Absent st l) → c ∈ db →
      (st.mem c).scheduledForDeletion = false → v fact ∈ (st.mem c).lits →
      Handles (v fact) st c (b fact st c)) :
    ∀ (facts : List CNFLit) (st' : SharedOptimizerState), facts ⊆ F → A ⊆ A' → Progress F db u A' st st' →
      Progress F db u (A' ∪ {l | ∃ fact ∈ facts, l = v fact}) st
        (facts.foldl (fun st fact => FactCleaner.forOccurrences (b fact) st (v fact)) st') := by
  intro facts
  induction facts generalizing A' with
  | nil =>
    intro st' _ _ h
    refine ⟨h.steps, h.cleaning, fun l hl => ?_⟩
    rcases hl with hl | ⟨fact, hf, -⟩
    · exact h.absent l hl
    · exact absurd hf List.not_mem_nil
  | cons fact facts ih =>
    intro st' hsub hA h
    obtain ⟨hf, hsub⟩ := List.cons_subset.mp hsub
    have h₁ : Progress F db u (insert (v fact) A') st
        (FactCleaner.forOccurrences (b fact) st' (v fact)) :=
      h.forOccurrences hwf fun st c hcl hab => hb fact hf st c hcl fun l hl => hab l (hA hl)
    have h₂ := ih _ hsub (hA.trans (Set.subset_insert _ _)) h₁
    refine ⟨h₂.steps, h₂.cleaning, fun l hl => h₂.absent l ?_⟩
    rcases hl with hl | ⟨x, hx, rfl⟩
    · exact .inl (.inr hl)
    · rcases List.mem_cons.mp hx with rfl | hx
      · exact .inl (.inl rfl)
      · exact .inr ⟨x, hx, rfl⟩

def Watched (F : List CNFLit) (db : List ClauseRef) (u : Assignment) : Prop :=
  ∀ c ∈ db, (u.mem c).scheduledForDeletion = false →
    (∃ x ∈ (u.mem c).lits, x ∈ F) ∨ ∀ i : Fin 2, -(u.mem c).lit i ∉ F

omit hwf in
theorem handles_deleteClause {fact : CNFLit} (hcl : Cleaning F db u st) (hc : c ∈ db)
    (ha : (st.mem c).scheduledForDeletion = false) (hf : fact ∈ F) (hl : fact ∈ (st.mem c).lits) :
    Handles fact st c (deleteClause st c) := by
  refine ⟨.delete (hcl.clauseDB ▸ hc) ha (hcl.facts ▸ hf) hl, fun d hd => ?_, fun hd => ?_⟩
  · rw [deleteClause_mem, Function.update_of_ne hd]
  · rw [deleteClause_mem, Function.update_self] at hd
    exact absurd hd Bool.noConfusion

/-- A clause of size 2 is never met by the second loop. -/
theorem handles_strengthen (hw : Watched F db u) (hF : ∀ x ∈ F, -x ∉ F) {fact : CNFLit} (hcl : Cleaning F db u st)
    (hab : ∀ l ∈ F, Absent st l) (hc : c ∈ db) (ha : (st.mem c).scheduledForDeletion = false) (hf : fact ∈ F)
    (hl : -fact ∈ (st.mem c).lits) : Handles (-fact) st c (strengthen fact st c) := by
  have he := hcl.edited c
  have hwatch : ∀ i : Fin 2, (st.mem c).lit i ≠ -fact := by
    rcases hw c hc (he.alive ha) with ⟨x, hx, hxF⟩ | hw
    · exfalso
      rcases he.removed x hx with hx | hx
      · exact hab x hxF c (hcl.clauseDB ▸ hc) ha hx
      · exact hF x hxF hx
    · intro i hi
      rw [he.lit i] at hi
      have hneg := hw i
      rw [hi, neg_neg] at hneg
      exact hneg hf
  have hsize : (st.mem c).size ≠ 2 := by
    obtain ⟨j, hj, hjl⟩ := Clause.exists_lit_of_mem hl
    intro h2
    exact hwatch ⟨j, by omega⟩ hjl
  have hdef : strengthen fact st c = removeLiteral fact st c := by
    rw [strengthen, if_neg (by simp [ha]), if_neg hsize]
  obtain ⟨ys, hr⟩ := hcl.exists_removal hwf hc ha hf hl hwatch
  rw [hdef]
  refine ⟨.remove (hcl.clauseDB ▸ hc) ha (hcl.facts ▸ hf) hl hwatch, fun d hd => ?_, fun _ => ?_⟩
  · rw [(removeLiteral_assignment hcl hc hr).2.2.1, Function.update_of_ne hd]
  · rw [(removeLiteral_assignment hcl hc hr).2.2.1, Function.update_self]
    exact fun hm => ((hr.mem_iff _).mp hm).2 rfl

theorem progress_strengthenAll (hw : Watched F db u) (hF : ∀ x ∈ F, -x ∉ F) (h : Cleaning F db u st) :
    Progress F db u {l | l ∈ F ∨ -l ∈ F} st (strengthenAll (deleteSatisfied st)) := by
  have h₀ : Progress F db u ∅ st st := ⟨.refl, h, fun l hl => absurd hl (Set.notMem_empty l)⟩
  have h₁ : Progress F db u (∅ ∪ {l | ∃ fact ∈ F, l = fact}) st (deleteSatisfied st) := by
    unfold deleteSatisfied
    rw [h.facts]
    refine h₀.foldl_facts (b := fun _ => deleteClause) (v := fun fact => fact) hwf ?_ F st
      (List.Subset.refl F) (Set.Subset.refl ∅)
    intro fact hf st c hcl _ hc ha hl
    exact handles_deleteClause hcl hc ha hf hl
  have h₂ : Progress F db u ((∅ ∪ {l | ∃ fact ∈ F, l = fact}) ∪ {l | ∃ fact ∈ F, l = -fact}) st
      (strengthenAll (deleteSatisfied st)) := by
    unfold strengthenAll
    rw [h₁.cleaning.facts]
    refine h₁.foldl_facts (b := strengthen) (v := fun fact => -fact) hwf ?_ F _ (List.Subset.refl F)
      (Set.Subset.refl _)
    intro fact hf st c hcl hab hc ha hl
    exact handles_strengthen hwf hw hF hcl (fun l hl => hab l (.inr ⟨l, hl, rfl⟩)) hc ha hf hl
  refine ⟨h₂.steps, h₂.cleaning, fun l hl => h₂.absent l ?_⟩
  rcases hl with hl | hl
  · exact .inl (.inr ⟨l, hl, rfl⟩)
  · exact .inr ⟨-l, hl, (neg_neg l).symm⟩

end

end FactCleaner

/-! ## The watch lists of the edited clauses -/

namespace FactCleaner

variable {R K Z : Set ClauseRef} {dead : Set CNFLit} {F : List CNFLit} {db : List ClauseRef} {u : Assignment}
  {st : SharedOptimizerState} (h : Cleaning F db u st)
include h

/-- A clause with a watcher in a list that no cleanup goes through is as it was. -/
theorem Cleaning.untouched {c : ClauseRef} (i : Fin 2) (hi : (u.mem c).lit i ∉ st.assignment.dirty) :
    (st.mem c).lits = (u.mem c).lits ∧ (st.mem c).scheduledForDeletion = (u.mem c).scheduledForDeletion :=
  (h.marked c).resolve_right fun hm => hi (hm.2 i)

theorem Cleaning.watchInv (hu : WatchInv R K Z ∅ u) :
    WatchInv R {c | c ∈ K ∧ (st.mem c).scheduledForDeletion = false} Z st.assignment.dirty st.assignment := by
  have hlists : st.assignment.lists = u.lists := by
    funext p
    simp only [Assignment.lists, h.watchers, h.binaryWatchers]
  have hbin : ∀ l, ∀ w ∈ u.binaryWatchers l, (st.mem w.clause).lits.Perm [l, w.otherWatchedLiteral] := by
    intro l w hw
    have he := h.edited w.clause
    have hsize := he.two_le (hu.binary_size hw).ge
    exact (he.subperm.perm_of_length_le ((hu.binary_size hw).trans_le hsize)).trans (hu.binary l w hw)
  have hindex : ∀ l, ∀ w ∈ u.binaryWatchers l, ∃ i : Fin 2, (u.mem w.clause).lit i = l := by
    intro l w hw
    have hl : l ∈ (u.mem w.clause).lits := (hu.binary l w hw).mem_iff.mpr List.mem_cons_self
    obtain ⟨i, hi, hil⟩ := Clause.exists_lit_of_mem hl
    have h2 := hu.binary_size hw
    exact ⟨⟨i, by omega⟩, hil⟩
  refine ⟨?_, fun c hc => (h.edited c).two_le (hu.two_le c hc), ?_, ?_, ?_, ?_, ?_⟩
  · rw [hlists]
    exact hu.placed.mono (fun _ hk => hk) fun _ hk => hk.1
  · rw [h.watchers]
    intro l w hw hn
    obtain ⟨ha, hs, hl⟩ := hu.settled hw
    obtain ⟨h₁, h₂⟩ := h.untouched w.index (by rw [hl]; exact hn)
    refine ⟨fun hd => ha (h₂ ▸ hd), ?_, ((h.edited w.clause).lit w.index).trans hl⟩
    show 2 < (st.mem w.clause).lits.length
    rw [h₁]
    exact hs
  · rw [h.binaryWatchers]
    exact hbin
  · rw [h.binaryWatchers]
    intro l w hw hn hd
    obtain ⟨i, hi⟩ := hindex l w hw
    obtain ⟨-, h₂⟩ := h.untouched i (by rw [hi]; exact hn)
    exact hu.binary_alive l w hw (Set.notMem_empty l) (h₂ ▸ hd)
  · rw [h.binaryWatchers]
    exact hu.pair
  · rw [h.watchers, h.binaryWatchers]
    exact fun l m w hw w' hw' he => absurd he (hu.unmixed l m w hw w' hw')

/-- After the cleaning the removed literals may be left as blockers. -/
theorem Cleaning.idle (hu : Idle R K Z dead u) (hd : u.dirty = ∅) (hdead : ∀ l ∈ dead, -l ∈ F) :
    Idle R {c | c ∈ K ∧ (st.mem c).scheduledForDeletion = false} Z {l | -l ∈ F} st.assignment where
  trail := h.trail.trailInv hu.trail
  nil := h.trail.trail.trans hu.nil
  watch := h.watchInv (hd ▸ hu.watch)
  flags := h.flags
  wf c hc := (h.edited c).wellFormed (hu.wf c hc)
  vars c hc l hl := by
    rw [h.trail.size]
    exact hu.vars c hc l ((h.edited c).subperm.subset hl)
  sync l w hw _ := by
    rw [h.watchers] at hw
    obtain ⟨hb, hr⟩ := hu.sync l w hw ((hd ▸ hu.watch : WatchInv R K Z ∅ u).settled hw)
    have he := h.edited w.clause
    refine ⟨?_, hr.trans he.redundant.symm⟩
    rcases hb with hb | hb
    · exact he.removed _ hb
    · exact .inr (hdead _ hb)
  alive _ _ hc := hc.2

end FactCleaner

/-! ## The facts and their consequences -/

namespace FactCleaner

variable {R K Z : Set ClauseRef} {dead : Set CNFLit} {facts F : List CNFLit} {s t v : Assignment}

/-- In `v` the facts have been propagated; `F` is its trail. -/
structure Closed (R K Z : Set ClauseRef) (dead : Set CNFLit) (facts : List CNFLit) (s v : Assignment)
    (F : List CNFLit) : Prop where
  steady : Steady R K Z dead v
  grown : Grown facts s.undoAll v
  trail : v.trail = F
  subset : facts ⊆ F

structure Refuted (R K Z : Set ClauseRef) (dead : Set CNFLit) (facts : List CNFLit) (s t : Assignment) : Prop where
  idle : Idle R K Z dead t.undoAll
  clean : t.undoAll.dirty = ∅
  grown : Grown facts s.undoAll t
  conflict : Conflict (units {l | l ∈ facts} ∪ clauseSets s.mem R) ∅

theorem withConsequences_spec (h : Idle R K Z dead s) (hv : ∀ l ∈ facts, l.var < s.size) :
    (∃ t, withConsequences s facts = (none, t.undoAll) ∧ Refuted R K Z dead facts s t) ∨
    ∃ v F, withConsequences s facts = (some F, v.undoAll) ∧ Closed R K Z dead facts s v F := by
  have hend : FactsEnd R K Z dead facts s.undoAll (s.undoAll.appendFacts facts) :=
    (Steady.idle h.undoAll).appendFacts (by simpa using hv)
  unfold withConsequences
  generalize s.undoAll.appendFacts facts = r at hend
  obtain ⟨_ | fact, t⟩ := r
  · obtain ⟨hs, hg, hm⟩ := hend
    exact .inr ⟨t, t.trail, rfl, hs, hg, rfl, hm⟩
  · obtain ⟨hstop, hg, hf⟩ := hend
    have hconf := hstop.conflict (by simp) hg hf hg.grows.currentLevel
    have hcs : clauseSets t.mem R = clauseSets s.mem R := clauseSets_congr fun c => by simpa using hg.grows.lits c
    rw [hcs] at hconf
    exact .inl ⟨t, rfl, hstop.undoAll, (undoAll_dirty t).trans hstop.clean, hg, hconf⟩

namespace Closed

variable (h : Closed R K Z dead facts s v F)
include h

theorem trailInv : v.TrailInv := h.steady.trailInv

theorem level_zero : v.currentLevel = 0 := h.grown.grows.currentLevel

theorem consistent : ∀ l ∈ F, -l ∉ F := by
  intro l hl
  rw [← h.trail] at hl ⊢
  exact h.trailInv.neg_not_mem hl

theorem lt_size : ∀ l ∈ F, l.var < s.size := by
  intro l hl
  have hlt := h.trailInv.lt_size l (h.trail ▸ hl)
  rw [h.grown.grows.size] at hlt
  simpa using hlt

theorem lits (c : ClauseRef) : (v.mem c).lits.Perm (s.mem c).lits := by simpa using h.grown.grows.lits c

theorem scheduledForDeletion (c : ClauseRef) : (v.mem c).scheduledForDeletion = (s.mem c).scheduledForDeletion := by
  simpa using h.grown.grows.scheduledForDeletion c

theorem derives : ∀ l ∈ F, Derives (units {l | l ∈ facts} ∪ clauseSets s.mem R) ∅ l := by
  have hd := h.steady.derives_root (by simp) h.grown h.level_zero
  rwa [h.trail, clauseSets_congr h.lits] at hd

theorem watched {db : List ClauseRef} (hK : ∀ c ∈ db, (s.mem c).scheduledForDeletion = false → c ∈ K)
    (hdead : ∀ l ∈ dead, -l ∈ facts) : Watched F db v := by
  intro c hc ha
  rw [h.scheduledForDeletion] at ha
  cases h.steady with
  | idle hi =>
    right
    intro i
    rw [← h.trail, hi.nil]
    exact List.not_mem_nil
  | ready hr =>
    by_cases hw : ∀ i : Fin 2, -(v.mem c).lit i ∉ F
    · exact .inr hw
    · left
      obtain ⟨i, hi⟩ := not_forall.mp hw
      have hi : -(v.mem c).lit i ∈ v.trail.take v.trail.length := by
        rw [List.take_length, h.trail]
        exact not_not.mp hi
      have hdt : ∀ x ∈ dead, v.getAssignment x ≠ .TRUE := by
        intro x hx hxt
        have hn := h.subset (hdead x hx)
        rw [← h.trail] at hn
        exact h.trailInv.neg_not_mem ((h.trailInv.mem_trail x).mpr hxt) hn
      obtain ⟨x, hx, hxt⟩ :=
        hr.prop.exists_true hr.core hdt (hK c hc ha) (fun he => absurd he Bool.false_ne_true) i hi
      exact ⟨x, hx, h.trail ▸ (h.trailInv.mem_trail x).mpr hxt⟩

end Closed

end FactCleaner

/-! ## What `optimize` returns -/

namespace SharedOptimizerState

def formula (st : SharedOptimizerState) : Set (Finset CNFLit) := formulaOf st.facts st.mem st.clauseDB

/-- Nothing is assigned and the clauses that are left are registered. The deleted
ones that are registered are implied, and the literals of `dead` are false facts. -/
structure Registered (R K Z : Set ClauseRef) (dead : Set CNFLit) (st : SharedOptimizerState) : Prop where
  idle : Idle R K Z dead st.assignment
  nodup : st.clauseDB.Nodup
  kept : ∀ c ∈ st.clauseDB, (st.mem c).scheduledForDeletion = false → c ∈ K
  known : ∀ c ∈ R, c ∈ st.clauseDB
  implied : ∀ c ∈ R, Entails st.formula (st.mem c).litSet
  dead : ∀ l ∈ dead, -l ∈ st.facts
  lt_size : ∀ l ∈ st.facts, l.var < st.assignment.size

theorem Registered.wellFormed {R K Z : Set ClauseRef} {dead : Set CNFLit} {st : SharedOptimizerState}
    (h : st.Registered R K Z dead) {c : ClauseRef} (hc : c ∈ st.clauseDB)
    (ha : (st.mem c).scheduledForDeletion = false) : (st.mem c).WellFormed :=
  h.idle.wf c (h.idle.watch.kept_subset (h.kept c hc ha))

def cleaningStart (st : SharedOptimizerState) (F : List CNFLit) (v : Assignment) : SharedOptimizerState :=
  { st.precomputeOccurrenceMap with facts := F, assignment := v.undoAll }

end SharedOptimizerState

namespace FactCleaner

variable {R K Z : Set ClauseRef} {dead : Set CNFLit} {F : List CNFLit} {v : Assignment}
  {st st' : SharedOptimizerState}

structure Cleaned (R K Z : Set ClauseRef) (dead : Set CNFLit) (st : SharedOptimizerState) (F : List CNFLit)
    (v : Assignment) (st' : SharedOptimizerState) : Prop where
  closed : Closed R K Z dead st.facts st.assignment v F
  progress : Progress F st.clauseDB v.undoAll {l | l ∈ F ∨ -l ∈ F} (st.cleaningStart F v) st'
  idle : ∃ K' dead', Idle R K' Z dead' st'.assignment ∧ (∀ l ∈ dead', -l ∈ F) ∧
    ∀ c ∈ K, (st'.mem c).scheduledForDeletion = false → c ∈ K'

theorem cleaning_start (h : st.Registered R K Z dead) (hs : st.detectedUnsat = false)
    (hc : Closed R K Z dead st.facts st.assignment v F) :
    (∀ c ∈ st.clauseDB, (v.undoAll.mem c).scheduledForDeletion = false → (v.undoAll.mem c).WellFormed) ∧
      Cleaning F st.clauseDB v.undoAll (st.cleaningStart F v) := by
  have hidle : Idle R K Z dead v.undoAll := hc.steady.undoAll
  have hlits : ∀ c, (v.undoAll.mem c).lits.Perm (st.mem c).lits := fun c => by
    rw [undoAll_mem]
    exact hc.lits c
  have hdel : ∀ c, (v.undoAll.mem c).scheduledForDeletion = (st.mem c).scheduledForDeletion := fun c => by
    rw [undoAll_mem]
    exact hc.scheduledForDeletion c
  have hocc : (st.cleaningStart F v).occMap.Inv st.clauseDB (st.cleaningStart F v).mem := by
    refine (OccurrenceMap.inv_ofClauses h.nodup fun c hcd ha => (h.wellFormed hcd ha).nodup).congr
      (fun c l => (hlits c).mem_iff) hdel fun c => ?_
    have hm := hc.grown.grows.modified c
    rw [undoAll_mem] at hm
    show (v.undoAll.mem c).modified = _
    rw [undoAll_mem]
    exact hm
  refine ⟨fun c hcd ha => (h.wellFormed hcd (hdel c ▸ ha)).of_perm (hlits c), ?_⟩
  exact ⟨rfl, rfl, hs, ⟨rfl, rfl, rfl, rfl, rfl, rfl⟩, rfl, rfl, hidle.flags, fun c => .refl _,
    fun c => .inl ⟨rfl, rfl⟩,
    hocc⟩

theorem cleaned_of_closed (h : st.Registered R K Z dead) (hs : st.detectedUnsat = false)
    (hc : Closed R K Z dead st.facts st.assignment v F) :
    Cleaned R K Z dead st F v (strengthenAll (deleteSatisfied (st.cleaningStart F v))) := by
  have hidle : Idle R K Z dead v.undoAll := hc.steady.undoAll
  obtain ⟨hwf, hcl⟩ := cleaning_start h hs hc
  have hw : Watched F st.clauseDB v.undoAll := by
    have hw := hc.watched h.kept h.dead
    simpa only [Watched, undoAll_mem] using hw
  have hp := progress_strengthenAll hwf hw hc.consistent hcl
  refine ⟨hc, hp, ?_⟩
  have hdead : ∀ l ∈ dead, -l ∈ F := fun l hl => hc.subset (h.dead l hl)
  cases hc.steady with
  | ready hr =>
    have hd : v.undoAll.dirty = ∅ := (dirty_congr (s := v) (by simp)).trans hr.clean
    exact ⟨_, _, hp.cleaning.idle hidle hd hdead, fun l hl => hl, fun c hc ha => ⟨hc, ha⟩⟩
  | idle hi =>
    -- without facts there is nothing to clean
    have hF : F = [] := hc.trail.symm.trans hi.nil
    subst hF
    exact ⟨K, dead, hidle, hdead, fun c hc _ => hc⟩

theorem optimize_cases (h : st.Registered R K Z dead) (fc : FactCleaner) (unitLemmas : Nat) :
    ((st.detectedUnsat = true ∨ st.facts.length = fc.factsAfterLastCall) ∧ (fc.optimize st unitLemmas).2 = st) ∨
    (∃ t, (fc.optimize st unitLemmas).2 =
        { st.precomputeOccurrenceMap with assignment := t.undoAll, detectedUnsat := true } ∧
      Refuted R K Z dead st.facts st.assignment t) ∨
    ∃ F v, st.detectedUnsat = false ∧ Cleaned R K Z dead st F v (fc.optimize st unitLemmas).2 := by
  unfold optimize
  split
  · rename_i hs
    exact .inl ⟨.inl hs, rfl⟩
  · rename_i hs
    dsimp only
    split
    · rename_i hl
      exact .inl ⟨.inr hl, rfl⟩
    · right
      rcases withConsequences_spec h.idle h.lt_size with ⟨t, he, ht⟩ | ⟨v, F, he, hc⟩
      · left
        have he : withConsequences st.precomputeOccurrenceMap.assignment st.precomputeOccurrenceMap.facts =
          (none, t.undoAll) := he
        rw [he]
        exact ⟨t, rfl, ht⟩
      · right
        have hs := Bool.eq_false_of_not_eq_true hs
        have he : withConsequences st.precomputeOccurrenceMap.assignment st.precomputeOccurrenceMap.facts =
          (some F, v.undoAll) := he
        rw [he]
        exact ⟨F, v, hs, cleaned_of_closed h hs hc⟩

theorem optimize_factsAfterLastCall (h : st.Registered R K Z dead) (fc : FactCleaner) (unitLemmas : Nat)
    (hu : (fc.optimize st unitLemmas).2.detectedUnsat = false) :
    (fc.optimize st unitLemmas).1.factsAfterLastCall = fc.factsAfterLastCall ∧ (fc.optimize st unitLemmas).2 = st ∨
    st.facts.length ≠ fc.factsAfterLastCall ∧
      (fc.optimize st unitLemmas).1.factsAfterLastCall = (fc.optimize st unitLemmas).2.facts.length := by
  unfold optimize at hu ⊢
  split at hu
  · rename_i hs
    rw [if_pos hs]
    exact .inl ⟨rfl, rfl⟩
  · rename_i hs
    rw [if_neg hs]
    dsimp only at hu ⊢
    split at hu
    · rename_i hl
      rw [if_pos hl]
      exact .inl ⟨rfl, rfl⟩
    · rename_i hl
      rw [if_neg hl]
      rcases withConsequences_spec h.idle h.lt_size with ⟨t, he, -⟩ | ⟨v, F, he, hc⟩
      · have he : withConsequences st.precomputeOccurrenceMap.assignment st.precomputeOccurrenceMap.facts =
          (none, t.undoAll) := he
        rw [he] at hu
        cases hu
      · have he : withConsequences st.precomputeOccurrenceMap.assignment st.precomputeOccurrenceMap.facts =
          (some F, v.undoAll) := he
        rw [he]
        have hf := (cleaned_of_closed h (Bool.eq_false_of_not_eq_true hs) hc).progress.cleaning.facts
        exact .inr ⟨hl, (congrArg List.length hf).symm⟩

/-! ## Models -/

namespace Cleaned

variable (h : Cleaned R K Z dead st F v st')
include h

theorem facts_eq : st'.facts = F := h.progress.cleaning.facts

theorem clauseDB_eq : st'.clauseDB = st.clauseDB := h.progress.cleaning.clauseDB

theorem edited (c : ClauseRef) : Edited {l | l ∈ F} (v.mem c) (st'.mem c) := by
  have he := h.progress.cleaning.edited c
  rwa [undoAll_mem] at he

theorem lits_subset {c : ClauseRef} {x : CNFLit} (hx : x ∈ (st'.mem c).lits) : x ∈ (st.mem c).lits :=
  (h.closed.lits c).mem_iff.mp ((h.edited c).subperm.subset hx)

theorem removed {c : ClauseRef} {x : CNFLit} (hx : x ∈ (st.mem c).lits) : x ∈ (st'.mem c).lits ∨ -x ∈ F :=
  (h.edited c).removed x ((h.closed.lits c).mem_iff.mpr hx)

theorem alive {c : ClauseRef} (ha : (st'.mem c).scheduledForDeletion = false) :
    (st.mem c).scheduledForDeletion = false :=
  (h.closed.scheduledForDeletion c).symm.trans ((h.edited c).alive ha)

theorem deleted {c : ClauseRef} (hd : (st'.mem c).scheduledForDeletion = true) :
    (st.mem c).scheduledForDeletion = true ∨ ∃ x ∈ (st'.mem c).lits, x ∈ F :=
  ((h.edited c).deleted hd).imp_left fun hd => (h.closed.scheduledForDeletion c).symm.trans hd

theorem kept {c : ClauseRef} (hd : (st.mem c).scheduledForDeletion = true) :
    (st'.mem c).scheduledForDeletion = true ∧ ∀ x, x ∈ (st'.mem c).lits ↔ x ∈ (st.mem c).lits := by
  obtain ⟨hl, hd⟩ := (h.edited c).kept ((h.closed.scheduledForDeletion c).trans hd)
  refine ⟨hd, fun x => ?_⟩
  rw [hl]
  exact (h.closed.lits c).mem_iff

theorem redundant (c : ClauseRef) : (st'.mem c).redundant = (st.mem c).redundant := by
  have hg := h.closed.grown.grows.redundant c
  rw [undoAll_mem] at hg
  exact (h.edited c).redundant.trans hg

theorem var_ne {c : ClauseRef} (hc : c ∈ st'.clauseDB)
    (ha : (st'.mem c).scheduledForDeletion = false) {f x : CNFLit}
    (hf : f ∈ F) (hx : x ∈ (st'.mem c).lits) : x.var ≠ f.var := by
  intro hv
  rcases CNFLit.eq_or_eq_neg_of_var_eq hv with rfl | rfl
  · exact h.progress.absent x (.inl hf) c hc ha hx
  · exact h.progress.absent (-f) (.inr (by rw [neg_neg]; exact hf)) c hc ha hx

variable (hst : st.Registered R K Z dead)
include hst

theorem holds {σ : Valuation CNFLit} (hσ : σ.Models st.formula) : ∀ l ∈ F, σ.holds l := by
  intro l hl
  refine (h.closed.derives l hl).holds (models_union.mpr ⟨(models_union.mp hσ).1, ?_⟩) fun _ ha => ha.elim
  rintro _ ⟨c, hc, rfl⟩
  exact hst.implied c hc σ hσ

theorem models_iff (σ : Valuation CNFLit) : σ.Models st'.formula ↔ σ.Models st.formula := by
  constructor
  · intro hσ
    obtain ⟨hF, hD⟩ := models_union.mp hσ
    rw [h.facts_eq, models_units] at hF
    refine models_union.mpr ⟨models_units.mpr fun l hl => hF l (h.closed.subset hl), ?_⟩
    rintro _ ⟨c, ⟨hc, ha⟩, rfl⟩
    by_cases hd : (st'.mem c).scheduledForDeletion = true
    · obtain hd | ⟨x, hx, hxF⟩ := h.deleted hd
      · exact absurd (ha.symm.trans hd) Bool.false_ne_true
      · exact ⟨x, Clause.mem_litSet.mpr (h.lits_subset hx), hF x hxF⟩
    · obtain ⟨x, hx, hσx⟩ := hD _ (mem_clauseSets ⟨h.clauseDB_eq ▸ hc, Bool.eq_false_of_not_eq_true hd⟩)
      exact ⟨x, Clause.mem_litSet.mpr (h.lits_subset (Clause.mem_litSet.mp hx)), hσx⟩
  · intro hσ
    have hF := h.holds hst hσ
    refine models_union.mpr ⟨by rw [h.facts_eq]; exact models_units.mpr hF, ?_⟩
    rintro _ ⟨c, ⟨hc, ha⟩, rfl⟩
    obtain ⟨x, hx, hσx⟩ := (models_union.mp hσ).2 _ (mem_clauseSets ⟨h.clauseDB_eq ▸ hc, h.alive ha⟩)
    rcases h.removed (Clause.mem_litSet.mp hx) with hx | hx
    · exact ⟨x, Clause.mem_litSet.mpr hx, hσx⟩
    · exact absurd hσx ((σ.holds_neg x).mp (hF _ hx))

theorem two_le_size {c : ClauseRef} (hc : c ∈ st'.clauseDB) (ha : (st'.mem c).scheduledForDeletion = false) :
    2 ≤ (st'.mem c).size := by
  have hwf := hst.wellFormed (h.clauseDB_eq ▸ hc) (h.alive ha)
  exact (h.edited c).two_le (hwf.of_perm (h.closed.lits c)).two_le_size

theorem registered : ∃ K' dead', st'.Registered R K' Z dead' := by
  obtain ⟨K', dead', hidle, hdead, hK⟩ := h.idle
  refine ⟨K', dead', hidle, h.clauseDB_eq ▸ hst.nodup, fun c hc ha => ?_, h.clauseDB_eq ▸ hst.known,
    fun c hc => ?_, ?_, ?_⟩
  · exact hK c (hst.kept c (h.clauseDB_eq ▸ hc) (h.alive ha)) ha
  · intro σ hσ
    have hσ' := (h.models_iff hst σ).mp hσ
    obtain ⟨x, hx, hσx⟩ := hst.implied c hc σ hσ'
    rcases h.removed (Clause.mem_litSet.mp hx) with hx | hx
    · exact ⟨x, Clause.mem_litSet.mpr hx, hσx⟩
    · exact absurd hσx ((σ.holds_neg x).mp (h.holds hst hσ' _ hx))
  · rw [h.facts_eq]
    exact hdead
  · rw [h.facts_eq, h.progress.cleaning.trail.size, undoAll_size, h.closed.grown.grows.size, undoAll_size]
    exact h.closed.lt_size

end Cleaned

/-- The memory of a failed propagation of the facts gives the same formula. -/
theorem formula_of_grown {t : Assignment} {facts : List CNFLit} (hg : Grown facts st.assignment.undoAll t)
    (st' : SharedOptimizerState) (hf : st'.facts = st.facts) (hdb : st'.clauseDB = st.clauseDB)
    (hm : st'.mem = t.undoAll.mem) : st'.formula = st.formula := by
  have hlits : ∀ c, (st'.mem c).lits.Perm (st.mem c).lits := fun c => by
    rw [hm, undoAll_mem]
    have hl := hg.grows.lits c
    rwa [undoAll_mem] at hl
  have hdel : ∀ c, (st'.mem c).scheduledForDeletion = (st.mem c).scheduledForDeletion := fun c => by
    rw [hm, undoAll_mem]
    have hl := hg.grows.scheduledForDeletion c
    rwa [undoAll_mem] at hl
  rw [SharedOptimizerState.formula, hf, hdb, formulaOf_congr hlits hdel]
  rfl

theorem unsat_of_conflict (h : st.Registered R K Z dead)
    (hc : Conflict (units {l | l ∈ st.facts} ∪ clauseSets st.mem R) ∅) : Unsat st.formula := by
  intro σ hσ
  refine hc.unsat σ (models_union.mpr ⟨(models_union.mp hσ).1, ?_⟩)
  rintro _ ⟨c, hcR, rfl⟩
  exact h.implied c hcR σ hσ

theorem optimize_registered (h : st.Registered R K Z dead) (fc : FactCleaner) (unitLemmas : Nat)
    (hu : (fc.optimize st unitLemmas).2.detectedUnsat = false) :
    ∃ K' dead', (fc.optimize st unitLemmas).2.Registered R K' Z dead' := by
  rcases optimize_cases h fc unitLemmas with ⟨-, hr⟩ | ⟨t, hr, -⟩ | ⟨F, v, -, hc⟩
  · rw [hr]
    exact ⟨K, dead, h⟩
  · rw [hr] at hu
    exact absurd hu Bool.noConfusion
  · exact hc.registered h

/-- Fact cleaning preserves the meaning of the facts and clauses. -/
theorem optimize_sound (h : st.Registered R K Z dead) (fc : FactCleaner) (unitLemmas : Nat) :
    (∀ σ : Valuation CNFLit, σ.Models (fc.optimize st unitLemmas).2.formula ↔ σ.Models st.formula) ∧
    (st.detectedUnsat = false → (fc.optimize st unitLemmas).2.detectedUnsat = true → Unsat st.formula) ∧
    (st.detectedUnsat = false → st.facts.length ≠ fc.factsAfterLastCall →
      (fc.optimize st unitLemmas).2.detectedUnsat = false →
      ∀ c ∈ (fc.optimize st unitLemmas).2.clauseDB,
        ((fc.optimize st unitLemmas).2.mem c).scheduledForDeletion = false →
        2 ≤ ((fc.optimize st unitLemmas).2.mem c).size ∧ ∀ fact ∈ (fc.optimize st unitLemmas).2.facts,
          ∀ x ∈ ((fc.optimize st unitLemmas).2.mem c).lits, x.var ≠ fact.var) := by
  rcases optimize_cases h fc unitLemmas with ⟨he, hr⟩ | ⟨t, hr, ht⟩ | ⟨F, v, hs, hc⟩
  · rw [hr]
    refine ⟨fun σ => Iff.rfl, fun hs hd => absurd (hs.symm.trans hd) Bool.false_ne_true, fun hs hl => ?_⟩
    rcases he with he | he
    · exact absurd (hs.symm.trans he) Bool.false_ne_true
    · exact absurd he hl
  · have hform := formula_of_grown ht.grown (fc.optimize st unitLemmas).2 (by rw [hr]; rfl) (by rw [hr]; rfl)
      (by rw [hr]; rfl)
    refine ⟨fun σ => by rw [hform], fun _ _ => unsat_of_conflict h ht.conflict, fun _ _ hd => ?_⟩
    rw [hr] at hd
    exact absurd hd Bool.noConfusion
  · refine ⟨hc.models_iff h, fun _ hd => ?_, fun _ _ _ c hcd ha => ⟨hc.two_le_size h hcd ha, ?_⟩⟩
    · exact absurd (hc.progress.cleaning.sane.symm.trans hd) Bool.false_ne_true
    · rw [hc.facts_eq]
      exact fun fact hf x hx => hc.var_ne hcd ha hf hx

def twoClausesMemory : Memory := fun c =>
  if c = 0 then .ofLits [⟨0, .positive⟩, ⟨1, .positive⟩, ⟨2, .positive⟩]
  else .ofLits [⟨1, .positive⟩, ⟨2, .positive⟩, ⟨0, .negative⟩]

def twoClauses : SharedOptimizerState where
  facts := [⟨0, .positive⟩]
  clauseDB := [0, 1]
  assignment := [0, 1].foldl Assignment.registerClause (.new twoClausesMemory 2)
  unsatCertificate := some []
  occMap := .empty
  detectedUnsat := false

theorem twoClauses_registered :
    twoClauses.Registered (∅ ∪ {c | c ∈ [0, 1]}) (∅ ∪ {c | c ∈ [0, 1]}) ∅ ∅ where
  idle := (Idle.new twoClausesMemory 2).registerClauses (by decide) (fun _ _ hc => hc) (by decide) (by decide)
    (by decide) fun _ => by decide
  nodup := by decide
  kept c hc _ := .inr hc
  known c hc := hc.resolve_left id
  implied c hc := .of_mem (.inr ⟨c, ⟨hc.resolve_left id, (by decide :
    ∀ c ∈ [0, 1], (twoClauses.mem c).scheduledForDeletion = false) c (hc.resolve_left id)⟩, rfl⟩)
  dead _ hl := hl.elim
  lt_size := by decide

theorem twoClauses_optimize_sound :
    (∀ σ : Valuation CNFLit, σ.Models ((⟨0, 0⟩ : FactCleaner).optimize twoClauses 0).2.formula ↔
      σ.Models twoClauses.formula) ∧
    (((⟨0, 0⟩ : FactCleaner).optimize twoClauses 0).2.detectedUnsat = true → Unsat twoClauses.formula) ∧
    2 ≤ (((⟨0, 0⟩ : FactCleaner).optimize twoClauses 0).2.mem 1).size ∧
    ∀ x ∈ (((⟨0, 0⟩ : FactCleaner).optimize twoClauses 0).2.mem 1).lits, x.var ≠ 0 := by
  obtain ⟨hmodels, hunsat, hkept⟩ := optimize_sound twoClauses_registered ⟨0, 0⟩ 0
  obtain ⟨hsize, hvar⟩ := hkept rfl (by decide) (by decide) 1 (by decide) (by decide)
  exact ⟨hmodels, hunsat rfl, hsize, hvar ⟨0, .positive⟩ (by decide)⟩

/-- The clause `(¬0, 1)` is registered, but scheduled for deletion. -/
def deletedReason : SharedOptimizerState where
  facts := [⟨0, .positive⟩]
  clauseDB := [0, 1]
  assignment := [0, 1].foldl Assignment.registerClause (.new (fun c =>
    if c = 0 then .ofLits [⟨2, .positive⟩, ⟨3, .positive⟩]
    else ⟨[⟨0, .negative⟩, ⟨1, .positive⟩], false, true, false⟩) 3)
  unsatCertificate := some []
  occMap := .empty
  detectedUnsat := false

/-- The deleted clause makes `1` a fact, although nothing that is left implies it. -/
theorem deletedReason_optimize : deletedReason.assignment.trail = [] ∧ deletedReason.facts.Nodup ∧
    (∀ c ∈ deletedReason.clauseDB, (deletedReason.mem c).scheduledForDeletion = false →
      (deletedReason.mem c).WellFormed ∧ ∀ i : Fin 2,
        ∃ w ∈ deletedReason.assignment.binaryWatchers ((deletedReason.mem c).lit i), w.clause = c) ∧
    ∃ σ : Valuation CNFLit, σ.Models deletedReason.formula ∧
      ¬ σ.Models ((⟨0, 0⟩ : FactCleaner).optimize deletedReason 0).2.formula := by
  have hfact : (⟨1, .positive⟩ : CNFLit) ∈ ((⟨0, 0⟩ : FactCleaner).optimize deletedReason 0).2.facts := by decide
  refine ⟨rfl, by decide, by decide, valuationOfSigns fun v => if v = 1 then .negative else .positive, ?_, ?_⟩
  · refine models_union.mpr ⟨models_units.mpr fun l hl => ?_, ?_⟩
    · obtain rfl := List.mem_singleton.mp hl
      rfl
    · rintro _ ⟨c, ⟨hc, ha⟩, rfl⟩
      have hc : c = 0 := by
        revert ha hc
        exact (by decide : ∀ c ∈ [0, 1], (deletedReason.mem c).scheduledForDeletion = false → c = 0) c
      subst hc
      exact ⟨⟨2, .positive⟩, by decide, rfl⟩
  · intro hσ
    have hholds := models_units.mp (models_union.mp hσ).1 _ hfact
    exact absurd hholds CNFSign.noConfusion

end FactCleaner

end JamSAT
