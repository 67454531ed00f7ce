import JamSAT.OccurrenceRuns

/-!
# Resolving modifications and clearing the map

A container is flagged as modified while removals are pending for it. A deleted container
is dropped from a list before its pending removal is looked at, which then stays. Clearing the
map empties the lists only: what is pending and which lists are to be looked through is kept.
-/

namespace JamSAT

open OccContainer OccurrenceMap

namespace OccurrenceMap

variable {C T E : Type} [DecidableEq C] [DecidableEq E] [OccContainer T E] {mem : C → T} {m : OccurrenceMap C E}
  {db : List C} {c : C}

def Tracking (db : List C) (mem : C → T) (m : OccurrenceMap C E) : Prop :=
  ∀ c ∈ db, modified (mem c) = true → ∃ l, m.Pending c l

section
variable [LawfulOccContainer T]

omit [DecidableEq E] in
theorem modified_clearModified_self (mem : C → T) (c : C) : modified (clearModified mem c c) = false := by
  unfold clearModified
  rw [Function.update_self]
  exact LawfulOccContainer.modified_clearModified _

theorem Tracking.clearRemoval (h : Tracking db mem m) (c : C) (value : E) :
    Tracking db (m.clearRemoval mem c value).2 (m.clearRemoval mem c value).1 := by
  unfold OccurrenceMap.clearRemoval
  dsimp only
  split
  · intro d hd hmod
    by_cases hdc : d = c
    · subst hdc
      rw [modified_clearModified_self] at hmod
      cases hmod
    · dsimp only at hmod
      rw [clearModified_of_ne hdc] at hmod
      obtain ⟨l, hl⟩ := h d hd hmod
      exact ⟨l, (pending_erasePending_of_ne hdc).mpr hl⟩
  · rename_i hne
    intro d hd hmod
    by_cases hdc : d = c
    · subst hdc
      obtain ⟨l, hl⟩ := List.exists_mem_of_ne_nil _ fun hnil => hne (List.isEmpty_iff.mpr hnil)
      exact ⟨l, (pending_setPending_self _).mpr hl⟩
    · obtain ⟨l, hl⟩ := h d hd hmod
      exact ⟨l, (pending_setPending_of_ne hdc _).mpr hl⟩

theorem Tracking.sweep (value : E) (cs : List C) : ∀ {m : OccurrenceMap C E} {mem : C → T}, Tracking db mem m →
    Tracking db (OccurrenceMap.sweep value cs m mem).2.2 (OccurrenceMap.sweep value cs m mem).2.1 := by
  induction cs with
  | nil => exact fun h => h
  | cons c cs ih =>
    intro m mem h
    unfold OccurrenceMap.sweep
    split
    · exact ih h
    · split
      · exact ih (h.clearRemoval c value)
      · exact ih h

theorem Tracking.lookup (h : Tracking db mem m) (value : E) :
    Tracking db (m.lookup mem value).2 (m.lookup mem value).1 := by
  unfold OccurrenceMap.lookup
  split
  · exact h.sweep value (m.occList value)
  · exact h

theorem Tracking.foldl_lookup (ls : List E) : ∀ {m : OccurrenceMap C E} {mem : C → T}, Tracking db mem m →
    Tracking db (ls.foldl (fun r element => r.1.lookup r.2 element) (m, mem)).2
      (ls.foldl (fun r element => r.1.lookup r.2 element) (m, mem)).1 := by
  induction ls with
  | nil => exact fun h => h
  | cons x xs ih => exact fun h => ih (h.lookup x)

/-- The flag stays only with what is still to be removed. -/
theorem pending_of_modified_addElements (mem : C → T) (m : OccurrenceMap C E) (c : C) (additions : List E)
    (h : modified ((m.addElements mem c additions false).2 c) = true) :
    ∃ l, (m.addElements mem c additions false).1.Pending c l := by
  unfold addElements at h ⊢
  split
  · rename_i ls hp
    rw [hp] at h
    dsimp only at h ⊢
    split
    · rename_i hempty
      rw [if_pos hempty, modified_clearModified_self] at h
      cases h
    · rename_i hne
      obtain ⟨l, hl⟩ := List.exists_mem_of_ne_nil (additions.foldl (addElement c) (m, ls)).2 fun hnil => by
        simp [hnil] at hne
      exact ⟨l, (pending_setPending_self _).mpr hl⟩
  · rename_i hp
    rw [hp] at h
    simp only [Bool.not_false, if_true, modified_clearModified_self] at h
    cases h

theorem Tracking.setModified {mem' : C → T} (h : Tracking db mem m) (he : ∀ e ∈ m.delModUpdates, m.GoodEntry e)
    (hne : ∀ d, d ≠ c → mem' d = mem d) {additions removals : List E} (hn : additions.Nodup) :
    Tracking db (m.setModified mem' c additions removals).2 (m.setModified mem' c additions removals).1 := by
  have hs := setModified_spec he mem' c hn removals
  intro d hd hmod
  by_cases hdc : d = c
  · subst hdc
    cases removals with
    | nil => exact pending_of_modified_addElements mem' m d additions hmod
    | cons l removals => exact ⟨l, (hs.pending_iff d l).mpr (.inr ⟨rfl, List.mem_cons_self⟩)⟩
  · rw [hs.mem_of_ne d hdc, hne d hdc] at hmod
    obtain ⟨l, hl⟩ := h d hd hmod
    exact ⟨l, (hs.pending_iff d l).mpr (.inl ⟨hl, fun hc => hdc hc.1⟩)⟩

theorem Tracking.resolveModifications (h : Tracking db mem m) {r : OccurrenceMap C E × (C → T)}
    (hr : m.resolveModifications mem = some r) : ∀ c ∈ db, modified (r.2 c) = false := by
  obtain ⟨h₁, h₂, hnil⟩ := resolveModifications_eq hr
  have htrack := h.foldl_lookup (m.delModUpdates.flatMap (·.2))
  rw [← h₁] at htrack
  have hclear : ∀ (cs : List C) (mem : C → T), (∀ c ∈ db, modified (mem c) = false) →
      ∀ c ∈ db, modified (cs.foldl clearModified mem c) = false := by
    intro cs
    induction cs with
    | nil => exact fun _ h => h
    | cons c cs ih =>
      intro mem hmem
      apply ih
      intro d hd
      by_cases hdc : d = c
      · rw [hdc, modified_clearModified_self]
      · rw [clearModified_of_ne hdc]
        exact hmem d hd
  rw [h₂]
  apply hclear
  intro c hc
  by_contra hmod
  obtain ⟨l, hl⟩ := htrack c hc (Bool.eq_true_of_not_eq_false hmod)
  unfold Pending OccurrenceMap.pending at hl
  rw [hnil] at hl
  cases hl

end

end OccurrenceMap

variable {C T E : Type} [DecidableEq C] [DecidableEq E] [OccContainer T E]

namespace OccOp

def InsertsUnmodified : OccOp C T E → Prop
  | insert _ container => modified container = false
  | _ => True

end OccOp

namespace OccState

variable {s s' : OccState C T E}

/-- The assertion holds and nothing is left to be done for any container. -/
def Resolves (s : OccState C T E) : Prop :=
  ∃ r, s.map.resolveModifications s.mem = some r ∧ r.1.delModUpdates = [] ∧ ∀ c ∈ s.inserted, modified (r.2 c) = false

abbrev Settling (s : OccState C T E) : Prop := s.map.Settling s.inserted s.mem

abbrev Tracking (s : OccState C T E) : Prop := s.map.Tracking s.inserted s.mem

/-- No guard is needed for what concerns the pending removals of containers that are not deleted. -/
theorem Settling.step (h : s.Settling) {op : OccOp C T E} (hl : op.Legal s) (hs : op.run s = some s') :
    s'.Settling := by
  cases op with
  | insert c container =>
    obtain rfl := Option.some.inj hs
    have hagree : ∀ d ∈ s.inserted, Function.update s.mem c container d = s.mem d := by
      intro d hd
      apply Function.update_of_ne
      intro he
      exact hl.1 (he ▸ hd)
    refine OccurrenceMap.Settling.insert (h.of_agree hagree) hl.1 fun _ => ?_
    dsimp only
    rw [Function.update_self]
    exact hl.2
  | remove c container =>
    obtain rfl := Option.some.inj hs
    obtain ⟨-, hdel, helem, hmod⟩ := hl
    refine OccurrenceMap.Settling.remove h (fun d => ?_) (fun d => ?_) fun d hd => ?_
    all_goals dsimp only at *
    all_goals by_cases hdc : d = c
    · rw [hdc, Function.update_self, helem]
    · rw [Function.update_of_ne hdc]
    · rw [hdc, Function.update_self, hmod]
    · rw [Function.update_of_ne hdc]
    · rw [hdc, Function.update_self, hdel]
    · rwa [Function.update_of_ne hdc]
  | setModified c container additions removals =>
    obtain rfl := Option.some.inj hs
    obtain ⟨hc, hmod, hdel, hn, hadd, hrem, helem⟩ := hl
    refine OccurrenceMap.Settling.setModified h hc additions removals hn
      (fun d hd => Function.update_of_ne hd _ _) ?_ hadd hrem ?_ ?_
    all_goals rw [Function.update_self]
    · exact helem
    · exact hmod
    · exact hdel
  | increaseMaxElementTo maxElement =>
    obtain rfl := Option.some.inj hs
    exact h
  | resolveModifications =>
    obtain ⟨r, hr, rfl⟩ := Option.map_eq_some_iff.mp hs
    exact (OccurrenceMap.Settling.resolveModifications h hr).1
  | lookup value =>
    obtain rfl := Option.some.inj hs
    exact (OccurrenceMap.Settling.lookup h value).1

omit [DecidableEq C] in
theorem delModUpdates_insert {mem : C → T} {m : OccurrenceMap C E} {c : C} (hn : (elements (mem c)).Nodup) :
    (m.insert mem c).delModUpdates = m.delModUpdates := by
  unfold OccurrenceMap.insert
  split
  · rfl
  · exact (foldl_pushBack c (elements (mem c)) m hn).2.2

theorem Tracking.step [LawfulOccContainer T] (h : s.Tracking) (hset : s.Settling) {op : OccOp C T E}
    (hl : op.Legal s) (hins : op.InsertsUnmodified) (hs : op.run s = some s') : s'.Tracking := by
  cases op with
  | insert c container =>
    obtain rfl := Option.some.inj hs
    intro d hd hmod
    dsimp only at hd hmod ⊢
    have hnodup : (elements (Function.update s.mem c container c)).Nodup := by
      rw [Function.update_self]
      exact hl.2
    have hne : d ≠ c := by
      intro he
      rw [he, Function.update_self] at hmod
      exact Bool.false_ne_true (hins.symm.trans hmod)
    rw [Function.update_of_ne hne] at hmod
    have hold : d ∈ s.inserted :=
      (List.mem_append.mp hd).resolve_right fun hm => hne (List.mem_singleton.mp hm)
    obtain ⟨l, hp⟩ := h d hold hmod
    exact ⟨l, (pending_congr (delModUpdates_insert hnodup) d l).mpr hp⟩
  | remove c container =>
    obtain rfl := Option.some.inj hs
    intro d hd hmod
    have hsame : modified (Function.update s.mem c container d) = modified (s.mem d) := by
      by_cases hdc : d = c
      · rw [hdc, Function.update_self, hl.2.2.2]
      · rw [Function.update_of_ne hdc]
    obtain ⟨l, hp⟩ := h d hd (hsame ▸ hmod)
    exact ⟨l, (pending_congr (foldl_setRequiresUpdate _ _).2.2 d l).mpr hp⟩
  | setModified c container additions removals =>
    obtain rfl := Option.some.inj hs
    exact OccurrenceMap.Tracking.setModified h hset.entries (fun d hd => Function.update_of_ne hd _ _) hl.2.2.2.1
  | increaseMaxElementTo maxElement =>
    obtain rfl := Option.some.inj hs
    exact h
  | resolveModifications =>
    obtain ⟨r, hr, rfl⟩ := Option.map_eq_some_iff.mp hs
    intro c hc hmod
    have hflag := OccurrenceMap.Tracking.resolveModifications h hr c hc
    exact absurd (hflag.symm.trans hmod) Bool.false_ne_true
  | lookup value =>
    obtain rfl := Option.some.inj hs
    exact OccurrenceMap.Tracking.lookup h value

theorem Reachable.settling {ok : OccState C T E → OccOp C T E → Prop} (h : s.Reachable ok) : s.Settling :=
  Runs.Reachable.invariant h (fun _ ⟨_, he⟩ => he ▸ inv_empty.settling) fun _ _ hi ⟨_, hl, _, hs⟩ => hi.step hl hs

theorem Reachable.tracking [LawfulOccContainer T] (h : s.Reachable fun _ op => op.InsertsUnmodified) :
    s.Tracking := by
  have hboth : s.Settling ∧ s.Tracking := by
    apply Runs.Reachable.invariant h
    · intro s ⟨mem, he⟩
      subst he
      refine ⟨inv_empty.settling, fun c hc _ => ?_⟩
      cases hc
    · intro s s' ⟨hset, htrack⟩ ⟨op, hl, hins, hs⟩
      exact ⟨hset.step hl hs, htrack.step hset hl hins hs⟩
  exact hboth.2

/-- Everything is resolved unless a container was deleted while removals were pending for it. -/
theorem resolves_iff [LawfulOccContainer T] (h : s.Reachable fun _ op => op.InsertsUnmodified) :
    s.Resolves ↔ ∀ c l, s.map.Pending c l → deleted (s.mem c) = false := by
  rw [← OccurrenceMap.Settling.isSome_resolveModifications (Reachable.settling h)]
  constructor
  · intro ⟨r, hr, _⟩
    rw [hr]
    rfl
  · intro hsome
    obtain ⟨r, hr⟩ := Option.isSome_iff_exists.mp hsome
    exact ⟨r, hr, (resolveModifications_eq hr).2.2,
      OccurrenceMap.Tracking.resolveModifications h.tracking hr⟩

def literalRemoved : List (OccOp ClauseRef Clause CNFLit) :=
  [.insert 0 (oneClause [⟨0, .positive⟩, ⟨1, .positive⟩] false false),
    .setModified 0 (oneClause [⟨1, .positive⟩] false true) [] [⟨0, .positive⟩]]

def removedPending : OccOp ClauseRef Clause CNFLit := .remove 0 (oneClause [⟨1, .positive⟩] true true)

theorem literalRemoved_reachable (ok : OccState ClauseRef Clause CNFLit → OccOp ClauseRef Clause CNFLit → Prop)
    (hok : ∀ s, ∀ op ∈ literalRemoved, ok s op) : (after start literalRemoved).Reachable ok := by
  have hstart : start.Reachable ok := .init ⟨_, rfl⟩
  have hinsert :=
    hstart.step ⟨literalRemoved[0], ⟨by decide, by decide⟩, hok _ _ (by simp [literalRemoved]), rfl⟩
  refine hinsert.step ⟨literalRemoved[1], ⟨by decide, rfl, rfl, by decide, by decide, by decide, fun l => ?_⟩,
    hok _ _ (by simp [literalRemoved]), rfl⟩
  simp only [OccContainer.elements, oneClause, start, Function.update_self, List.mem_cons, List.not_mem_nil,
    or_false]
  constructor
  · intro he
    subst he
    decide
  · intro h
    exact h.1.resolve_left h.2

theorem literalRemoved_inserts : ∀ op ∈ literalRemoved, op.InsertsUnmodified := by
  intro op hop
  cases List.mem_pair.mp hop with
  | inl he => exact he ▸ rfl
  | inr he => exact he ▸ trivial

theorem literalRemoved_resolves : (after start literalRemoved).Resolves := by
  apply (resolves_iff (literalRemoved_reachable _ fun _ op hop => literalRemoved_inserts op hop)).mpr
  intro c l _
  have hmem : (after start literalRemoved).mem = Function.update (Function.update start.mem 0
      (oneClause [⟨0, .positive⟩, ⟨1, .positive⟩] false false)) 0 (oneClause [⟨1, .positive⟩] false true) := rfl
  by_cases hc : c = 0
  · subst hc
    rfl
  · rw [hmem, Function.update_of_ne hc, Function.update_of_ne hc]
    rfl

/-- The assertion fails when the clause is deleted before the list of its former literal is looked through. -/
theorem removedPending_not_resolves : ¬ ∀ s : OccState ClauseRef Clause CNFLit,
    s.Reachable (fun _ op => op.InsertsUnmodified) → s.Resolves := by
  intro hall
  have hremoved := literalRemoved_reachable _ fun _ op hop => literalRemoved_inserts op hop
  have hreached := hremoved.step (t := after start (literalRemoved ++ [removedPending]))
    ⟨removedPending, ⟨by decide, rfl, rfl, rfl⟩, trivial, rfl⟩
  obtain ⟨r, hr, -⟩ := hall _ hreached
  have hnone : ((after start (literalRemoved ++ [removedPending])).map.resolveModifications
      (after start (literalRemoved ++ [removedPending])).mem).isSome = false := by decide
  rw [hr] at hnone
  cases hnone

end OccState

/-! ## Clearing -/

namespace OccurrenceMap

variable {mem : C → T} {m : OccurrenceMap C E} {c d : C}

theorem entries_lookup (h : ∀ e ∈ m.delModUpdates, m.GoodEntry e) (mem : C → T) (value : E) :
    ∀ e ∈ (m.lookup mem value).1.delModUpdates, (m.lookup mem value).1.GoodEntry e := by
  have hsweep : ∀ (cs : List C) (m : OccurrenceMap C E) (mem : C → T), (∀ e ∈ m.delModUpdates, m.GoodEntry e) →
      ∀ e ∈ (sweep value cs m mem).2.1.delModUpdates, (sweep value cs m mem).2.1.GoodEntry e := by
    intro cs
    induction cs with
    | nil => exact fun _ _ h => h
    | cons c cs ih =>
      intro m mem h
      unfold sweep
      split
      · exact ih m mem h
      · split
        · exact ih _ _ (entries_clearRemoval h mem c value)
        · exact ih m mem h
  unfold OccurrenceMap.lookup
  split
  · exact hsweep (m.occList value) m mem h
  · exact h

theorem unflagged_clearRemoval (mem : C → T) (m : OccurrenceMap C E) (c : C) (value : E) :
    Unflagged mem (m.clearRemoval mem c value).2 := by
  unfold clearRemoval
  dsimp only
  split
  · exact unflagged_clearModified mem c
  · exact .refl mem

theorem of_mem_sweep {value : E} {cs : List C} : ∀ {m : OccurrenceMap C E} {mem : C → T},
    d ∈ (sweep value cs m mem).1 → d ∈ cs ∧ deleted (mem d) = false := by
  induction cs with
  | nil =>
    intro m mem hd
    cases hd
  | cons c cs ih =>
    intro m mem hd
    unfold sweep at hd
    split at hd
    · obtain ⟨hin, ha⟩ := ih hd
      exact ⟨List.mem_cons_of_mem _ hin, ha⟩
    · rename_i hdel
      split at hd
      · obtain ⟨hin, ha⟩ := ih hd
        rw [(unflagged_clearRemoval mem m c value).deleted] at ha
        exact ⟨List.mem_cons_of_mem _ hin, ha⟩
      · cases List.mem_cons.mp hd with
        | inl he =>
          subst he
          exact ⟨List.mem_cons_self, Bool.eq_false_of_not_eq_true hdel⟩
        | inr hd =>
          obtain ⟨hin, ha⟩ := ih hd
          exact ⟨List.mem_cons_of_mem _ hin, ha⟩

omit [DecidableEq C] in
theorem insert_of_nil (h : elements (mem c) = []) : m.insert mem c = m := by
  unfold OccurrenceMap.insert
  rw [h]
  exact ite_self _

omit [DecidableEq C] in
theorem remove_of_nil (h : elements (mem c) = []) : m.remove mem c = m := by
  unfold OccurrenceMap.remove
  rw [h]
  rfl

theorem addOne_spec (he : ∀ e ∈ m.delModUpdates, m.GoodEntry e)
    (hnil : m.occList = fun _ => []) (mem : C → T) (c : C)
    (l : E) : (∀ d, d ∈ (m.setModified mem c [l] []).1.occList l ↔ d = c ∧ ¬ m.Pending c l) ∧
      ((m.setModified mem c [l] []).1.requiresUpdate l = true ↔ m.requiresUpdate l = true) := by
  have hs := setModified_spec he mem c (List.nodup_singleton l) []
  constructor
  · intro d
    rw [hs.mem_iff, hnil]
    simp
  · rw [hs.requiresUpdate_iff]
    simp

end OccurrenceMap

namespace OccOp

def result (s : OccState C T E) : OccOp C T E → List (List C)
  | lookup value => [s.occurrences value]
  | _ => []

def Later : OccOp C T E → Prop
  | resolveModifications => False
  | _ => True

end OccOp

namespace OccState

def results : List (OccOp C T E) → OccState C T E → Option (List (List C))
  | [], _ => some []
  | op :: ops, s => (op.run s).bind fun s' => (results ops s').map fun rs => op.result s ++ rs

def LegalRun : List (OccOp C T E) → OccState C T E → Prop
  | [], _ => True
  | op :: ops, s => op.Later ∧ op.Legal s ∧ ∀ s', op.run s = some s' → LegalRun ops s'

def clear (s : OccState C T E) : OccState C T E := ⟨[], s.mem, s.map.clear⟩

def new (mem : C → T) : OccState C T E := ⟨[], mem, .empty⟩

/-- After `clear` the lookups have the results that they have in a new map. -/
def ClearsLikeNew (s : OccState C T E) : Prop :=
  ∀ ops, LegalRun ops (new s.mem) → results ops s.clear = results ops (new s.mem)

def ReachableClearing : OccState C T E → Prop :=
  Runs.Reachable (fun s => ∃ mem, s = new mem) fun s s' =>
    (∃ op : OccOp C T E, op.Legal s ∧ op.run s = some s') ∨ s' = s.clear

variable {s s' : OccState C T E}

theorem ReachableClearing.entries (h : s.ReachableClearing) : ∀ e ∈ s.map.delModUpdates, s.map.GoodEntry e := by
  apply Runs.Reachable.invariant h
  · intro s ⟨mem, he⟩ e hmem
    subst he
    cases hmem
  · intro s s' h hstep
    cases hstep with
    | inr hclear => exact hclear ▸ h
    | inl hop =>
      obtain ⟨op, hl, hs⟩ := hop
      cases op with
      | insert c container =>
        obtain rfl := Option.some.inj hs
        refine goodEntry_congr (delModUpdates_insert ?_) h
        rw [Function.update_self]
        exact hl.2
      | remove c container =>
        obtain rfl := Option.some.inj hs
        exact goodEntry_congr (foldl_setRequiresUpdate _ _).2.2 h
      | setModified c container additions removals =>
        obtain rfl := Option.some.inj hs
        exact (setModified_spec h _ c hl.2.2.2.1 removals).entries
      | increaseMaxElementTo maxElement =>
        obtain rfl := Option.some.inj hs
        exact h
      | resolveModifications =>
        obtain ⟨r, hr, rfl⟩ := Option.map_eq_some_iff.mp hs
        intro e he
        rw [(resolveModifications_eq hr).2.2] at he
        cases he
      | lookup value =>
        obtain rfl := Option.some.inj hs
        exact entries_lookup h s.mem value

theorem mem_occurrences_clean {value : E} {c : C} (h : s.map.requiresUpdate value = false) :
    c ∈ s.occurrences value ↔ c ∈ s.map.occList value := by
  unfold occurrences OccurrenceMap.lookup
  rw [if_neg (by rw [h]; exact Bool.false_ne_true)]

theorem deleted_of_mem_occurrences {value : E} {c : C} (h : s.map.requiresUpdate value = true)
    (hc : c ∈ s.occurrences value) : deleted (s.mem c) = false := by
  unfold occurrences OccurrenceMap.lookup at hc
  rw [if_pos h] at hc
  unfold OccurrenceMap.update at hc
  dsimp only at hc
  rw [Function.update_self] at hc
  exact (of_mem_sweep hc).2

section
variable {c : C} {l : E} {t₀ t₁ t₂ : T}

def grown (s : OccState C T E) (c : C) (l : E) (container : T) : OccState C T E :=
  ⟨[c], (s.map.setModified (Function.update s.mem c container) c [l] []).2,
    (s.map.setModified (Function.update s.mem c container) c [l] []).1⟩

theorem results_grown (hs : s.inserted = []) (h₀ : elements t₀ = []) :
    results [.insert c t₀, .setModified c t₂ [l] [], .lookup l] s = some [(s.grown c l t₂).occurrences l] := by
  have hins : s.map.insert (Function.update s.mem c t₀) c = s.map :=
    insert_of_nil (by rw [Function.update_self, h₀])
  simp [results, OccOp.run, OccOp.result, hins, hs, grown]

theorem results_deletedGrown (hs : s.inserted = []) (h₀ : elements t₀ = []) (h₁ : elements t₁ = []) :
    results [.insert c t₀, .remove c t₁, .setModified c t₂ [l] [], .lookup l] s =
      some [(s.grown c l t₂).occurrences l] := by
  have hins : s.map.insert (Function.update s.mem c t₀) c = s.map :=
    insert_of_nil (by rw [Function.update_self, h₀])
  have hrem : s.map.remove (Function.update s.mem c t₁) c = s.map :=
    remove_of_nil (by rw [Function.update_self, h₁])
  simp [results, OccOp.run, OccOp.result, hins, hrem, hs, grown]

theorem legal_grown {mem : C → T} (h₀ : elements t₀ = []) (hd : deleted t₂ = deleted t₀) (hm : modified t₂ = true)
    (h₂ : elements t₂ = [l]) : LegalRun [.insert c t₀, .setModified c t₂ [l] [], .lookup l] (new mem) := by
  refine ⟨trivial, ⟨List.not_mem_nil, h₀ ▸ List.nodup_nil⟩, fun s' hs => ?_⟩
  obtain rfl := Option.some.inj hs
  refine ⟨trivial, ⟨by simp [new], hm, ?_, List.nodup_singleton l, ?_, ?_, ?_⟩, fun s' hs =>
    ⟨trivial, trivial, fun _ _ => trivial⟩⟩
  · simp [hd]
  · simp [h₀]
  · simp
  · simp [h₀, h₂]

theorem legal_deletedGrown {mem : C → T} (h₀ : elements t₀ = []) (h₁ : elements t₁ = [])
    (hd₁ : deleted t₁ = true) (hm₁ : modified t₁ = modified t₀) (hd : deleted t₂ = true) (hm : modified t₂ = true)
    (h₂ : elements t₂ = [l]) :
    LegalRun [.insert c t₀, .remove c t₁, .setModified c t₂ [l] [], .lookup l] (new mem) := by
  refine ⟨trivial, ⟨List.not_mem_nil, h₀ ▸ List.nodup_nil⟩, fun s' hs => ?_⟩
  obtain rfl := Option.some.inj hs
  refine ⟨trivial, ⟨by simp [new], hd₁, ?_, ?_⟩, fun s' hs => ?_⟩
  · simp [h₀, h₁]
  · simp [hm₁]
  obtain rfl := Option.some.inj hs
  refine ⟨trivial, ⟨by simp [new], hm, ?_, List.nodup_singleton l, ?_, ?_, ?_⟩, fun s' hs =>
    ⟨trivial, trivial, fun _ _ => trivial⟩⟩
  · simp [hd, hd₁]
  · simp [h₁]
  · simp
  · simp [h₁, h₂]

theorem mem_occurrences_grown_new {mem : C → T} : c ∈ ((new mem).grown c l t₂).occurrences l := by
  have hentries : ∀ e ∈ (empty : OccurrenceMap C E).delModUpdates, empty.GoodEntry e := fun e he => by cases he
  obtain ⟨hmem, hreq⟩ := addOne_spec hentries rfl (Function.update mem c t₂) c l
  rw [mem_occurrences_clean (Bool.eq_false_of_not_eq_true fun h => by cases hreq.mp h)]
  exact (hmem c).mpr ⟨rfl, fun hp => by cases hp⟩

end

/-- A map is like new after `clear` if and only if no list is to be looked through and no removal is
pending. The elements and flags of the containers are arbitrary. -/
theorem clearsLikeNew_iff [Nonempty C] (hT : ∀ (ls : List E) (del mod : Bool), ∃ t : T, elements t = ls ∧
    deleted t = del ∧ modified t = mod) (h : s.ReachableClearing) :
    s.ClearsLikeNew ↔ (∀ l, s.map.requiresUpdate l = false) ∧ ∀ c l, ¬ s.map.Pending c l := by
  have hentries := h.entries
  constructor
  · intro hlike
    have hclean : ∀ l, s.map.requiresUpdate l = false := by
      intro l
      by_contra hdirty
      obtain ⟨c⟩ := ‹Nonempty C›
      obtain ⟨t₀, h₀, hd₀, hm₀⟩ := hT [] false false
      obtain ⟨t₁, h₁, hd₁, hm₁⟩ := hT [] true false
      obtain ⟨t₂, h₂, hd₂, hm₂⟩ := hT [l] true true
      -- a deleted container gets an element: a new map does not look through the list of the element
      have he := hlike _ (legal_deletedGrown (c := c) (l := l) h₀ h₁ hd₁ (hm₁.trans hm₀.symm) hd₂ hm₂ h₂)
      rw [results_deletedGrown rfl h₀ h₁, results_deletedGrown rfl h₀ h₁] at he
      have hin : c ∈ (s.clear.grown c l t₂).occurrences l :=
        (List.cons.inj (Option.some.inj he)).1 ▸ mem_occurrences_grown_new
      have hreq := (addOne_spec (m := s.map.clear) hentries rfl (Function.update s.mem c t₂) c l).2
      have ha := deleted_of_mem_occurrences (hreq.mpr (Bool.eq_true_of_not_eq_false hdirty)) hin
      have hsame := (setModified_spec (m := s.map.clear) hentries (Function.update s.mem c t₂) c
        (List.nodup_singleton l) []).same.deleted c
      rw [Function.update_self, hd₂] at hsame
      exact Bool.false_ne_true (ha.symm.trans hsame)
    refine ⟨hclean, fun c l hp => ?_⟩
    obtain ⟨t₀, h₀, hd₀, hm₀⟩ := hT [] false false
    obtain ⟨t₂, h₂, hd₂, hm₂⟩ := hT [l] false true
    -- the container gets the element back: only a new map adds the container to the list
    have he := hlike _ (legal_grown (c := c) (l := l) h₀ (hd₂.trans hd₀.symm) hm₂ h₂)
    rw [results_grown rfl h₀, results_grown rfl h₀] at he
    have hin : c ∈ (s.clear.grown c l t₂).occurrences l :=
      (List.cons.inj (Option.some.inj he)).1 ▸ mem_occurrences_grown_new
    obtain ⟨hmem, hreq⟩ := addOne_spec (m := s.map.clear) hentries rfl (Function.update s.mem c t₂) c l
    have hstays := Bool.eq_false_of_not_eq_true fun hr =>
      Bool.false_ne_true ((hclean l).symm.trans (hreq.mp hr))
    rw [mem_occurrences_clean hstays] at hin
    exact ((hmem c).mp hin).2 hp
  · intro ⟨hclean, hnone⟩ ops _
    have hnil := List.isEmpty_iff.mp ((isEmpty_delModUpdates hentries).mpr hnone)
    have hreq : s.map.requiresUpdate = fun _ => false := funext hclean
    have hmap : s.map.clear = .empty := by
      unfold OccurrenceMap.clear OccurrenceMap.empty
      rw [hnil, hreq]
    unfold clear
    rw [hmap]
    rfl

theorem Reachable.clearing {ok : OccState C T E → OccOp C T E → Prop} (h : s.Reachable ok) : s.ReachableClearing :=
  Runs.Reachable.mono h fun _ _ ⟨op, hl, _, hs⟩ => .inl ⟨op, hl, hs⟩

theorem inserted_clearsLikeNew : (after start [literalRemoved[0]]).ClearsLikeNew := by
  have hstart : start.ReachableClearing := .init ⟨_, rfl⟩
  have hinsert := hstart.step (t := after start [literalRemoved[0]])
    (.inl ⟨literalRemoved[0], ⟨by decide, by decide⟩, rfl⟩)
  refine (clearsLikeNew_iff (fun ls del mod => ⟨oneClause ls del mod, rfl, rfl, rfl⟩) hinsert).mpr ⟨fun l => ?_, ?_⟩
  · rfl
  · intro c l hp
    cases hp

def reinserted : List (OccOp ClauseRef Clause CNFLit) :=
  [.insert 0 (oneClause [⟨0, .positive⟩, ⟨1, .positive⟩] false true), .lookup ⟨0, .positive⟩]

/-- The clause is not found under the literal. -/
theorem reinserted_not_found : ¬ ∀ s : OccState ClauseRef Clause CNFLit, s.ReachableClearing → s.ClearsLikeNew := by
  intro hall
  have hreached := (literalRemoved_reachable (fun _ _ => True) fun _ _ _ => trivial).clearing
  have hlegal : LegalRun reinserted (new (after start literalRemoved).mem) := by
    refine ⟨trivial, ⟨List.not_mem_nil, by decide⟩, fun s' _ => ⟨trivial, trivial, fun _ _ => trivial⟩⟩
  have he := hall _ hreached reinserted hlegal
  have hnone : results reinserted (after start literalRemoved).clear = some [[]] := by decide
  have hfound : results reinserted (new (after start literalRemoved).mem) = some [[0]] := by decide
  rw [hnone, hfound] at he
  exact absurd (Option.some.inj he) (by decide)

end OccState

end JamSAT
