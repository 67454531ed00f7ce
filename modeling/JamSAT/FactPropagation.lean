import JamSAT.AssignmentSound
import JamSAT.FactCleaner
import JamSAT.OccurrenceMapSound
import JamSAT.UnitLogic
import JamSAT.WatchRuns

/-!
# Propagating facts one after another

A propagated assignment is `Ready`. One with nothing assigned is `Idle`: a
cleanup may still be pending there, which the next append carries out. Facts
that are appended one after another lead from either to `Ready` or to a `Clash`.
-/

namespace JamSAT

open UnitLogic

def valuationOfSigns (sign : CNFVar → CNFSign) : Valuation CNFLit where
  holds l := l.sign = sign l.var
  holds_neg l := by
    show l.sign.invert = sign l.var ↔ _
    cases l.sign <;> cases sign l.var <;> decide

def clauseSets (mem : Memory) (cs : Set ClauseRef) : Set (Finset CNFLit) := {C | ∃ c ∈ cs, C = (mem c).litSet}

theorem mem_clauseSets {mem : Memory} {cs : Set ClauseRef} {c : ClauseRef} (h : c ∈ cs) :
    (mem c).litSet ∈ clauseSets mem cs := ⟨c, h, rfl⟩

theorem clauseSets_congr {mem mem' : Memory} {cs : Set ClauseRef} (h : ∀ c, (mem' c).lits.Perm (mem c).lits) :
    clauseSets mem' cs = clauseSets mem cs := by
  have hset : ∀ c, (mem' c).litSet = (mem c).litSet := fun c => List.toFinset_eq_of_perm _ _ (h c)
  simp only [clauseSets, hset]

def formulaOf (facts : List CNFLit) (mem : Memory) (clauses : List ClauseRef) : Set (Finset CNFLit) :=
  units {l | l ∈ facts} ∪ clauseSets mem {c | c ∈ clauses ∧ (mem c).scheduledForDeletion = false}

theorem formulaOf_congr {facts : List CNFLit} {mem mem' : Memory} {clauses : List ClauseRef}
    (hl : ∀ c, (mem' c).lits.Perm (mem c).lits)
    (hd : ∀ c, (mem' c).scheduledForDeletion = (mem c).scheduledForDeletion) :
    formulaOf facts mem' clauses = formulaOf facts mem clauses := by
  simp only [formulaOf, hd, clauseSets_congr hl]

theorem mem_formulaOf {facts : List CNFLit} {mem : Memory} {clauses : List ClauseRef} {c : ClauseRef}
    (hc : c ∈ clauses) (ha : (mem c).scheduledForDeletion = false) : (mem c).litSet ∈ formulaOf facts mem clauses :=
  .inr (mem_clauseSets ⟨hc, ha⟩)

namespace Assignment

variable {R K Z : Set ClauseRef} {dead : Set CNFLit} {s t u : Assignment}

/-! ## Propagation assigns with reasons -/

def ForcedSince (s t : Assignment) : Prop := ∀ l ∈ t.trail, l ∈ s.trail ∨ t.getReason l.var ≠ none

theorem ForcedSince.assign (h : ForcedSince s t) (l : CNFLit) (c : ClauseRef) :
    ForcedSince s (t.assign l (some c)) := by
  intro x hx
  by_cases hv : x.var = l.var
  · right
    rw [hv, getReason_assign_self]
    exact Option.some_ne_none c
  · rw [getReason_assign_of_ne hv]
    rcases List.mem_append.mp hx with hx | hx
    · exact h x hx
    · exact absurd (congrArg CNFLit.var (List.mem_singleton.mp hx)) hv

theorem ForcedSince.propagate (h : ForcedSince s t) (mode : UpMode) (p : CNFLit) :
    Ends (fun u _ => ForcedSince s u) (fun _ u => ForcedSince s u) (t.propagate mode p) := by
  refine propagate_rule (I := fun u _ => ForcedSince s u) ?_ fun u f hu => ?_
  · exact (propagateBinaries_rule (I := fun _ _ u _ => ForcedSince s u) (Q := fun _ u => ForcedSince s u)
      (fun _ _ _ _ hu _ => hu) (fun _ _ _ _ hu _ => hu) (fun _ _ _ _ hu _ => hu.assign _ _) _ _ _ _ h).imp
      (fun _ _ ⟨_, hu⟩ => hu) fun _ _ hu => hu
  · exact (propagateWatchers_rule (I := fun _ _ u _ => ForcedSince s u) (Q := fun _ u => ForcedSince s u)
      (fun _ _ _ _ hu _ => hu) (fun _ _ _ _ _ hu _ => hu) (fun _ _ _ _ hu _ => hu)
      (fun _ _ _ _ _ hu _ => hu.assign _ _) _ _ _ _ hu).imp (fun _ _ ⟨_, hu⟩ => hu) fun _ _ hu => hu

theorem ForcedSince.propagateUntilFixpoint (h : ForcedSince s t) (p : CNFLit) (mode : UpMode) :
    EndsFixpoint (ForcedSince s) (fun _ => ForcedSince s) (t.propagateUntilFixpoint p mode) := by
  have key : ∀ u : Assignment, u.litsRequiringWatcherUpdateAsVec = [] → ForcedSince s u →
      EndsFixpoint (ForcedSince s) (fun _ => ForcedSince s) (u.propagateUntilFixpoint p mode) :=
    fun u hv hu => propagateUntilFixpoint_rule hv (hu.propagate mode p) fun v f hv =>
      propagateQueue_rule (I := fun _ _ _ => ForcedSince s) (fun _ _ _ hu => hu) (fun _ _ _ hu => hu)
        (fun _ _ _ _ hu _ => hu.propagate mode _) _ _ _ _ hv
  by_cases hv : t.litsRequiringWatcherUpdateAsVec = []
  · exact key t hv h
  · rw [propagateUntilFixpoint_cleanup p hv]
    refine key _ rfl ?_
    have hsame := sameTrail_cleanupWatchers t
    intro l hl
    rw [hsame.getReason]
    exact h l (hsame.trail ▸ hl)

/-! ## What appending leaves as it is -/

structure Grows (s t : Assignment) : Prop where
  size : t.size = s.size
  levelLimits : t.levelLimits = s.levelLimits
  currentLevel : t.currentLevel = s.currentLevel
  trail : s.trail <+: t.trail
  kept : ∀ l ∈ s.trail, t.reasonsAndALs l.var = s.reasonsAndALs l.var
  lits : ∀ c, (t.mem c).lits.Perm (s.mem c).lits
  redundant : ∀ c, (t.mem c).redundant = (s.mem c).redundant
  scheduledForDeletion : ∀ c, (t.mem c).scheduledForDeletion = (s.mem c).scheduledForDeletion
  modified : ∀ c, (t.mem c).modified = (s.mem c).modified

namespace Grows

theorem refl (s : Assignment) : Grows s s :=
  ⟨rfl, rfl, rfl, List.prefix_refl _, fun _ _ => rfl, fun _ => .refl _, fun _ => rfl, fun _ => rfl, fun _ => rfl⟩

theorem trans (h : Grows s t) (h' : Grows t u) : Grows s u where
  size := h'.size.trans h.size
  levelLimits := h'.levelLimits.trans h.levelLimits
  currentLevel := h'.currentLevel.trans h.currentLevel
  trail := h.trail.trans h'.trail
  kept l hl := (h'.kept l (h.trail.subset hl)).trans (h.kept l hl)
  lits c := (h'.lits c).trans (h.lits c)
  redundant c := (h'.redundant c).trans (h.redundant c)
  scheduledForDeletion c := (h'.scheduledForDeletion c).trans (h.scheduledForDeletion c)
  modified c := (h'.modified c).trans (h.modified c)

theorem of_extends (h : Extends s t) : Grows s t :=
  ⟨h.size, h.levelLimits, h.currentLevel, h.trail, h.kept, h.lits, h.redundant, h.scheduledForDeletion, h.modified⟩

theorem of_sameTrail (h : SameTrail s t) (hm : t.mem = s.mem) : Grows s t :=
  ⟨h.size, h.levelLimits, h.currentLevel, h.trail ▸ List.prefix_refl _, fun l _ => by rw [h.reasonsAndALs],
    fun c => by rw [hm], fun c => by rw [hm], fun c => by rw [hm], fun c => by rw [hm]⟩

variable (h : Grows s t)
include h

theorem getLevel {l : CNFLit} (hl : l ∈ s.trail) : t.getLevel l.var = s.getLevel l.var := by
  simp [Assignment.getLevel, h.kept l hl]

theorem getReason {l : CNFLit} (hl : l ∈ s.trail) : t.getReason l.var = s.getReason l.var := by
  simp [Assignment.getReason, h.kept l hl]

theorem level_new (hs : s.TrailInv) (ht : t.TrailInv) {l : CNFLit} (hl : l ∈ t.trail) (hn : l ∉ s.trail) :
    t.getLevel l.var = s.currentLevel := by
  obtain ⟨rest, hr⟩ := h.trail
  rw [← hr] at hl
  have hl := (List.mem_append.mp hl).resolve_left hn
  obtain ⟨i, hi, rfl⟩ := List.getElem_of_mem hl
  have hg : t.trail[s.trail.length + i]? = some rest[i] := by
    rw [← hr, List.getElem?_append_right (by omega), Nat.add_sub_cancel_left, List.getElem?_eq_getElem hi]
  have hlim := hs.limit_le _ (Nat.le_refl _)
  have heq : t.levelLimit s.currentLevel = s.levelLimit s.currentLevel := by simp [levelLimit, h.levelLimits]
  have hge := mt (ht.lt_limit s.currentLevel h.currentLevel.ge _ _ hg).mpr (by omega)
  have hle := ht.level_le _ (List.mem_of_getElem? hg)
  rw [h.currentLevel] at hle
  omega

end Grows

/-! ## Assignments between propagations -/

/-- Nothing is assigned; the next append repairs the lists that are out of date. -/
structure Idle (R K Z : Set ClauseRef) (dead : Set CNFLit) (s : Assignment) : Prop where
  trail : s.TrailInv
  nil : s.trail = []
  watch : WatchInv R K Z s.dirty s
  flags : s.FlagInv
  wf : ∀ c ∈ R, (s.mem c).WellFormed
  vars : ∀ c ∈ R, ∀ l ∈ (s.mem c).lits, l.var < s.size
  sync : ∀ l, ∀ w ∈ s.watchers l, Settled s.mem Z l w →
    (w.otherWatchedLiteral ∈ (s.mem w.clause).lits ∨ w.otherWatchedLiteral ∈ dead) ∧
      w.isRedundant = (s.mem w.clause).redundant
  alive : s.dirty ≠ ∅ → ∀ c ∈ K, (s.mem c).scheduledForDeletion = false

/-- No clause has been left out and no cleanup is pending. -/
structure Ready (R K Z : Set ClauseRef) (dead : Set CNFLit) (s : Assignment) : Prop where
  core : Core R K Z dead s
  prop : s.Propagated false dead s.trail.length
  flags : s.FlagInv
  clean : s.dirty = ∅

structure Clash (R K Z : Set ClauseRef) (dead : Set CNFLit) (c : ClauseRef) (s : Assignment) : Prop where
  core : Core R K Z dead s
  registered : c ∈ R
  isFalse : ∀ x ∈ (s.mem c).lits, s.getAssignment x = .FALSE
  prop : ∃ q, s.Propagated false dead q
  flags : s.FlagInv
  clean : s.dirty = ∅

inductive Steady (R K Z : Set ClauseRef) (dead : Set CNFLit) (s : Assignment) : Prop
  | idle (h : Idle R K Z dead s)
  | ready (h : Ready R K Z dead s)

theorem dirty_congr (h : t.litsRequiringWatcherUpdateAsVec = s.litsRequiringWatcherUpdateAsVec) :
    t.dirty = s.dirty := by rw [dirty, dirty, h]

theorem Ready.vec_eq (h : Ready R K Z dead s) : s.litsRequiringWatcherUpdateAsVec = [] :=
  dirty_eq_empty_iff.mp h.clean

theorem Steady.trailInv (h : Steady R K Z dead s) : s.TrailInv := by
  cases h with
  | idle h => exact h.trail
  | ready h => exact h.core.trail

theorem Idle.core (h : Idle R K Z dead s) (hd : s.dirty = ∅) : Core R K Z dead s where
  trail := h.trail
  watch := hd ▸ h.watch
  wf := h.wf
  vars := h.vars
  reasons := .of_trail_nil h.nil
  blocker l w hw := (h.sync l w hw ((hd ▸ h.watch : WatchInv R K Z ∅ s).settled hw)).1
  bit l w hw := (h.sync l w hw ((hd ▸ h.watch : WatchInv R K Z ∅ s).settled hw)).2

theorem Idle.ready (h : Idle R K Z dead s) (hd : s.dirty = ∅) : Ready R K Z dead s :=
  ⟨h.core hd, .of_trail_nil h.nil _, h.flags, hd⟩

theorem Idle.congr (h : Idle R K Z dead s) (ht : t.TrailInv) (hn : t.trail = []) (hm : t.mem = s.mem)
    (hw : t.watchers = s.watchers) (hb : t.binaryWatchers = s.binaryWatchers)
    (hf : t.litsRequiringWatcherUpdate = s.litsRequiringWatcherUpdate)
    (hv : t.litsRequiringWatcherUpdateAsVec = s.litsRequiringWatcherUpdateAsVec) (hs : s.size ≤ t.size) :
    Idle R K Z dead t where
  trail := ht
  nil := hn
  watch := by rw [dirty_congr hv]; exact h.watch.congr hm hw hb
  flags := flagInv_congr h.flags hf hv
  wf := by rw [hm]; exact h.wf
  vars c hc l hl := (h.vars c hc l (hm ▸ hl)).trans_le hs
  sync := by rw [hm, hw]; exact h.sync
  alive := by rw [hm, dirty_congr hv]; exact h.alive

theorem Idle.undoAll (h : Idle R K Z dead s) : Idle R K Z dead s.undoAll :=
  h.congr h.trail.undoAll (by simp) (by simp) (by simp) (by simp) (by simp) (by simp) (by simp)

theorem Idle.newLevel (h : Idle R K Z dead s) : Idle R K Z dead s.newLevel :=
  h.congr h.trail.newLevel h.nil rfl rfl rfl rfl rfl (Nat.le_refl _)

theorem Idle.increaseMaxVar (h : Idle R K Z dead s) (n : Nat) : Idle R K Z dead (s.increaseMaxVar n) :=
  h.congr (h.trail.increaseMaxVar n) (by simp [h.nil]) (by simp) (by simp) (by simp) (by simp) (by simp)
    (le_increaseMaxVar_size n)

theorem Core.idle_undoAll (h : Core R K Z dead s) (hf : s.FlagInv) (hd : s.dirty = ∅) :
    Idle R K Z dead s.undoAll := by
  have hc := h.undoAll
  have hd' : s.undoAll.dirty = ∅ := by rw [dirty_congr (s := s) (by simp), hd]
  exact ⟨hc.trail, by simp, hd' ▸ hc.watch, flagInv_congr hf (by simp) (by simp), hc.wf, hc.vars,
    fun l w hw _ => ⟨hc.blocker l w hw, hc.bit l w hw⟩, fun hne => absurd hd' hne⟩

theorem Steady.undoAll (h : Steady R K Z dead s) : Idle R K Z dead s.undoAll := by
  cases h with
  | idle h => exact h.undoAll
  | ready h => exact h.core.idle_undoAll h.flags h.clean

theorem Clash.undoAll {c : ClauseRef} (h : Clash R K Z dead c s) : Idle R K Z dead s.undoAll :=
  h.core.idle_undoAll h.flags h.clean

theorem Ready.newLevel (h : Ready R K Z dead s) : Ready R K Z dead s.newLevel :=
  ⟨h.core.newLevel, h.prop.newLevel, flagInv_congr h.flags rfl rfl, h.clean⟩

theorem Steady.newLevel (h : Steady R K Z dead s) : Steady R K Z dead s.newLevel := by
  cases h with
  | idle h => exact .idle h.newLevel
  | ready h => exact .ready h.newLevel

theorem Idle.undoToLevel (h : Idle R K Z dead s) {k : Nat} (hk : k < s.currentLevel) :
    Idle R K Z dead (s.undoToLevel k) :=
  h.congr (h.trail.undoToLevel hk) (by simp [h.nil]) (by simp) (by simp) (by simp) (by simp) (by simp) (by simp)

theorem Ready.of_undoToLevel {k q : Nat} (hk : k < s.currentLevel) (hc : Core R K Z dead s)
    (hp : s.Propagated false dead q) (hf : s.FlagInv) (hd : s.dirty = ∅) : Ready R K Z dead (s.undoToLevel k) :=
  ⟨hc.undoToLevel hk, hp.undoToLevel hc.trail hk, flagInv_congr hf (by simp) (by simp),
    by rw [dirty_congr (s := s) (by simp), hd]⟩

theorem Ready.undoToLevel {k : Nat} (h : Ready R K Z dead s) (hk : k < s.currentLevel) :
    Ready R K Z dead (s.undoToLevel k) := .of_undoToLevel hk h.core h.prop h.flags h.clean

theorem Steady.undoToLevel {k : Nat} (h : Steady R K Z dead s) (hk : k < s.currentLevel) :
    Steady R K Z dead (s.undoToLevel k) := by
  cases h with
  | idle h => exact .idle (h.undoToLevel hk)
  | ready h => exact .ready (h.undoToLevel hk)

theorem Clash.undoToLevel {c : ClauseRef} {k : Nat} (h : Clash R K Z dead c s) (hk : k < s.currentLevel) :
    Ready R K Z dead (s.undoToLevel k) := by
  obtain ⟨q, hq⟩ := h.prop
  exact .of_undoToLevel hk h.core hq h.flags h.clean

/-! ## Registering the clauses of a database -/

theorem Idle.new (mem : Memory) (n : Nat) : Idle ∅ ∅ Z dead (Assignment.new mem n) where
  trail := .new mem n
  nil := rfl
  watch := .new mem n
  flags l := by simp [Assignment.new, Assignment.dirty]
  wf _ hc := hc.elim
  vars _ hc := hc.elim
  sync _ _ hw := absurd hw List.not_mem_nil
  alive hd := absurd (dirty_eq_empty_iff.mpr rfl) hd

theorem Idle.clearClauses (ht : s.TrailInv) (hn : s.trail = []) (hf : s.FlagInv) :
    Idle ∅ ∅ Z dead s.clearClauses where
  trail := (show SameTrail s s.clearClauses from ⟨rfl, rfl, rfl, rfl, rfl, rfl⟩).trailInv ht
  nil := hn
  watch := .clearClauses
  flags := flagInv_congr hf rfl rfl
  wf _ hc := hc.elim
  vars _ hc := hc.elim
  sync _ _ hw := absurd hw List.not_mem_nil
  alive _ _ hc := hc.elim

theorem registerClause_marks (s : Assignment) (c : ClauseRef) :
    (s.registerClause c).litsRequiringWatcherUpdate = s.litsRequiringWatcherUpdate ∧
      (s.registerClause c).litsRequiringWatcherUpdateAsVec = s.litsRequiringWatcherUpdateAsVec := by
  unfold Assignment.registerClause
  dsimp only
  split <;> exact ⟨rfl, rfl⟩

theorem Idle.registerClause (h : Idle R K Z dead s) {c : ClauseRef} (hc : c ∉ R) (hwf : (s.mem c).WellFormed)
    (hv : ∀ l ∈ (s.mem c).lits, l.var < s.size) (hz : (s.mem c).scheduledForDeletion = true → c ∈ Z)
    (ha : s.dirty ≠ ∅ → (s.mem c).scheduledForDeletion = false) :
    Idle (insert c R) (insert c K) Z dead (s.registerClause c) := by
  have hsame := sameTrail_registerClause s c
  obtain ⟨hf, hvec⟩ := registerClause_marks s c
  have hd : (s.registerClause c).dirty = s.dirty := dirty_congr hvec
  have hwatch : WatchInv (insert c R) (insert c K) Z (s.registerClause c).dirty (s.registerClause c) := by
    rw [hd]
    exact h.watch.registerClause hc hwf.two_le_size hz
  refine ⟨hsame.trailInv h.trail, hsame.trail.trans h.nil, hwatch, flagInv_congr h.flags hf hvec, ?_, ?_, ?_, ?_⟩
  all_goals rw [registerClause_mem]
  · intro d hdR
    rcases hdR with rfl | hdR
    · exact hwf
    · exact h.wf d hdR
  · rw [hsame.size]
    intro d hdR
    rcases hdR with rfl | hdR
    · exact hv
    · exact h.vars d hdR
  · intro l w hw hset
    rcases mem_registerClause.mp (show w ∈ (s.registerClause c).lists (false, l) from hw) with hw | ⟨i, -, rfl⟩
    · exact h.sync l w hw hset
    · have hlt : 1 - i.val < (s.mem c).size := by have := hwf.two_le_size; omega
      exact ⟨.inl (Clause.lit_mem hlt), rfl⟩
  · rw [hd]
    intro hne d hdK
    rcases hdK with rfl | hdK
    · exact ha hne
    · exact h.alive hne d hdK

theorem Idle.registerClauses {cs : List ClauseRef} (h : Idle R K Z dead s) (hn : cs.Nodup) (hc : ∀ c ∈ cs, c ∉ R)
    (hwf : ∀ c ∈ cs, (s.mem c).WellFormed) (hv : ∀ c ∈ cs, ∀ l ∈ (s.mem c).lits, l.var < s.size)
    (hz : ∀ c ∈ cs, (s.mem c).scheduledForDeletion = true → c ∈ Z)
    (ha : s.dirty ≠ ∅ → ∀ c ∈ cs, (s.mem c).scheduledForDeletion = false) :
    Idle (R ∪ {c | c ∈ cs}) (K ∪ {c | c ∈ cs}) Z dead (cs.foldl Assignment.registerClause s) := by
  induction cs generalizing R K s with
  | nil => simpa using h
  | cons c cs ih =>
    obtain ⟨hcn, hn⟩ := List.nodup_cons.mp hn
    obtain ⟨hcR, hc⟩ := List.forall_mem_cons.mp hc
    obtain ⟨hwfc, hwf⟩ := List.forall_mem_cons.mp hwf
    obtain ⟨hvc, hv⟩ := List.forall_mem_cons.mp hv
    obtain ⟨hzc, hz⟩ := List.forall_mem_cons.mp hz
    have hdirty : (s.registerClause c).dirty = s.dirty := dirty_congr (registerClause_marks s c).2
    have hnext := ih (h.registerClause hcR hwfc hvc hzc fun hd => ha hd c List.mem_cons_self) hn ?_ ?_ ?_ ?_ ?_
    · have hins : ∀ X : Set ClauseRef, insert c X ∪ {d | d ∈ cs} = X ∪ {d | d ∈ c :: cs} := fun X => by
        ext d
        simp only [Set.mem_union, Set.mem_insert_iff, Set.mem_ofPred_eq, List.mem_cons]
        tauto
      rw [hins, hins] at hnext
      exact hnext
    · intro d hd hdR
      rcases hdR with rfl | hdR
      · exact hcn hd
      · exact hc d hd hdR
    · rw [registerClause_mem]
      exact hwf
    · rw [registerClause_mem, (sameTrail_registerClause s c).size]
      exact hv
    · rw [registerClause_mem]
      exact hz
    · rw [registerClause_mem, hdirty]
      exact fun hd d hdc => ha hd d (List.mem_cons_of_mem c hdc)

/-! ## Writing clause objects -/

theorem WatchInv.of_same {stale : Set CNFLit} {mem : Memory} (h : WatchInv R K Z stale s)
    (hs : Memory.Same s.mem mem) : WatchInv R K Z stale { s with mem := mem } := by
  have hsize : ∀ c, (mem c).size = (s.mem c).size := fun c => by rw [Clause.size, hs.lits]; rfl
  have hlit : ∀ c i, (mem c).lit i = (s.mem c).lit i := fun c i => by rw [Clause.lit, hs.lits]; rfl
  refine ⟨h.placed, fun c hc => (hsize c).symm ▸ h.two_le c hc, fun l w hw hn => ?_, fun l w hw => ?_,
    fun l w hw hn hd => h.binary_alive l w hw hn (hs.scheduledForDeletion _ ▸ hd), h.pair,
    fun l m w hw w' hw' he => ?_⟩
  · obtain ⟨ha, hl, hw⟩ := h.big l w hw hn
    exact ⟨fun hd => ha (hs.scheduledForDeletion _ ▸ hd), (hsize _).symm ▸ hl, (hlit _ _).trans hw⟩
  · exact (List.Perm.of_eq (hs.lits _)).trans (h.binary l w hw)
  · obtain ⟨h₁, h₂⟩ := h.mixed l m w hw w' hw' he
    exact ⟨(hlit _ _).trans h₁, (hlit _ _).trans h₂⟩

theorem Idle.of_same {mem : Memory} (h : Idle R K Z dead s) (hs : Memory.Same s.mem mem) :
    Idle R K Z dead { s with mem := mem } where
  trail := (show SameTrail s { s with mem := mem } from ⟨rfl, rfl, rfl, rfl, rfl, rfl⟩).trailInv h.trail
  nil := h.nil
  watch := h.watch.of_same hs
  flags := flagInv_congr h.flags rfl rfl
  wf c hc := (h.wf c hc).of_perm (.of_eq (hs.lits c))
  vars c hc l hl := h.vars c hc l (hs.lits c ▸ hl)
  sync l w hw hset := by
    obtain ⟨ha, hsize, hlit⟩ := hset
    have hset : Settled s.mem Z l w :=
      ⟨fun hd => ha ((hs.scheduledForDeletion _).trans hd), by rwa [Clause.size, hs.lits] at hsize,
        by rwa [Clause.lit, hs.lits] at hlit⟩
    obtain ⟨hb, hr⟩ := h.sync l w hw hset
    exact ⟨by rw [hs.lits]; exact hb, hr.trans (hs.redundant _).symm⟩
  alive hd c hc := (hs.scheduledForDeletion c).trans (h.alive hd c hc)

section
variable {c : ClauseRef} (hc : c ∉ R) (C : Clause)
include hc

theorem WatchInv.writeFresh {stale : Set CNFLit} (h : WatchInv R K Z stale s) :
    WatchInv R K Z stale (s.writeClause c C) := by
  have hmem : ∀ {p w}, w ∈ s.lists p → (s.writeClause c C).mem w.clause = s.mem w.clause := fun hw =>
    writeClause_mem_of_ne (h.clause_ne_of_not_mem hc hw)
  refine ⟨h.placed, fun d hd => ?_, fun l w hw hn => ?_, fun l w hw => ?_, fun l w hw hn => ?_, h.pair,
    fun l m w hw w' hw' => ?_⟩
  · have hne : d ≠ c := fun he => hc (he ▸ hd)
    rw [writeClause_mem_of_ne hne]
    exact h.two_le d hd
  · obtain ⟨ha, hs, hl⟩ := h.big l w hw hn
    have hm := hmem (p := (false, l)) hw
    exact ⟨by rw [hm]; exact ha, by rw [hm]; exact hs, by rw [hm]; exact hl⟩
  · rw [hmem (p := (true, l)) hw]
    exact h.binary l w hw
  · rw [hmem (p := (true, l)) hw]
    exact h.binary_alive l w hw hn
  · rw [hmem (p := (true, l)) hw]
    exact h.mixed l m w hw w' hw'

theorem Core.writeClause (h : Core R K Z dead s) : Core R K Z dead (s.writeClause c C) := by
  have hmem : ∀ {d}, d ∈ R → (s.writeClause c C).mem d = s.mem d := fun hd =>
    writeClause_mem_of_ne fun he => hc (he ▸ hd)
  have hreg : ∀ {l w}, w ∈ s.watchers l → w.clause ∈ R := fun hw => h.watch.registered (p := (false, _)) hw
  refine ⟨(sameTrail_writeClause s c C).trailInv h.trail, h.watch.writeFresh hc C, ?_, ?_,
    ⟨h.reasons.registered, ?_⟩, ?_, ?_⟩
  · intro d hd
    rw [hmem hd]
    exact h.wf d hd
  · intro d hd
    rw [hmem hd]
    exact h.vars d hd
  · intro pre l hp d hd
    have hl : l ∈ s.trail := hp.subset (List.mem_append_right _ (List.mem_singleton_self l))
    obtain ⟨⟨hw, ho⟩, hlev⟩ := h.reasons.forced pre l hp d hd
    have hm := hmem (h.reasons.registered l hl d hd)
    exact ⟨⟨by rw [hm]; exact hw, by rw [hm]; exact ho⟩, by rw [hm]; exact hlev⟩
  · intro l w hw
    have hw : w ∈ s.watchers l := hw
    rw [hmem (hreg hw)]
    exact h.blocker l w hw
  · intro l w hw
    have hw : w ∈ s.watchers l := hw
    rw [hmem (hreg hw)]
    exact h.bit l w hw

theorem Core.propagated_writeClause (h : Core R K Z dead s) {q : Nat} (hp : s.Propagated false dead q) :
    (s.writeClause c C).Propagated false dead q := by
  refine ⟨?_, hp.binary, hp.pending⟩
  intro l hl w hw hx
  have hw : w ∈ s.watchers l := hw
  obtain ⟨x, hxm, hxt⟩ := hp.big l hl w hw hx
  have hne : w.clause ≠ c := h.watch.clause_ne_of_not_mem hc (p := (false, l)) hw
  refine ⟨x, ?_, hxt⟩
  rw [writeClause_mem_of_ne hne]
  exact hxm

theorem Ready.writeClause (h : Ready R K Z dead s) : Ready R K Z dead (s.writeClause c C) :=
  ⟨h.core.writeClause hc C, h.core.propagated_writeClause hc C h.prop, flagInv_congr h.flags rfl rfl, h.clean⟩

theorem Clash.writeClause {d : ClauseRef} (h : Clash R K Z dead d s) : Clash R K Z dead d (s.writeClause c C) := by
  obtain ⟨q, hq⟩ := h.prop
  refine ⟨h.core.writeClause hc C, h.registered, ?_, ⟨q, h.core.propagated_writeClause hc C hq⟩,
    flagInv_congr h.flags rfl rfl, h.clean⟩
  have hne : d ≠ c := fun he => hc (he ▸ h.registered)
  rw [writeClause_mem_of_ne hne]
  exact h.isFalse

theorem Idle.writeClause (h : Idle R K Z dead s) : Idle R K Z dead (s.writeClause c C) := by
  have hmem : ∀ {d}, d ∈ R → (s.writeClause c C).mem d = s.mem d := fun hd =>
    writeClause_mem_of_ne fun he => hc (he ▸ hd)
  refine ⟨(sameTrail_writeClause s c C).trailInv h.trail, h.nil, h.watch.writeFresh hc C,
    flagInv_congr h.flags rfl rfl, ?_, ?_, ?_, ?_⟩
  · intro d hd
    rw [hmem hd]
    exact h.wf d hd
  · intro d hd
    rw [hmem hd]
    exact h.vars d hd
  · intro l w hw hset
    have hw : w ∈ s.watchers l := hw
    have hm := hmem (h.watch.registered (p := (false, l)) hw)
    obtain ⟨ha, hs, hl⟩ := hset
    rw [hm] at ha hs hl ⊢
    exact h.sync l w hw ⟨ha, hs, hl⟩
  · intro hd d hdK
    rw [hmem (h.watch.kept_subset hdK)]
    exact h.alive hd d hdK

end

/-! ## One append -/

structure Appended (l : CNFLit) (r : Option ClauseRef) (s t : Assignment) : Prop where
  grows : Grows s t
  next : s.trail ++ [l] <+: t.trail
  reason : t.getReason l.var = r
  forced : ∀ x ∈ t.trail, x ∈ s.trail ∨ x = l ∨ t.getReason x.var ≠ none

theorem Appended.mem {l : CNFLit} {r : Option ClauseRef} (h : Appended l r s t) : l ∈ t.trail :=
  h.next.subset (List.mem_append_right _ (List.mem_singleton_self l))

/-- `u` is the state in which the propagation of `l` begins. -/
theorem Appended.of_fixpoint {v : Assignment} {l : CNFLit} {r : Option ClauseRef}
    {e : Option ClauseRef × Assignment}
    (ht : s.TrailInv) (hl : s.getAssignment l = .INDETERMINATE) (hv : SameTrail (s.assign l r) u)
    (hm : u.mem = s.mem) (hf : u.FlagInv) (hd : u.litsRequiringWatcherUpdateAsVec = [])
    (hs : SameTrail (s.assign l r) v)
    (hr : EndsFixpoint (Fixpoint R K Z dead false u) (Falsified R K Z dead false u) e)
    (hforced : EndsFixpoint (ForcedSince v) (fun _ => ForcedSince v) e) :
    EndsFixpoint (fun t => Ready R K Z dead t ∧ Appended l r s t)
      (fun c t => Clash R K Z dead c t ∧ Appended l r s t)
      e := by
  have hgrow : ∀ t, Extends u t → ForcedSince v t → Appended l r s t := by
    intro t he hn
    have hg : Grows (s.assign l r) t := (Grows.of_sameTrail hv hm).trans (.of_extends he)
    have hself : l ∈ (s.assign l r).trail := List.mem_append_right _ (List.mem_singleton_self l)
    refine ⟨(Grows.of_extends (Extends.assign ht hl r)).trans hg, hg.trail, ?_, fun x hx => ?_⟩
    · rw [hg.getReason hself, getReason_assign_self]
    · rcases hn x hx with hx | hx
      · rw [hs.trail] at hx
        rcases List.mem_append.mp hx with hx | hx
        · exact .inl hx
        · exact .inr (.inl (List.mem_singleton.mp hx))
      · exact .inr (.inr hx)
  have hflags : ∀ t, Extends u t → t.FlagInv ∧ t.dirty = ∅ := fun t he =>
    ⟨flagInv_congr hf he.flagMap he.flagVec, dirty_eq_empty_iff.mpr (he.flagVec.trans hd)⟩
  obtain ⟨_ | c, t⟩ := e
  · obtain ⟨h₁, h₂⟩ := hflags t hr.ext
    exact ⟨⟨hr.core, hr.prop, h₁, h₂⟩, hgrow t hr.ext hforced⟩
  · obtain ⟨h₁, h₂⟩ := hflags t hr.ext
    exact ⟨⟨hr.core, hr.registered, hr.isFalse, hr.prop, h₁, h₂⟩, hgrow t hr.ext hforced⟩

theorem Steady.append (h : Steady R K Z dead s) {l : CNFLit} (hl : s.getAssignment l = .INDETERMINATE)
    (hr : l.var < s.size) :
    EndsFixpoint (fun t => Ready R K Z dead t ∧ Appended l none s t)
      (fun c t => Clash R K Z dead c t ∧ Appended l none s t) (s.append l .includeLemmas) := by
  have hforced : EndsFixpoint (ForcedSince (s.assign l none)) (fun _ => ForcedSince (s.assign l none))
      (s.append l .includeLemmas) :=
    ForcedSince.propagateUntilFixpoint (fun x hx => .inl hx) l .includeLemmas
  have hmode : UpMode.includeLemmas = .excludeLemmas → false = true := UpMode.noConfusion
  have hself : SameTrail (s.assign l none) (s.assign l none) := ⟨rfl, rfl, rfl, rfl, rfl, rfl⟩
  have clean : Ready R K Z dead s → _ := fun h =>
    Appended.of_fixpoint h.core.trail hl hself rfl (flagInv_congr h.flags rfl rfl) h.vec_eq hself
      (append_sound hmode h.core h.prop h.vec_eq hl hr) hforced
  cases h with
  | ready h => exact clean h
  | idle h =>
    by_cases hd : s.dirty = ∅
    · exact clean (h.ready hd)
    · refine Appended.of_fixpoint h.trail hl (sameTrail_cleanupWatchers _) (cleanupWatchers_mem _) ?_ rfl hself
        (append_cleanup_sound hmode h.trail h.watch (h.alive hd) h.wf h.vars h.sync h.nil
          (mt dirty_eq_empty_iff.mpr hd) hl hr) hforced
      exact flagInv_cleanupWatchers (flagInv_congr h.flags rfl rfl)

theorem Ready.registerLemma (h : Ready R K Z dead s) {c : ClauseRef} (hc : c ∉ R) (hwf : (s.mem c).WellFormed)
    (hv : ∀ l ∈ (s.mem c).lits, l.var < s.size) (hd : (s.mem c).scheduledForDeletion = true → c ∈ Z)
    (ha : s.Asserting (s.mem c)) :
    EndsFixpoint (fun t => Ready (insert c R) (insert c K) Z dead t ∧ Appended ((s.mem c).lit 0) (some c) s t)
      (fun d t => Clash (insert c R) (insert c K) Z dead d t ∧ Appended ((s.mem c).lit 0) (some c) s t)
      (s.registerLemma c) := by
  have hsame := sameTrail_registerClause s c
  have hself : SameTrail (s.assign ((s.mem c).lit 0) (some c))
      ((s.registerClause c).assign ((s.mem c).lit 0) (some c)) := by
    unfold Assignment.registerClause; dsimp only; split <;> exact ⟨rfl, rfl, rfl, rfl, rfl, rfl⟩
  have hmarks : (s.registerClause c).litsRequiringWatcherUpdate = s.litsRequiringWatcherUpdate ∧
      (s.registerClause c).litsRequiringWatcherUpdateAsVec = s.litsRequiringWatcherUpdateAsVec := by
    unfold Assignment.registerClause; dsimp only; split <;> exact ⟨rfl, rfl⟩
  refine Appended.of_fixpoint h.core.trail ha.first hself (registerClause_mem s c)
    (flagInv_congr h.flags hmarks.1 hmarks.2) (hmarks.2.trans h.vec_eq) hself
    (registerLemma_sound h.core h.prop h.vec_eq hc hwf hv hd ha) ?_
  have hforced := ForcedSince.propagateUntilFixpoint
    (s := (s.registerClause c).assign ((s.mem c).lit 0) (some c))
    (t := (s.registerClause c).assign ((s.mem c).lit 0) (some c)) (fun x hx => .inl hx) ((s.mem c).lit 0)
    .includeLemmas
  unfold Assignment.registerLemma
  dsimp only
  rwa [registerClause_mem]

/-! ## Completeness -/

theorem Steady.notUnit (h : Steady R K Z dead s) (hdead : ∀ x ∈ dead, s.getAssignment x ≠ .TRUE) {c : ClauseRef}
    (hc : c ∈ K) : s.NotUnit (s.mem c) := by
  cases h with
  | idle h => exact .of_trail_nil h.trail h.nil (h.wf c (h.watch.kept_subset hc))
  | ready h => exact h.prop.notUnit h.core hdead hc fun he => absurd he Bool.false_ne_true

/-! ## Appending facts -/

theorem Steady.closed {facts : List CNFLit} {db : List ClauseRef} (h : Steady R K Z dead s)
    (hfacts : ∀ l ∈ facts, l ∈ s.trail) (hdead : ∀ l ∈ dead, -l ∈ facts)
    (hkept : ∀ c ∈ db, (s.mem c).scheduledForDeletion = false → c ∈ K)
    (hsat : ∀ c ∈ db, (s.mem c).scheduledForDeletion = true → ∃ x ∈ (s.mem c).lits, x ∈ facts) :
    PropagationClosed (units {l | l ∈ facts} ∪ clauseSets s.mem {c | c ∈ db}) {l | l ∈ s.trail} := by
  have ht := h.trailInv
  refine ⟨fun C hC l ho => ?_, fun l hl => ht.neg_not_mem hl⟩
  have hfact : ∀ x ∈ C, x ∈ facts → l ∈ C ∧ l ∈ s.trail := by
    intro x hx hxf
    by_cases he : x = l
    · exact he ▸ ⟨hx, hfacts x hxf⟩
    · exact absurd (ho x hx he) (ht.neg_not_mem (hfacts x hxf))
  cases hC with
  | inl hC =>
    obtain ⟨x, hx, rfl⟩ := hC
    exact hfact x (Finset.mem_singleton_self x) hx
  | inr hC =>
    obtain ⟨c, hc, rfl⟩ := hC
    by_cases hd : (s.mem c).scheduledForDeletion = true
    · obtain ⟨x, hx, hxf⟩ := hsat c hc hd
      exact hfact x (Clause.mem_litSet.mpr hx) hxf
    · have hK : c ∈ K := hkept c hc (Bool.eq_false_of_not_eq_true hd)
      have hdead' : ∀ x ∈ dead, s.getAssignment x ≠ .TRUE := fun x hx hval =>
        ht.neg_not_mem ((ht.mem_trail x).mpr hval) (hfacts _ (hdead x hx))
      obtain ⟨hl, hval⟩ := h.notUnit hdead' hK l fun x hx hne =>
        ht.neg_mem_trail.mp (ho x (Clause.mem_litSet.mpr hx) hne)
      exact ⟨Clause.mem_litSet.mpr hl, (ht.mem_trail l).mpr hval⟩

structure Grown (facts : List CNFLit) (s t : Assignment) : Prop where
  grows : Grows s t
  forced : ∀ x ∈ t.trail, x ∈ s.trail ∨ x ∈ facts ∨ t.getReason x.var ≠ none

theorem Grown.refl (facts : List CNFLit) (s : Assignment) : Grown facts s s :=
  ⟨.refl s, fun _ hx => .inl hx⟩

theorem Grown.mono {facts facts' : List CNFLit} (h : Grown facts s t) (hs : facts ⊆ facts') : Grown facts' s t :=
  ⟨h.grows, fun x hx => (h.forced x hx).imp_right (Or.imp_left fun hx => hs hx)⟩

theorem Grown.trans {facts : List CNFLit} (h : Grown facts s t) (h' : Grown facts t u) : Grown facts s u := by
  refine ⟨h.grows.trans h'.grows, fun x hx => ?_⟩
  rcases h'.forced x hx with hx | hx
  · rw [h'.grows.getReason hx]
    exact h.forced x hx
  · exact .inr hx

theorem Appended.grown {l : CNFLit} {r : Option ClauseRef} {facts : List CNFLit} (h : Appended l r s t)
    (hl : l ∈ facts) : Grown facts s t := by
  refine ⟨h.grows, fun x hx => ?_⟩
  rcases h.forced x hx with hx | hx | hx
  · exact .inl hx
  · exact .inr (.inl (hx ▸ hl))
  · exact .inr (.inr hx)

/-- Where appending facts stops at `fact`: it is false already, or it has led to a conflict. -/
inductive Stopped (R K Z : Set ClauseRef) (dead : Set CNFLit) (fact : CNFLit) (t : Assignment) : Prop
  | isFalse (h : Ready R K Z dead t) (hf : -fact ∈ t.trail)
  | clash {c : ClauseRef} (h : Clash R K Z dead c t) (hf : fact ∈ t.trail) (hr : t.getReason fact.var = none)

theorem Stopped.core {fact : CNFLit} (h : Stopped R K Z dead fact s) : Core R K Z dead s := by
  cases h with
  | isFalse h _ => exact h.core
  | clash h _ _ => exact h.core

def FactsEnd (R K Z : Set ClauseRef) (dead : Set CNFLit) (facts : List CNFLit) (s : Assignment) :
    Option CNFLit × Assignment → Prop
  | (none, t) => Steady R K Z dead t ∧ Grown facts s t ∧ ∀ l ∈ facts, l ∈ t.trail
  | (some fact, t) => Stopped R K Z dead fact t ∧ Grown facts s t ∧ fact ∈ facts

theorem FactsEnd.cons {fact : CNFLit} {facts : List CNFLit} {r : Option CNFLit × Assignment}
    (hs : Grown (fact :: facts) s t) (hf : fact ∈ t.trail) (h : FactsEnd R K Z dead facts t r) :
    FactsEnd R K Z dead (fact :: facts) s r := by
  have hsub : facts ⊆ fact :: facts := List.subset_cons_self fact facts
  obtain ⟨_ | x, u⟩ := r
  · obtain ⟨hu, hg, hm⟩ := h
    exact ⟨hu, hs.trans (hg.mono hsub), List.forall_mem_cons.mpr ⟨hg.grows.trail.subset hf, hm⟩⟩
  · obtain ⟨hu, hg, hm⟩ := h
    exact ⟨hu, hs.trans (hg.mono hsub), hsub hm⟩

theorem Steady.appendFacts {facts : List CNFLit} (h : Steady R K Z dead s) (hv : ∀ l ∈ facts, l.var < s.size) :
    FactsEnd R K Z dead facts s (s.appendFacts facts) := by
  induction facts generalizing s with
  | nil => exact ⟨h, .refl [] s, fun _ hl => absurd hl List.not_mem_nil⟩
  | cons fact facts ih =>
    obtain ⟨hvf, hv⟩ := List.forall_mem_cons.mp hv
    have ht := h.trailInv
    unfold Assignment.appendFacts
    cases hval : s.getAssignment fact with
    | TRUE => exact (ih h hv).cons (.refl _ s) ((ht.mem_trail fact).mpr hval)
    | FALSE =>
      have hf : -fact ∈ s.trail := ht.neg_mem_trail.mpr hval
      cases h with
      | idle h => rw [h.nil] at hf; cases hf
      | ready h => exact ⟨.isFalse h hf, .refl _ s, List.mem_cons_self⟩
    | INDETERMINATE =>
      have happ := h.append hval hvf
      dsimp only
      generalize s.append fact .includeLemmas = r at happ
      obtain ⟨_ | c, t⟩ := r
      · obtain ⟨hr, ha⟩ := happ
        exact (ih (.ready hr) fun l hl => (hv l hl).trans_eq ha.grows.size.symm).cons
          (ha.grown List.mem_cons_self) ha.mem
      · obtain ⟨hc, ha⟩ := happ
        exact ⟨.clash hc ha.mem ha.reason, ha.grown List.mem_cons_self, List.mem_cons_self⟩

/-! ## Unit propagation derives the trail -/

theorem TrailInv.level_le_of_before (h : s.TrailInv) {pre : List CNFLit} {l x : CNFLit}
    (hp : pre ++ [l] <+: s.trail)
    (hx : x ∈ pre) : s.getLevel x.var ≤ s.getLevel l.var := by
  obtain ⟨rest, hr⟩ := hp
  obtain ⟨i, hi, rfl⟩ := List.getElem_of_mem hx
  have hgi : s.trail[i]? = some pre[i] := by
    rw [← hr, List.append_assoc, List.getElem?_append_left hi, List.getElem?_eq_getElem hi]
  have hgl : s.trail[pre.length]? = some l := by
    rw [← hr, List.append_assoc, List.getElem?_append_right (Nat.le_refl _)]; simp
  have hlev := h.level_le l (List.mem_of_getElem? hgl)
  by_contra hlt
  have hlev' := h.level_le _ (List.mem_of_getElem? hgi)
  have h₁ := (h.lt_limit _ hlev' _ _ hgl).mpr (by omega)
  have h₂ := (h.lt_limit _ hlev' _ _ hgi).mp (by omega)
  omega

/-- Up to level `k`, the trail follows from its decisions. -/
theorem Core.derives (h : Core R K Z dead s) {Φ : Set (Finset CNFLit)} {A : Set CNFLit} {k : Nat}
    (hΦ : clauseSets s.mem R ⊆ Φ)
    (hd : ∀ l ∈ s.trail, s.getLevel l.var ≤ k → s.getReason l.var = none → Derives Φ A l) :
    ∀ l ∈ s.trail, s.getLevel l.var ≤ k → Derives Φ A l := by
  refine derives_of_closed (W := {l : CNFLit | s.getLevel l.var ≤ k}) fun pre l hp hk => ?_
  have hl : l ∈ s.trail := hp.subset (List.mem_append_right _ (List.mem_singleton_self l))
  cases hr : s.getReason l.var with
  | none => exact .inl (hd l hl hk hr)
  | some c =>
    right
    obtain ⟨⟨i, rfl⟩, ho⟩ := h.reasons.explained.reason pre l hp c hr
    have hc := h.reasons.registered _ hl c hr
    refine ⟨_, hΦ (mem_clauseSets hc), Clause.mem_litSet.mpr (Clause.lit_mem ((h.wf c hc).watch_lt i)), ?_⟩
    intro x hx hne
    have hm := ho x (Clause.mem_litSet.mp hx) hne
    exact ⟨hm, (h.trail.level_le_of_before hp hm).trans hk⟩

theorem Clash.conflict {c : ClauseRef} (h : Clash R K Z dead c s) {Φ : Set (Finset CNFLit)} {A : Set CNFLit}
    (hΦ : clauseSets s.mem R ⊆ Φ) (hd : ∀ l ∈ s.trail, Derives Φ A l) : Conflict Φ A :=
  .inl ⟨_, hΦ (mem_clauseSets h.registered), fun x hx =>
    hd (-x) (h.core.trail.neg_mem_trail.mpr (h.isFalse x (Clause.mem_litSet.mp hx)))⟩

/-! ## Facts at the root level -/

section
variable {facts : List CNFLit}

theorem Core.derives_root (h : Core R K Z dead t)
    (hs : s.trail = []) (hg : Grown facts s t) (h₀ : t.currentLevel = 0) :
    ∀ l ∈ t.trail, Derives (units {l | l ∈ facts} ∪ clauseSets t.mem R) ∅ l := by
  have hlev : ∀ l ∈ t.trail, t.getLevel l.var ≤ 0 := fun l hl => (h.trail.level_le l hl).trans_eq h₀
  refine fun l hl => h.derives Set.subset_union_right ?_ l hl (hlev l hl)
  intro x hx _ hr
  rcases hg.forced x hx with hx | hx | hx
  · rw [hs] at hx; cases hx
  · exact .of_unit (.inl (mem_units hx))
  · exact absurd hr hx

theorem Steady.derives_root (h : Steady R K Z dead t) (hs : s.trail = []) (hg : Grown facts s t)
    (h₀ : t.currentLevel = 0) : ∀ l ∈ t.trail, Derives (units {l | l ∈ facts} ∪ clauseSets t.mem R) ∅ l := by
  cases h with
  | idle hi =>
    intro l hl
    rw [hi.nil] at hl
    cases hl
  | ready hr => exact hr.core.derives_root hs hg h₀

theorem Stopped.conflict {fact : CNFLit} (h : Stopped R K Z dead fact t) (hs : s.trail = []) (hg : Grown facts s t)
    (hf : fact ∈ facts) (h₀ : t.currentLevel = 0) : Conflict (units {l | l ∈ facts} ∪ clauseSets t.mem R) ∅ := by
  cases h with
  | isFalse h hn =>
    exact .inr ⟨fact, .of_unit (.inl (mem_units hf)), h.core.derives_root hs hg h₀ _ hn⟩
  | clash h _ _ => exact h.conflict Set.subset_union_right (h.core.derives_root hs hg h₀)

theorem Stopped.undoAll {fact : CNFLit} (h : Stopped R K Z dead fact t) : Idle R K Z dead t.undoAll := by
  cases h with
  | isFalse h _ => exact (Steady.ready h).undoAll
  | clash h _ _ => exact h.undoAll

theorem Stopped.clean {fact : CNFLit} (h : Stopped R K Z dead fact t) : t.dirty = ∅ := by
  cases h with
  | isFalse h _ => exact h.clean
  | clash h _ _ => exact h.clean

theorem undoAll_dirty (s : Assignment) : s.undoAll.dirty = s.dirty :=
  dirty_congr (undoAll_litsRequiringWatcherUpdateAsVec s)

end

end Assignment

end JamSAT
