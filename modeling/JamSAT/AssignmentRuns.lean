import JamSAT.AssignmentSound
import JamSAT.WatchRuns

/-!
# The assignment over whole runs

Along every run within the contract, the trail invariant, the implication graph
and the completeness of unit propagation are kept. In a run that modifies
clauses (`mods`) this needs the condition `Repairable` at each append that
triggers a cleanup: the cleanup updates neither the blocker nor the redundancy
bit of a watcher it finds in its right list.
-/

namespace JamSAT

open KeyedLists

namespace Session

open Assignment

/-- Every watcher that the next cleanup leaves where it is agrees with its
modified clause. -/
def Repairable (σ : Session) : Prop :=
  ∀ c ∈ σ.announced, (σ.asg.mem c).scheduledForDeletion = false → 2 < (σ.asg.mem c).size →
    ∀ i : Fin 2, ∀ w ∈ σ.asg.watchers ((σ.asg.mem c).lit i), w.key = (c, i) → Synced σ.asg.mem w

instance (σ : Session) : Decidable σ.Repairable := by unfold Repairable; infer_instance

/-- No clause is registered while it is scheduled for deletion, and whenever
clauses have been modified the cleanup can repair their watchers. -/
def Careful (σ : Session) : Op → Prop
  | .registerClause c => (σ.asg.mem c).scheduledForDeletion = false
  | .registerLemma c => (σ.asg.mem c).scheduledForDeletion = false
  | .append _ _ => σ.Repairable
  | _ => True

instance (σ : Session) : ∀ op, Decidable (σ.Careful op)
  | .registerClause c => inferInstanceAs (Decidable ((σ.asg.mem c).scheduledForDeletion = false))
  | .registerLemma c => inferInstanceAs (Decidable ((σ.asg.mem c).scheduledForDeletion = false))
  | .append _ _ => inferInstanceAs (Decidable σ.Repairable)
  | .increaseMaxVar _ => .isTrue trivial
  | .registerClauseModification _ => .isTrue trivial
  | .modify _ _ => .isTrue trivial
  | .clearClauses => .isTrue trivial
  | .newLevel => .isTrue trivial
  | .undoToLevel _ => .isTrue trivial
  | .undoAll => .isTrue trivial

def Basic (σ : Session) (op : Op) : Prop := σ.Legal op ∧ op.isBasic = true

def BasicIncluding (σ : Session) (op : Op) : Prop := σ.Basic op ∧ op.includesLemmas = true

instance (σ : Session) (op : Op) : Decidable (σ.Basic op) :=
  inferInstanceAs (Decidable (σ.Legal op ∧ op.isBasic = true))

instance (σ : Session) (op : Op) : Decidable (σ.BasicIncluding op) :=
  inferInstanceAs (Decidable (σ.Basic op ∧ op.includesLemmas = true))

structure AsgRun (mods : Bool) (σ : Session) : Prop where
  lists : WatchRun mods σ
  trail : σ.asg.TrailInv
  wf : ∀ c ∈ σ.registered, (σ.asg.mem c).WellFormed
  vars : ∀ c ∈ σ.registered, ∀ l ∈ (σ.asg.mem c).lits, l.var < σ.asg.size
  reasons : σ.asg.ReasonInv {c | c ∈ σ.registered}
  synced : ∀ l, ∀ w ∈ σ.asg.watchers l, w.clause ∉ σ.announced → Synced σ.asg.mem w
  announced_long : ∀ c ∈ σ.announced, c ∈ σ.long
  announced_dirty : ∀ c ∈ σ.announced, σ.asg.dirty ≠ ∅
  idle : σ.asg.dirty ≠ ∅ → σ.asg.trail = [] ∧ σ.conflict = none
  prop : σ.conflict = none → σ.asg.Propagated σ.excluded ∅ σ.asg.trail.length
  conflict : ∀ c, σ.conflict = some c → c ∈ σ.registered ∧
    (∀ x ∈ (σ.asg.mem c).lits, σ.asg.getAssignment x = .FALSE) ∧ ∃ q, σ.asg.Propagated σ.excluded ∅ q
  punctual : mods = true → σ.predeleted = []

namespace AsgRun

variable {mods : Bool} {σ : Session}

theorem new (mem : ClauseRef → Clause) (n : Nat) : AsgRun mods (Session.new mem n) where
  lists := WatchRun.new mem n
  trail := TrailInv.new mem n
  wf := by simp [Session.new]
  vars := by simp [Session.new]
  reasons := ReasonInv.of_trail_nil rfl
  synced l w hw := nomatch hw
  announced_long := by simp [Session.new]
  announced_dirty := by simp [Session.new]
  idle h := absurd (dirty_eq_empty_iff.mpr rfl) h
  prop _ := Propagated.of_trail_nil rfl _
  conflict c hc := nomatch hc
  punctual _ := rfl

section
variable (h : AsgRun mods σ)
include h

theorem watchable {op : Op} (hok : σ.Legal op) : σ.Watchable op := by
  cases op with
  | registerClause c => exact ⟨hok.2.2.1, hok.2.2.2.1.two_le_size⟩
  | registerLemma c => exact ⟨hok.2.1, hok.2.2.1.two_le_size⟩
  | registerClauseModification c => exact hok.2.2.1
  | modify c cl =>
    obtain ⟨ha, hs, -, hd⟩ := hok
    exact .inr ⟨ha, hs, .inl (h.announced_long c ha), hd⟩
  | _ => trivial

theorem core (hd : σ.asg.dirty = ∅) :
    Core {c | c ∈ σ.registered} (σ.kept mods) {c | c ∈ σ.predeleted} ∅ σ.asg where
  trail := h.trail
  watch := hd ▸ h.lists.watch
  wf := h.wf
  vars := h.vars
  reasons := h.reasons
  blocker l w hw := .inl (h.synced l w hw fun ha => h.announced_dirty _ ha hd).blocker
  bit l w hw := (h.synced l w hw fun ha => h.announced_dirty _ ha hd).redundant

omit h in
/-- The state after a propagation of an up-to-date assignment `s`. -/
theorem propagated {τ : Session} {s : Assignment} {r : Option ClauseRef × Assignment} {K Z : Set ClauseRef}
    (hl : WatchRun mods (τ.propagated r)) (hp : mods = true → τ.predeleted = [])
    (hv : s.litsRequiringWatcherUpdateAsVec = [])
    (hr : EndsFixpoint (Fixpoint {c | c ∈ τ.registered} K Z ∅ τ.excluded s)
      (Falsified {c | c ∈ τ.registered} K Z ∅ τ.excluded s) r) : AsgRun mods (τ.propagated r) := by
  have key : ∀ t : Assignment, Core {c | c ∈ τ.registered} K Z ∅ t → Extends s t → r.2 = t →
      (r.1 = none → t.Propagated τ.excluded ∅ t.trail.length) →
      (∀ c, r.1 = some c → c ∈ τ.registered ∧ (∀ x ∈ (t.mem c).lits, t.getAssignment x = .FALSE) ∧
        ∃ q, t.Propagated τ.excluded ∅ q) → AsgRun mods (τ.propagated r) := by
    rintro t hc he rfl h₁ h₂
    have hd : (τ.propagated r).asg.dirty = ∅ := dirty_eq_empty_iff.mpr (he.flagVec.trans hv)
    exact ⟨hl, hc.trail, hc.wf, hc.vars, hc.reasons,
      fun l w hw _ => ⟨(hc.blocker l w hw).resolve_right (Set.notMem_empty _), hc.bit l w hw⟩,
      by simp [Session.propagated], by simp [Session.propagated], fun hne => absurd hd hne, h₁, h₂, hp⟩
  obtain ⟨_ | c, t⟩ := r
  · exact key t hr.core hr.ext rfl (fun _ => hr.prop) fun _ hc => absurd hc.symm (Option.some_ne_none _)
  · exact key t hr.core hr.ext rfl (fun hc => absurd hc (Option.some_ne_none _)) fun d hd =>
      Option.some.inj hd ▸ ⟨hr.registered, hr.isFalse, hr.prop⟩

theorem trail_of_pending (hd : σ.asg.dirty ≠ ∅) : σ.asg.trail = [] := (h.idle hd).1

theorem retrail {t : Assignment} {r : Option ClauseRef} {e : Bool}
    (hl : WatchRun mods { σ with asg := t, conflict := r, excluded := e })
    (ht : t.TrailInv) (hm : t.mem = σ.asg.mem) (hw : t.watchers = σ.asg.watchers)
    (hv : t.litsRequiringWatcherUpdateAsVec = σ.asg.litsRequiringWatcherUpdateAsVec)
    (hs : σ.asg.size ≤ t.size) (hp : t.trail <+: σ.asg.trail)
    (hk : ∀ l ∈ t.trail, t.reasonsAndALs l.var = σ.asg.reasonsAndALs l.var) (hr : r = none)
    (hprop : t.Propagated e ∅ t.trail.length) :
    AsgRun mods { σ with asg := t, conflict := r, excluded := e } where
  lists := hl
  trail := ht
  wf := by simp only [hm]; exact h.wf
  vars c hc l hl := (h.vars c hc l (by simpa only [hm] using hl)).trans_le hs
  reasons := h.reasons.transfer (Set.Subset.refl _) hm hp hk
  synced := by simp only [hm, hw]; exact h.synced
  announced_long := h.announced_long
  announced_dirty c hc := by
    have : t.dirty = σ.asg.dirty := by rw [dirty, dirty, hv]
    rw [this]; exact h.announced_dirty c hc
  idle hd := by
    have : t.dirty = σ.asg.dirty := by rw [dirty, dirty, hv]
    rw [this] at hd
    exact ⟨List.prefix_nil.mp (h.trail_of_pending hd ▸ hp), hr⟩
  prop _ := hprop
  conflict c hc := by rw [hr] at hc; cases hc
  punctual := h.punctual

theorem increaseMaxVar {n : Nat}
    (hok : σ.Legal (.increaseMaxVar n)) (hl : WatchRun mods (σ.exec (.increaseMaxVar n))) :
    AsgRun mods (σ.exec (.increaseMaxVar n)) :=
  h.retrail hl (h.trail.increaseMaxVar n) (by simp) (by simp) (by simp) (le_increaseMaxVar_size n) (by simp)
    (fun _ hl => increaseMaxVar_kept h.trail (by simpa using hl)) hok.1
    ((h.prop hok.1).increaseMaxVar h.trail n)

theorem newLevel (hok : σ.Legal .newLevel) (hl : WatchRun mods (σ.exec .newLevel)) :
    AsgRun mods (σ.exec .newLevel) :=
  h.retrail hl h.trail.newLevel rfl rfl rfl (Nat.le_refl _) (List.prefix_refl _) (fun _ _ => rfl) hok
    (h.prop hok).newLevel

theorem undoToLevel {k : Nat} (hok : σ.Legal (.undoToLevel k)) (hl : WatchRun mods (σ.exec (.undoToLevel k))) :
    AsgRun mods (σ.exec (.undoToLevel k)) := by
  refine h.retrail hl (h.trail.undoToLevel hok) (by simp) (by simp) (by simp) (by simp)
    (by rw [undoToLevel_trail]; exact List.take_prefix _ _) (fun _ _ => by simp) rfl ?_
  by_cases hnil : (σ.asg.undoToLevel k).trail = []
  · exact Propagated.of_trail_nil hnil _
  · have hex : σ.excluded = true → (σ.excluded && !(σ.asg.undoToLevel k).trail.isEmpty) = true := by
      intro he
      rw [he, Bool.true_and, Bool.not_eq_true', List.isEmpty_eq_false_iff]
      exact hnil
    refine Propagated.mono ?_ hex
    cases hc : σ.conflict with
    | none => exact (h.prop hc).undoToLevel h.trail hok
    | some c =>
      obtain ⟨-, -, q, hq⟩ := h.conflict c hc
      exact hq.undoToLevel h.trail hok

theorem undoAll (hl : WatchRun mods (σ.exec .undoAll)) : AsgRun mods (σ.exec .undoAll) :=
  h.retrail hl h.trail.undoAll (by simp) (by simp) (by simp) (by simp) (by simp) (by simp) rfl
    (Propagated.of_trail_nil (by simp) _)

theorem registerClause {c : ClauseRef} (hok : σ.Legal (.registerClause c))
    (ha : mods = true → (σ.asg.mem c).scheduledForDeletion = false)
    (hl : WatchRun mods (σ.exec (.registerClause c))) : AsgRun mods (σ.exec (.registerClause c)) := by
  obtain ⟨hconf, hnil, hc, hwf, hv⟩ := hok
  have hsame := sameTrail_registerClause σ.asg c
  have hnil' : (σ.asg.registerClause c).trail = [] := by rw [hsame.trail, hnil]
  have hd : (σ.asg.registerClause c).dirty = σ.asg.dirty := by
    unfold Assignment.registerClause; dsimp only; split <;> rfl
  refine ⟨hl, hsame.trailInv h.trail, ?_, ?_, ReasonInv.of_trail_nil hnil', ?_, h.announced_long, ?_, ?_,
    fun _ => Propagated.of_trail_nil hnil' _, ?_, ?_⟩
  · show ∀ d ∈ c :: σ.registered, ((σ.asg.registerClause c).mem d).WellFormed
    rw [registerClause_mem]
    exact List.forall_mem_cons.mpr ⟨hwf, h.wf⟩
  · show ∀ d ∈ c :: σ.registered, ∀ l ∈ ((σ.asg.registerClause c).mem d).lits,
      l.var < (σ.asg.registerClause c).size
    rw [registerClause_mem, hsame.size]
    exact List.forall_mem_cons.mpr ⟨hv, h.vars⟩
  · intro l w hw hna
    show Synced (σ.asg.registerClause c).mem w
    rw [registerClause_mem]
    rcases mem_registerClause.mp (show w ∈ (σ.asg.registerClause c).lists (false, l) from hw) with
      hw | ⟨i, -, rfl⟩
    · exact h.synced l w hw hna
    · have hlt : 1 - i.val < (σ.asg.mem c).size := by have := hwf.two_le_size; omega
      exact ⟨Clause.lit_mem hlt, rfl⟩
  · intro d hd'
    show (σ.asg.registerClause c).dirty ≠ ∅
    rw [hd]; exact h.announced_dirty d hd'
  · exact fun _ => ⟨hnil', hconf⟩
  · intro d hd'
    exact absurd (hconf.symm.trans hd') (by simp)
  · intro hm
    show (σ.enter c).predeleted = []
    simp [enter, ha hm, h.punctual hm]

theorem registerClauseModification {c : ClauseRef} (hok : σ.Legal (.registerClauseModification c))
    (hl : WatchRun mods (σ.exec (.registerClauseModification c))) :
    AsgRun mods (σ.exec (.registerClauseModification c)) := by
  obtain ⟨hconf, hnil, hc, hs⟩ := hok
  obtain ⟨D, V, he⟩ := registerClauseModification_eq σ.asg c
  have hsame : SameTrail σ.asg (σ.asg.registerClauseModification c) := by
    rw [he]; exact ⟨rfl, rfl, rfl, rfl, rfl, rfl⟩
  have hnil' : (σ.asg.registerClauseModification c).trail = [] := by rw [hsame.trail, hnil]
  have hmem : (σ.asg.registerClauseModification c).mem = σ.asg.mem := by rw [he]
  have hlong : (σ.exec (.registerClauseModification c)).long = c :: σ.long := if_pos hs
  refine ⟨hl, hsame.trailInv h.trail, ?_, ?_, ReasonInv.of_trail_nil hnil', ?_, ?_, ?_,
    fun _ => ⟨hnil', hconf⟩, fun _ => Propagated.of_trail_nil hnil' _, ?_, h.punctual⟩
  · show ∀ d ∈ σ.registered, ((σ.asg.registerClauseModification c).mem d).WellFormed
    rw [hmem]; exact h.wf
  · show ∀ d ∈ σ.registered, ∀ l ∈ ((σ.asg.registerClauseModification c).mem d).lits,
      l.var < (σ.asg.registerClauseModification c).size
    rw [hmem, hsame.size]; exact h.vars
  · intro l w hw hna
    show Synced (σ.asg.registerClauseModification c).mem w
    rw [hmem]
    have hw : w ∈ (σ.asg.registerClauseModification c).watchers l := hw
    rw [he] at hw
    exact h.synced l w hw fun ha => hna (List.mem_cons_of_mem _ ha)
  · intro d hd
    rw [hlong]
    rcases List.mem_cons.mp hd with rfl | hd
    · exact List.mem_cons_self
    · exact List.mem_cons_of_mem _ (h.announced_long d hd)
  · intro d _
    show (σ.asg.registerClauseModification c).dirty ≠ ∅
    rw [dirty_registerClauseModification h.lists.flags]
    exact fun he => Set.notMem_empty _ (he ▸ Set.mem_insert _ _)
  · intro d hd
    exact absurd (hconf.symm.trans hd) (by simp)

theorem modify {c : ClauseRef} {cl : Clause} (hok : σ.Legal (.modify c cl))
    (hl : WatchRun mods (σ.exec (.modify c cl))) : AsgRun mods (σ.exec (.modify c cl)) := by
  obtain ⟨ha, hs, hsub, -⟩ := hok
  obtain ⟨hnil, hconf⟩ := h.idle (h.announced_dirty c ha)
  have hc := h.lists.announced_registered c ha
  have hnil' : (σ.asg.writeClause c cl).trail = [] := hnil
  refine ⟨hl, (sameTrail_writeClause σ.asg c cl).trailInv h.trail, ?_, ?_, ReasonInv.of_trail_nil hnil', ?_,
    h.announced_long, h.announced_dirty, h.idle, fun _ => Propagated.of_trail_nil hnil' _, ?_, h.punctual⟩
  · intro d hd
    show ((σ.asg.writeClause c cl).mem d).WellFormed
    by_cases hdc : d = c
    · subst hdc
      rw [writeClause_mem_self]
      refine ⟨hs, ?_⟩
      obtain ⟨xs, hp, hx⟩ := hsub
      exact (hp.map _).nodup_iff.mp ((h.wf d hc).nodup_vars.sublist (hx.map _))
    · rw [writeClause_mem_of_ne hdc]; exact h.wf d hd
  · intro d hd l hld
    have hld : l ∈ ((σ.asg.writeClause c cl).mem d).lits := hld
    by_cases hdc : d = c
    · subst hdc
      rw [writeClause_mem_self] at hld
      exact h.vars d hc l (hsub.subset hld)
    · rw [writeClause_mem_of_ne hdc] at hld; exact h.vars d hd l hld
  · intro l w hw hna
    have hne : w.clause ≠ c := fun e => hna (e ▸ ha)
    obtain ⟨h₁, h₂⟩ := h.synced l w hw hna
    exact ⟨by rw [exec, writeClause_mem_of_ne hne]; exact h₁, by rw [exec, writeClause_mem_of_ne hne]; exact h₂⟩
  · intro d hd
    exact absurd (hconf.symm.trans hd) (by simp)

theorem clearClauses (hok : σ.Legal .clearClauses) (hl : WatchRun mods (σ.exec .clearClauses)) :
    AsgRun mods (σ.exec .clearClauses) := by
  obtain ⟨hconf, hnil⟩ := hok
  have hsame : SameTrail σ.asg σ.asg.clearClauses := ⟨rfl, rfl, rfl, rfl, rfl, rfl⟩
  have hnil' : σ.asg.clearClauses.trail = [] := hnil
  refine ⟨hl, hsame.trailInv h.trail, by simp [exec], by simp [exec], ReasonInv.of_trail_nil hnil',
    (fun l w hw => nomatch hw), by simp [exec], by simp [exec], fun _ => ⟨hnil', hconf⟩,
    fun _ => Propagated.of_trail_nil hnil' _, ?_, fun _ => rfl⟩
  intro d hd
  exact absurd (hconf.symm.trans hd) (by simp)

theorem append {l : CNFLit} {mode : UpMode} (hok : σ.Legal (.append l mode))
    (hrep : mods = true → σ.Repairable) (hl : WatchRun mods (σ.exec (.append l mode))) :
    AsgRun mods (σ.exec (.append l mode)) := by
  obtain ⟨hconf, hind, hlt⟩ := hok
  have hmode : mode = .excludeLemmas → (σ.excluded || mode == UpMode.excludeLemmas) = true := by
    rintro rfl; simp
  have hex : σ.excluded = true → (σ.excluded || mode == UpMode.excludeLemmas) = true := by
    intro he; simp [he]
  by_cases hd : σ.asg.dirty = ∅
  · have hv := dirty_eq_empty_iff.mp hd
    exact propagated (τ := { σ with excluded := σ.excluded || mode == UpMode.excludeLemmas })
      (s := σ.asg.assign l none) hl h.punctual hv
      (append_sound hmode (h.core hd) ((h.prop hconf).mono hex) hv hind hlt)
  · have hmods : mods = true := Bool.eq_true_of_not_eq_false fun hm => hd (h.lists.basic hm)
    have hsync : ∀ l, ∀ w ∈ σ.asg.watchers l, Settled σ.asg.mem {c | c ∈ σ.predeleted} l w →
        Synced σ.asg.mem w := by
      intro l w hw hset
      by_cases ha : w.clause ∈ σ.announced
      · refine hrep hmods _ ha (Bool.eq_false_of_not_eq_true fun hdel => ?_) hset.size w.index w
          (by rwa [hset.lit]) rfl
        have hz : w.clause ∈ σ.predeleted := hset.alive hdel
        rw [h.punctual hmods] at hz; cases hz
      · exact h.synced l w hw ha
    exact propagated (τ := { σ with excluded := σ.excluded || mode == UpMode.excludeLemmas })
      (s := (σ.asg.assign l none).cleanupWatchers) hl h.punctual rfl
      (append_cleanup_sound hmode h.trail h.lists.watch (fun c hc => hc.2 hmods) h.wf h.vars
        (fun l w hw hset => ⟨.inl (hsync l w hw hset).blocker, (hsync l w hw hset).redundant⟩)
        (h.trail_of_pending hd) (mt dirty_eq_empty_iff.mpr hd) hind hlt)

theorem registerLemma {c : ClauseRef} (hok : σ.Legal (.registerLemma c))
    (ha : mods = true → (σ.asg.mem c).scheduledForDeletion = false)
    (hl : WatchRun mods (σ.exec (.registerLemma c))) : AsgRun mods (σ.exec (.registerLemma c)) := by
  obtain ⟨hconf, hc, hwf, hvars, h₀, h₁, h₂⟩ := hok
  -- the second literal is assigned, so no cleanup can be pending
  have hd : σ.asg.dirty = ∅ := by
    by_contra hd
    have hne : (σ.asg.mem c).lit 1 ≠ (σ.asg.mem c).lit 0 := fun he =>
      absurd (hwf.lit_inj hwf.two_le_size (hwf.watch_lt 0) he) (by decide)
    have hm := h.trail.neg_mem_trail.mpr (h₁ _ (Clause.lit_mem hwf.two_le_size) hne)
    rw [h.trail_of_pending hd] at hm; cases hm
  have hv := dirty_eq_empty_iff.mp hd
  have hcore : Core {d | d ∈ σ.registered} (σ.kept mods) {d | d ∈ (σ.enter c).predeleted} ∅ σ.asg := by
    obtain ⟨i₁, i₂, i₃, i₄, i₅, i₆, i₇⟩ := h.core hd
    refine ⟨i₁, i₂.mono (Set.Subset.refl _) ?_ (Set.Subset.refl _), i₃, i₄, i₅, i₆, i₇⟩
    intro d hd
    show d ∈ (σ.enter c).predeleted
    unfold enter
    split
    · exact List.mem_cons_of_mem _ hd
    · exact hd
  have hset : insert c {d | d ∈ σ.registered} = {d | d ∈ (σ.enter c).registered} := by
    ext d; exact List.mem_cons.symm
  have hr := registerLemma_sound hcore (h.prop hconf) hv hc hwf hvars
    (fun hdel => by simp [enter, hdel]) ⟨h₀, h₁, h₂⟩
  rw [hset] at hr
  refine propagated (τ := σ.enter c) hl ?_ ?_ hr
  · intro hm
    simp [enter, ha hm, h.punctual hm]
  · show (σ.asg.registerClause c).litsRequiringWatcherUpdateAsVec = []
    unfold Assignment.registerClause; dsimp only; split <;> exact hv

theorem exec {op : Op} (hok : σ.Legal op) (hm : mods = false → op.isBasic = true)
    (hc : mods = true → σ.Careful op) : AsgRun mods (σ.exec op) := by
  have hl := h.lists.exec (h.watchable hok) hm
  cases op with
  | increaseMaxVar n => exact h.increaseMaxVar hok hl
  | registerClause c => exact h.registerClause hok hc hl
  | registerLemma c => exact h.registerLemma hok hc hl
  | registerClauseModification c => exact h.registerClauseModification hok hl
  | modify c cl => exact h.modify hok hl
  | clearClauses => exact h.clearClauses hok hl
  | newLevel => exact h.newLevel hok hl
  | append l mode => exact h.append hok hc hl
  | undoToLevel k => exact h.undoToLevel hok hl
  | undoAll => exact h.undoAll hl

end

theorem of_basic (h : Session.Reachable Basic σ) : AsgRun false σ :=
  Runs.Reachable.invariant h (fun _ ⟨mem, n, he⟩ => he ▸ new mem n)
    fun _ _ hσ ⟨_, hok, he⟩ => he ▸ hσ.exec hok.1 (fun _ => hok.2) fun hm => absurd hm Bool.false_ne_true

theorem of_careful (h : Session.Reachable (fun σ op => σ.Legal op ∧ σ.Careful op) σ) : AsgRun true σ :=
  Runs.Reachable.invariant h (fun _ ⟨mem, n, he⟩ => he ▸ new mem n)
    fun _ _ hσ ⟨_, hok, he⟩ => he ▸ hσ.exec hok.1 (fun hm => absurd hm.symm Bool.false_ne_true) fun _ => hok.2

variable (h : AsgRun mods σ)
include h

theorem notUnit (hc : σ.conflict = none) {c : ClauseRef} (hk : c ∈ σ.kept mods)
    (hex : σ.excluded = true → (σ.asg.mem c).redundant = true → (σ.asg.mem c).size = 2) :
    σ.asg.NotUnit (σ.asg.mem c) := by
  by_cases hd : σ.asg.dirty = ∅
  · exact (h.prop hc).notUnit (h.core hd) (fun _ hx => hx.elim) hk hex
  · exact .of_trail_nil h.trail (h.trail_of_pending hd) (h.wf c hk.1)

theorem conflict_level {c : ClauseRef} (hc : σ.conflict = some c) (hk : c ∈ σ.kept mods)
    (hex : σ.excluded = true → (σ.asg.mem c).redundant = true → (σ.asg.mem c).size = 2) (i : Fin 2) :
    σ.asg.getLevel ((σ.asg.mem c).lit i).var = σ.asg.currentLevel := by
  have hd : σ.asg.dirty = ∅ := by
    by_contra hd
    exact absurd ((h.idle hd).2.symm.trans hc) (by simp)
  obtain ⟨-, hf, q, hq⟩ := h.conflict c hc
  exact hq.conflict_level (h.core hd) (fun _ hx => hx.elim) hk hex hf i

end AsgRun

/-! ## Runs without modifications -/

theorem excluded_of_including {σ : Session} (h : Session.Reachable BasicIncluding σ) :
    σ.excluded = false := by
  refine Runs.Reachable.invariant (I := fun σ => σ.excluded = false) h ?_ ?_
  · rintro _ ⟨mem, n, rfl⟩; rfl
  · rintro σ _ hσ ⟨op, hok, rfl⟩
    cases op with
    | append l mode =>
      cases mode with
      | includeLemmas => simp [exec, Session.propagated, hσ]
      | excludeLemmas => exact absurd hok.2 Bool.false_ne_true
    | undoToLevel k => simp [exec, undone, hσ]
    | undoAll => simp [exec, undone, hσ]
    | _ => exact hσ

/-- Unit propagation is complete: without a conflict, no registered clause is
falsified and none is left with a single unassigned literal. -/
theorem propagation_complete {σ : Session} (h : Session.Reachable BasicIncluding σ) (hc : σ.conflict = none)
    {c : ClauseRef} (hr : c ∈ σ.registered) :
    (¬ ∀ x ∈ (σ.asg.mem c).lits, σ.asg.getAssignment x = .FALSE) ∧
      ¬ ∃ u ∈ (σ.asg.mem c).lits, σ.asg.getAssignment u = .INDETERMINATE ∧
        ∀ x ∈ (σ.asg.mem c).lits, x ≠ u → σ.asg.getAssignment x = .FALSE := by
  have hrun : AsgRun false σ := AsgRun.of_basic (Runs.Reachable.mono h fun _ _ ⟨op, hok, he⟩ => ⟨op, hok.1, he⟩)
  have hn : σ.asg.NotUnit (σ.asg.mem c) := hrun.notUnit hc ⟨hr, fun hm => absurd hm Bool.false_ne_true⟩
    fun hex => absurd (hex.symm.trans (excluded_of_including h)) (by decide)
  exact ⟨hn.not_falsified, fun ⟨u, _, hu, hf⟩ => hn.not_unit hu hf⟩

def chain : Session :=
  [Op.registerClause 0, .registerClause 1, .newLevel, .append ⟨0, .positive⟩ .includeLemmas, .newLevel,
    .append ⟨1, .positive⟩ .includeLemmas].foldl exec
    (new (fun c => if c = 0 then .ofLits [⟨0, .negative⟩, ⟨1, .positive⟩, ⟨2, .positive⟩]
      else .ofLits [⟨1, .negative⟩, ⟨2, .positive⟩]) 2)

theorem chain_complete : (¬ ∀ x ∈ (chain.asg.mem 0).lits, chain.asg.getAssignment x = .FALSE) ∧
    ¬ ∃ u ∈ (chain.asg.mem 0).lits, chain.asg.getAssignment u = .INDETERMINATE ∧
      ∀ x ∈ (chain.asg.mem 0).lits, x ≠ u → chain.asg.getAssignment x = .FALSE :=
  propagation_complete (σ := chain) (Reachable.foldl (.new _ _ _) (by decide)) (by decide) (c := 0) (by decide)

/-- The implication graph. The last part, that a conflict has two literals on
the current level, needs that its clause has not been left out since the trail
was last empty. -/
theorem implication_graph {σ : Session} (h : Session.Reachable Basic σ) :
    (σ.asg.trail.map CNFLit.var).Nodup ∧ σ.asg.trail.length ≤ σ.asg.size ∧
    (∀ l, l ∈ σ.asg.trail ↔ σ.asg.getAssignment l = .TRUE) ∧
    (σ.asg.levelLimits.length = σ.asg.currentLevel + 1 ∧ σ.asg.levelLimits.Pairwise (· ≤ ·) ∧
      ∀ k ≤ σ.asg.currentLevel, ∀ l,
        l ∈ σ.asg.getLevelAssignments k ↔ l ∈ σ.asg.trail ∧ σ.asg.getLevel l.var = k) ∧
    (∀ pre l, pre ++ [l] <+: σ.asg.trail → ∀ c, σ.asg.getReason l.var = some c →
      c ∈ σ.registered ∧ (l = (σ.asg.mem c).lit 0 ∨ l = (σ.asg.mem c).lit 1) ∧
      (∀ x ∈ (σ.asg.mem c).lits, x ≠ l → σ.asg.getAssignment x = .FALSE ∧ -x ∈ pre) ∧
      (0 < σ.asg.getLevel l.var →
        ∃ x ∈ (σ.asg.mem c).lits, x ≠ l ∧ σ.asg.getLevel x.var = σ.asg.getLevel l.var)) ∧
    ∀ c, σ.conflict = some c → (∀ x ∈ (σ.asg.mem c).lits, σ.asg.getAssignment x = .FALSE) ∧
      (0 < σ.asg.currentLevel →
        (σ.excluded = true → (σ.asg.mem c).redundant = true → (σ.asg.mem c).size = 2) →
        ∃ x ∈ (σ.asg.mem c).lits, ∃ y ∈ (σ.asg.mem c).lits, x ≠ y ∧
          σ.asg.getLevel x.var = σ.asg.currentLevel ∧ σ.asg.getLevel y.var = σ.asg.currentLevel) := by
  have hrun := AsgRun.of_basic h
  have ht := hrun.trail
  refine ⟨ht.nodup_vars, ht.length_le, ht.mem_trail, ⟨ht.limits_length, ht.pairwise_levelLimits,
    fun k hk l => ht.mem_getLevelAssignments hk⟩, ?_, ?_⟩
  · intro pre l hp c hc
    have hl : l ∈ σ.asg.trail := hp.subset (List.mem_append_right _ (List.mem_singleton_self l))
    obtain ⟨⟨⟨i, hi⟩, ho⟩, hlev⟩ := hrun.reasons.forced pre l hp c hc
    refine ⟨hrun.reasons.registered l hl c hc, ?_, fun x hx hne => ?_, hlev⟩
    · rcases eq_or_eq_one_sub 0 i with rfl | rfl
      · exact .inl hi.symm
      · exact .inr hi.symm
    · have hx := ho x hx hne
      exact ⟨ht.neg_mem_trail.mp (hp.subset (List.mem_append_left _ hx)), hx⟩
  · intro c hc
    obtain ⟨hr, hf, -⟩ := hrun.conflict c hc
    have hwf := hrun.wf c hr
    have hlev := hrun.conflict_level hc ⟨hr, fun hm => absurd hm Bool.false_ne_true⟩
    refine ⟨hf, fun _ hex => ⟨_, Clause.lit_mem (hwf.watch_lt 0), _, Clause.lit_mem (hwf.watch_lt 1),
      fun he => ?_, hlev hex 0, hlev hex 1⟩⟩
    exact absurd (hwf.lit_inj (hwf.watch_lt 0) (hwf.watch_lt 1) he) (by decide)

theorem chain_implication_graph :
    (chain.asg.trail.map CNFLit.var).Nodup ∧ chain.asg.trail.length ≤ chain.asg.size ∧
    (∀ l, l ∈ chain.asg.trail ↔ chain.asg.getAssignment l = .TRUE) ∧
    (chain.asg.levelLimits.length = 3 ∧ chain.asg.levelLimits.Pairwise (· ≤ ·) ∧
      ∀ k ≤ 2, ∀ l, l ∈ chain.asg.getLevelAssignments k ↔ l ∈ chain.asg.trail ∧ chain.asg.getLevel l.var = k) ∧
    chain.asg.getReason 2 = some 1 ∧ (∀ x ∈ (chain.asg.mem 1).lits, x ≠ ⟨2, .positive⟩ →
      chain.asg.getAssignment x = .FALSE ∧ -x ∈ [⟨0, .positive⟩, (⟨1, .positive⟩ : CNFLit)]) ∧
    ∃ x ∈ (chain.asg.mem 1).lits, x ≠ ⟨2, .positive⟩ ∧ chain.asg.getLevel x.var = chain.asg.getLevel 2 := by
  obtain ⟨hnodup, hlength, htrail, hlevels, hreasons, -⟩ :=
    implication_graph (σ := chain) (Reachable.foldl (.new _ _ _) (by decide))
  have hprefix : [⟨0, .positive⟩, ⟨1, .positive⟩] ++ [⟨2, .positive⟩] <+: chain.asg.trail := by decide
  have hreason : chain.asg.getReason 2 = some 1 := by decide
  obtain ⟨-, -, hfalse, hlevel⟩ := hreasons _ _ hprefix 1 hreason
  exact ⟨hnodup, hlength, htrail, hlevels, hreason, hfalse, hlevel (by decide)⟩

/-- A redundant clause left out on the first level turns up as a conflict with
one literal on each of three levels. -/
theorem excluded_conflict : ∃ σ, Session.Reachable Basic σ ∧ 0 < σ.asg.currentLevel ∧
    ∃ c, σ.conflict = some c ∧ ¬ ∃ x ∈ (σ.asg.mem c).lits, ∃ y ∈ (σ.asg.mem c).lits, x ≠ y ∧
      σ.asg.getLevel x.var = σ.asg.currentLevel ∧ σ.asg.getLevel y.var = σ.asg.currentLevel := by
  refine ⟨[Op.registerClause 0, .newLevel, .append ⟨0, .negative⟩ .excludeLemmas, .newLevel,
      .append ⟨1, .negative⟩ .includeLemmas, .newLevel, .append ⟨2, .negative⟩ .includeLemmas].foldl exec
      (new (fun _ => ⟨[⟨0, .positive⟩, ⟨1, .positive⟩, ⟨2, .positive⟩], true, false, false⟩) 2),
    Reachable.foldl (.new _ _ _) (by decide), by decide, 0, by decide, by decide⟩

/-! ## Runs with modifications -/

/-- In careful runs the cleanup restores blockers and bits, leaves no watcher of
a deleted clause, and unit propagation stays complete. -/
theorem modification_law {σ : Session}
    (h : Session.Reachable (fun σ op => σ.Legal op ∧ σ.Careful op) σ)
    (hv : σ.asg.litsRequiringWatcherUpdateAsVec = []) :
    (∀ l, ∀ w ∈ σ.asg.watchers l, w.otherWatchedLiteral ∈ (σ.asg.mem w.clause).lits ∧
      w.isRedundant = (σ.asg.mem w.clause).redundant) ∧
    (∀ l, ∀ w ∈ σ.asg.binaryWatchers l, w.otherWatchedLiteral ∈ (σ.asg.mem w.clause).lits ∧
      (σ.asg.mem w.clause).size = 2) ∧
    (∀ l w, w ∈ σ.asg.watchers l ∨ w ∈ σ.asg.binaryWatchers l →
      (σ.asg.mem w.clause).scheduledForDeletion = false) ∧
    (σ.conflict = none → ∀ c ∈ σ.registered, (σ.asg.mem c).scheduledForDeletion = false →
      (σ.excluded = true → (σ.asg.mem c).redundant = true → (σ.asg.mem c).size = 2) →
      (¬ ∀ x ∈ (σ.asg.mem c).lits, σ.asg.getAssignment x = .FALSE) ∧
      ¬ ∃ u ∈ (σ.asg.mem c).lits, σ.asg.getAssignment u = .INDETERMINATE ∧
        ∀ x ∈ (σ.asg.mem c).lits, x ≠ u → σ.asg.getAssignment x = .FALSE) := by
  have hrun := AsgRun.of_careful h
  have hcore := hrun.core (dirty_eq_empty_iff.mpr hv)
  have hnil : σ.predeleted = [] := hrun.punctual rfl
  have hZ : ∀ c, c ∉ {c | c ∈ σ.predeleted} := fun c hc => by
    rw [show {c | c ∈ σ.predeleted} = {c | c ∈ ([] : List ClauseRef)} by rw [hnil]] at hc
    cases hc
  refine ⟨fun l w hw => ⟨(hcore.blocker l w hw).resolve_right (Set.notMem_empty _), hcore.bit l w hw⟩,
    fun l w hw => ⟨?_, hcore.watch.binary_size hw⟩, ?_, ?_⟩
  · exact (hcore.watch.binary l w hw).mem_iff.mpr (List.mem_cons_of_mem _ List.mem_cons_self)
  · intro l w hw
    refine Bool.eq_false_of_not_eq_true fun hd => ?_
    rcases hw with hw | hw
    · exact hZ _ ((hcore.watch.settled hw).alive hd)
    · exact hZ _ (hcore.watch.binary_alive l w hw (Set.notMem_empty l) hd)
  · intro hc c hr ha hex
    have hn := hrun.notUnit hc ⟨hr, fun _ => ha⟩ hex
    exact ⟨hn.not_falsified, fun ⟨u, _, hu, hf⟩ => hn.not_unit hu hf⟩

def rewritten (cl : Clause) (ops : List Op) : Session :=
  ([Op.registerClause 0, .registerClauseModification 0, .modify 0 cl, .newLevel] ++ ops).foldl exec
    (new (fun _ => .ofLits [⟨0, .positive⟩, ⟨1, .positive⟩, ⟨2, .positive⟩, ⟨3, .positive⟩]) 3)

def reversed : Session :=
  rewritten (.ofLits [⟨3, .positive⟩, ⟨2, .positive⟩, ⟨0, .positive⟩]) [.append ⟨0, .negative⟩ .includeLemmas]

theorem reversed_modification_law :
    (∀ l, ∀ w ∈ reversed.asg.watchers l, w.otherWatchedLiteral ∈ (reversed.asg.mem w.clause).lits ∧
      w.isRedundant = (reversed.asg.mem w.clause).redundant) ∧
    (∀ l, ∀ w ∈ reversed.asg.binaryWatchers l, w.otherWatchedLiteral ∈ (reversed.asg.mem w.clause).lits ∧
      (reversed.asg.mem w.clause).size = 2) ∧
    (∀ l w, w ∈ reversed.asg.watchers l ∨ w ∈ reversed.asg.binaryWatchers l →
      (reversed.asg.mem w.clause).scheduledForDeletion = false) ∧
    (¬ ∀ x ∈ (reversed.asg.mem 0).lits, reversed.asg.getAssignment x = .FALSE) ∧
    ¬ ∃ u ∈ (reversed.asg.mem 0).lits, reversed.asg.getAssignment u = .INDETERMINATE ∧
      ∀ x ∈ (reversed.asg.mem 0).lits, x ≠ u → reversed.asg.getAssignment x = .FALSE := by
  obtain ⟨hblockers, hbinary, halive, hcomplete⟩ :=
    modification_law (σ := reversed) (Reachable.foldl (.new _ _ _) (by decide)) (by decide)
  exact ⟨hblockers, hbinary, halive, hcomplete (by decide) 0 (by decide) (by decide) (by decide)⟩

/-- Without its second literal `1` the clause keeps a watcher whose blocker is
`1`, and is left with the unassigned literal `3` alone. -/
theorem stale_blocker : ∃ σ, Session.Reachable Legal σ ∧ σ.asg.litsRequiringWatcherUpdateAsVec = [] ∧
    σ.conflict = none ∧ σ.excluded = false ∧ (σ.asg.mem 0).scheduledForDeletion = false ∧
    (∃ w ∈ σ.asg.watchers ⟨0, .positive⟩, w.clause = 0 ∧ w.otherWatchedLiteral ∉ (σ.asg.mem 0).lits) ∧
    ∃ u ∈ (σ.asg.mem 0).lits, σ.asg.getAssignment u = .INDETERMINATE ∧
      ∀ x ∈ (σ.asg.mem 0).lits, x ≠ u → σ.asg.getAssignment x = .FALSE := by
  refine ⟨rewritten (.ofLits [⟨0, .positive⟩, ⟨2, .positive⟩, ⟨3, .positive⟩])
      [.append ⟨1, .positive⟩ .includeLemmas, .append ⟨0, .negative⟩ .includeLemmas,
        .append ⟨2, .negative⟩ .includeLemmas],
    Reachable.foldl (.new _ _ _) (by decide), by decide, by decide, by decide, by decide, by decide, by decide⟩

end Session

end JamSAT
