import JamSAT.CleanupSound
import JamSAT.Session
import Mathlib.Data.List.Permutation

/-!
# The watch lists over whole runs

The watch-list invariant holds in every state of every run of the operations,
whatever is assigned, also after a propagation has stopped at a conflict.
-/

namespace JamSAT

open KeyedLists

namespace Assignment

def dirty (s : Assignment) : Set CNFLit := {l | l ∈ s.litsRequiringWatcherUpdateAsVec}

def FlagInv (s : Assignment) : Prop := ∀ l, s.litsRequiringWatcherUpdate l = true ↔ l ∈ s.dirty

theorem flagInv_congr {s t : Assignment} (h : s.FlagInv)
    (hm : t.litsRequiringWatcherUpdate = s.litsRequiringWatcherUpdate)
    (hv : t.litsRequiringWatcherUpdateAsVec = s.litsRequiringWatcherUpdateAsVec) : t.FlagInv := by
  intro l; rw [hm, h l, dirty, dirty, hv]

theorem dirty_markForUpdate {s : Assignment} (h : s.FlagInv) (l : CNFLit) :
    (s.markForUpdate l).dirty = insert l s.dirty := by
  unfold markForUpdate
  split
  · rename_i hl
    exact (Set.insert_eq_of_mem ((h l).mp hl)).symm
  · ext m
    simp only [dirty, Set.mem_ofPred_eq, List.mem_append, List.mem_singleton, Set.mem_insert_iff]
    exact or_comm

theorem flagInv_markForUpdate {s : Assignment} (h : s.FlagInv) (l : CNFLit) : (s.markForUpdate l).FlagInv := by
  intro m
  rw [dirty_markForUpdate h]
  unfold markForUpdate
  split
  · rename_i hl
    rw [Set.insert_eq_of_mem ((h l).mp hl)]; exact h m
  · by_cases hm : m = l
    · subst hm; simp
    · simp [hm, h m]

theorem registerClauseModification_eq (s : Assignment) (c : ClauseRef) : ∃ D V,
    s.registerClauseModification c =
      { s with litsRequiringWatcherUpdate := D, litsRequiringWatcherUpdateAsVec := V } := by
  unfold registerClauseModification markForUpdate
  split <;> split <;> exact ⟨_, _, rfl⟩

theorem dirty_registerClauseModification {s : Assignment} (h : s.FlagInv) (c : ClauseRef) :
    (s.registerClauseModification c).dirty = insert ((s.mem c).lit 1) (insert ((s.mem c).lit 0) s.dirty) := by
  unfold registerClauseModification
  rw [dirty_markForUpdate (flagInv_markForUpdate h _), dirty_markForUpdate h]

theorem flagInv_registerClauseModification {s : Assignment} (h : s.FlagInv) (c : ClauseRef) :
    (s.registerClauseModification c).FlagInv :=
  flagInv_markForUpdate (flagInv_markForUpdate h _) _

theorem flagInv_cleanupWatchers {s : Assignment} (h : s.FlagInv) : s.cleanupWatchers.FlagInv := by
  obtain ⟨W, B, D, he, hD⟩ := s.cleanupWatchers_eq
  intro l
  rw [he]
  refine iff_of_false (fun hl => ?_) List.not_mem_nil
  obtain ⟨h₁, h₂⟩ := (hD l).mp hl
  exact h₂ ((h l).mp h₁)

/-! ## Whole propagations -/

/-- What propagation leaves alone without any assumption on the state. -/
def marks (s : Assignment) : (CNFLit → Bool) × List CNFLit × (ClauseRef → Bool) :=
  (s.litsRequiringWatcherUpdate, s.litsRequiringWatcherUpdateAsVec,
    fun c => (s.mem c).scheduledForDeletion)

section
variable {m : (CNFLit → Bool) × List CNFLit × (ClauseRef → Bool)}

theorem marks_moveWatch {s : Assignment} (h : s.marks = m) (l : CNFLit) (k : Nat) (w : Watcher) (i : Nat) :
    (s.moveWatch l k w i).marks = m := by
  rw [← h]
  refine Prod.ext rfl (Prod.ext rfl ?_)
  funext c
  exact moveWatch_scheduledForDeletion s l k w i c

theorem marks_propagate {s : Assignment} (h : s.marks = m) (mode : UpMode) (p : CNFLit) :
    Ends (fun t _ => t.marks = m) (fun _ t => t.marks = m) (s.propagate mode p) := by
  refine propagate_rule (I := fun t _ => t.marks = m) ?_ fun t f ht => ?_
  · exact (propagateBinaries_rule (I := fun _ _ t _ => t.marks = m) (Q := fun _ t => t.marks = m)
      (fun _ _ _ _ ht _ => ht) (fun _ _ _ _ ht _ => ht) (fun _ _ _ _ ht _ => ht) _ _ _ _ h).imp
      (fun _ _ ⟨_, ht⟩ => ht) fun _ _ ht => ht
  · exact (propagateWatchers_rule (I := fun _ _ t _ => t.marks = m) (Q := fun _ t => t.marks = m)
      (fun _ _ _ _ ht _ => ht) (fun _ _ _ _ _ ht _ => marks_moveWatch ht _ _ _ _)
      (fun _ _ _ _ ht _ => ht) (fun _ _ _ _ _ ht _ => ht) _ _ _ _ ht).imp
      (fun _ _ ⟨_, ht⟩ => ht) fun _ _ ht => ht

theorem marks_propagateQueue {s : Assignment} (h : s.marks = m) (mode : UpMode) (n b e : Nat) :
    EndsFixpoint (fun t => t.marks = m) (fun _ t => t.marks = m) (propagateQueue mode n b e s) :=
  propagateQueue_rule (I := fun _ _ _ t => t.marks = m) (fun _ _ _ ht => ht) (fun _ _ _ ht => ht)
    (fun _ _ _ _ ht _ => marks_propagate ht mode _) n b e s h

end

structure UpToDate (R K Z : Set ClauseRef) (s t : Assignment) : Prop where
  watch : WatchInv R K Z ∅ t
  flags : t.FlagInv
  dirty : t.dirty = ∅
  scheduledForDeletion : ∀ c, (t.mem c).scheduledForDeletion = (s.mem c).scheduledForDeletion

section
variable {R K Z : Set ClauseRef} {s : Assignment}

theorem dirty_eq_empty_iff : s.dirty = ∅ ↔ s.litsRequiringWatcherUpdateAsVec = [] := by
  rw [List.eq_nil_iff_forall_not_mem, Set.eq_empty_iff_forall_notMem]; rfl

theorem WatchInv.propagateUntilFixpoint (h : WatchInv R K Z s.dirty s) (hf : s.FlagInv)
    (hK : s.dirty ≠ ∅ → ∀ c ∈ K, (s.mem c).scheduledForDeletion = false) (p : CNFLit) (mode : UpMode) :
    UpToDate R K Z s (s.propagateUntilFixpoint p mode).2 := by
  -- first without a pending cleanup
  have key : ∀ t : Assignment, t.litsRequiringWatcherUpdateAsVec = [] → t.FlagInv → WatchInv R K Z ∅ t →
      UpToDate R K Z t (t.propagateUntilFixpoint p mode).2 := by
    intro t hv hft ht
    have hw : EndsFixpoint (WatchInv R K Z ∅) (fun _ => WatchInv R K Z ∅) (t.propagateUntilFixpoint p mode) :=
      propagateUntilFixpoint_rule hv (ht.propagate mode p) fun u f hu => hu.propagateQueue mode _ _ _
    have hm : EndsFixpoint (fun u => u.marks = t.marks) (fun _ u => u.marks = t.marks)
        (t.propagateUntilFixpoint p mode) :=
      propagateUntilFixpoint_rule hv (marks_propagate rfl mode p) fun u f hu =>
        marks_propagateQueue hu mode _ _ _
    revert hw hm
    generalize t.propagateUntilFixpoint p mode = r
    have hend : ∀ u : Assignment, WatchInv R K Z ∅ u → u.marks = t.marks → UpToDate R K Z t u := by
      intro u hw hu
      obtain ⟨h₁, h₂⟩ := Prod.mk.inj hu
      obtain ⟨h₂, h₃⟩ := Prod.mk.inj h₂
      exact ⟨hw, flagInv_congr hft h₁ h₂, dirty_eq_empty_iff.mpr (h₂.trans hv), congrFun h₃⟩
    obtain ⟨_ | c, u⟩ := r
    · exact hend u
    · exact hend u
  by_cases hv : s.litsRequiringWatcherUpdateAsVec = []
  · exact key s hv hf (dirty_eq_empty_iff.mpr hv ▸ h)
  · rw [propagateUntilFixpoint_cleanup p hv]
    have ht := key _ rfl (flagInv_cleanupWatchers hf)
      (h.cleanupWatchers (hK (mt dirty_eq_empty_iff.mp hv)) (Set.Subset.refl _))
    exact ⟨ht.watch, ht.flags, ht.dirty, fun c => by rw [ht.scheduledForDeletion, cleanupWatchers_mem]⟩

end

end Assignment

namespace Session

open Assignment

/-- The registered clauses that must have both watchers. With `mods`, a cleanup
may have removed those of deleted clauses. -/
def kept (mods : Bool) (σ : Session) : Set ClauseRef :=
  {c | c ∈ σ.registered ∧ (mods = true → (σ.asg.mem c).scheduledForDeletion = false)}

structure WatchRun (mods : Bool) (σ : Session) : Prop where
  watch : WatchInv {c | c ∈ σ.registered} (σ.kept mods) {c | c ∈ σ.predeleted} σ.asg.dirty σ.asg
  unmixed : σ.asg.Unmixed
  flags : σ.asg.FlagInv
  announced_registered : ∀ c ∈ σ.announced, c ∈ σ.registered
  announced : ∀ c ∈ σ.announced, Announced σ.asg σ.asg.dirty c
  long_announced : ∀ c ∈ σ.long, c ∈ σ.announced
  long : ∀ c ∈ σ.long, ∀ l, ∀ w ∈ σ.asg.binaryWatchers l, w.clause ≠ c
  basic : mods = false → σ.asg.dirty = ∅

namespace WatchRun

variable {mods : Bool} {σ : Session}

theorem new (mem : ClauseRef → Clause) (n : Nat) : WatchRun mods (Session.new mem n) where
  watch := (WatchInv.new mem n).weaken (by simp [Session.new]) (by simp [Session.new, kept])
  unmixed l m w hw := nomatch hw
  flags l := by simp [Session.new, Assignment.new, dirty]
  announced_registered := by simp [Session.new]
  announced := by simp [Session.new]
  long_announced := by simp [Session.new]
  long := by simp [Session.new]
  basic _ := dirty_eq_empty_iff.mpr rfl

variable (h : WatchRun mods σ)
include h

theorem congr {t : Assignment} (hm : t.mem = σ.asg.mem) (hw : t.watchers = σ.asg.watchers)
    (hb : t.binaryWatchers = σ.asg.binaryWatchers)
    (hf : t.litsRequiringWatcherUpdate = σ.asg.litsRequiringWatcherUpdate)
    (hv : t.litsRequiringWatcherUpdateAsVec = σ.asg.litsRequiringWatcherUpdateAsVec)
    (r : Option ClauseRef) (e : Bool) : WatchRun mods { σ with asg := t, conflict := r, excluded := e } := by
  have hd : t.dirty = σ.asg.dirty := by rw [dirty, dirty, hv]
  have hl : t.lists = σ.asg.lists := by funext p; simp [lists, hw, hb]
  refine ⟨?_, ?_, flagInv_congr h.flags hf hv, h.announced_registered, ?_, h.long_announced, ?_,
    fun hm => hd.trans (h.basic hm)⟩
  · show WatchInv _ (kept mods { σ with asg := t, conflict := r, excluded := e }) _ t.dirty t
    rw [hd]
    simp only [kept, hm]
    exact h.watch.congr hm hw hb
  · simp only [Unmixed, hw, hb]; exact h.unmixed
  · simp only [Announced, hd, hl]; exact h.announced
  · simp only [hb]; exact h.long

theorem not_announced {c : ClauseRef} (hc : c ∉ σ.registered) : c ∉ σ.announced :=
  fun ha => hc (h.announced_registered c ha)

theorem enter {c : ClauseRef} (hc : c ∉ σ.registered) (hs : 2 ≤ (σ.asg.mem c).size) :
    WatchInv {d | d ∈ (σ.enter c).registered} (insert c (σ.kept mods)) {d | d ∈ (σ.enter c).predeleted}
      σ.asg.dirty (σ.asg.registerClause c) := by
  have hZ : {d | d ∈ σ.predeleted} ⊆ {d | d ∈ (σ.enter c).predeleted} := by
    intro d hd
    show d ∈ (σ.enter c).predeleted
    unfold Session.enter
    split
    · exact List.mem_cons_of_mem _ hd
    · exact hd
  refine ((h.watch.mono (Set.Subset.refl _) hZ (Set.Subset.refl _)).registerClause hc hs fun hd => ?_).weaken
    (by ext d; exact List.mem_cons) rfl
  show c ∈ (σ.enter c).predeleted
  simp [Session.enter, hd]

theorem registerClause {c : ClauseRef} (hok : σ.Watchable (.registerClause c)) :
    WatchRun mods (σ.exec (.registerClause c)) := by
  obtain ⟨hc, hs⟩ := hok
  have hnot := h.not_announced hc
  have hd : (σ.asg.registerClause c).dirty = σ.asg.dirty := by
    unfold Assignment.registerClause; dsimp only; split <;> rfl
  have hmem : ∀ {b l w}, w ∈ (σ.asg.registerClause c).lists (b, l) → w ∈ σ.asg.lists (b, l) ∨ w.clause = c :=
    fun hw => (mem_registerClause.mp hw).imp id fun ⟨i, _, hi⟩ => hi ▸ rfl
  refine ⟨?_, h.watch.unmixed_registerClause h.unmixed hc, ?_, ?_, ?_, h.long_announced, ?_, ?_⟩
  · show WatchInv _ (kept mods _) _ (σ.asg.registerClause c).dirty (σ.asg.registerClause c)
    rw [hd]
    refine (h.enter hc hs).mono ?_ (Set.Subset.refl _) (Set.Subset.refl _)
    rintro d ⟨hdr, hal⟩
    rcases List.mem_cons.mp hdr with rfl | hdr
    · exact .inl rfl
    · exact .inr ⟨hdr, fun hm => by simpa [exec] using hal hm⟩
  · refine flagInv_congr h.flags ?_ ?_ <;>
      (unfold exec Assignment.registerClause; dsimp only; split <;> rfl)
  · exact fun d hd => List.mem_cons_of_mem _ (h.announced_registered d hd)
  · intro d hda p w hw hwd
    show p.2 ∈ (σ.asg.registerClause c).dirty
    rw [hd]
    rcases hmem hw with hw | hw
    · exact h.announced d hda p w hw hwd
    · exact absurd (hw.symm.trans hwd ▸ hda) hnot
  · intro d hdl l w hw hwd
    rcases hmem (b := true) hw with hw | hw
    · exact h.long d hdl l w hw hwd
    · exact hnot (hw.symm.trans hwd ▸ h.long_announced d hdl)
  · exact fun hm => hd.trans (h.basic hm)

theorem propagated {τ : Session} {K : Set ClauseRef} {t : Assignment} {p : CNFLit} {mode : UpMode}
    (ht : WatchInv {d | d ∈ τ.registered} K {d | d ∈ τ.predeleted} t.dirty t) (hf : t.FlagInv)
    (hd : t.dirty = σ.asg.dirty) (hmem : t.mem = σ.asg.mem)
    (hK : ∀ c ∈ τ.registered, (mods = true → (σ.asg.mem c).scheduledForDeletion = false) → c ∈ K) :
    WatchRun mods (τ.propagated (t.propagateUntilFixpoint p mode)) := by
  have hsub : {c | c ∈ K ∧ (mods = true → (σ.asg.mem c).scheduledForDeletion = false)} ⊆ K := fun _ hc => hc.1
  have hup := (ht.mono hsub (Set.Subset.refl _) (Set.Subset.refl _)).propagateUntilFixpoint hf
    (fun hne c hc => by
      rw [hmem]
      refine hc.2 (Bool.eq_true_of_not_eq_false fun hm => hne ?_)
      rw [hd, h.basic hm]) p mode
  refine ⟨?_, hup.watch.unmixed, hup.flags, by simp [Session.propagated], by simp [Session.propagated],
    by simp [Session.propagated], by simp [Session.propagated], fun _ => hup.dirty⟩
  show WatchInv _ (kept mods _) _ (t.propagateUntilFixpoint p mode).2.dirty _
  rw [hup.dirty]
  refine hup.watch.mono ?_ (Set.Subset.refl _) (Set.Subset.refl _)
  rintro c ⟨hcr, hal⟩
  have hal' : mods = true → (σ.asg.mem c).scheduledForDeletion = false := fun hm => by
    rw [← hmem, ← hup.scheduledForDeletion]; exact hal hm
  exact ⟨hK c hcr hal', hal'⟩

theorem append (l : CNFLit) (mode : UpMode) : WatchRun mods (σ.exec (.append l mode)) :=
  h.propagated (K := σ.kept mods) (t := σ.asg.assign l none) (h.watch.congr rfl rfl rfl)
    (flagInv_congr h.flags rfl rfl) rfl rfl fun _ hc hal => ⟨hc, hal⟩

theorem registerLemma {c : ClauseRef} (hok : σ.Watchable (.registerLemma c)) :
    WatchRun mods (σ.exec (.registerLemma c)) := by
  obtain ⟨hc, hs⟩ := hok
  have hd : (σ.asg.registerClause c).dirty = σ.asg.dirty := by
    unfold Assignment.registerClause; dsimp only; split <;> rfl
  refine h.propagated (K := insert c (σ.kept mods))
    (t := (σ.asg.registerClause c).assign (((σ.asg.registerClause c).mem c).lit 0) (some c))
    ?_ ?_ hd (registerClause_mem _ _) ?_
  · show WatchInv _ _ _ (σ.asg.registerClause c).dirty _
    rw [hd]
    exact (h.enter hc hs).congr rfl rfl rfl
  · refine flagInv_congr h.flags ?_ ?_ <;>
      (unfold Assignment.assign Assignment.registerClause; dsimp only; split <;> rfl)
  · intro d hdr hal
    rcases List.mem_cons.mp hdr with rfl | hdr
    · exact .inl rfl
    · exact .inr ⟨hdr, hal⟩

theorem registerClauseModification {c : ClauseRef} (hm : mods = true) (hc : c ∈ σ.registered) :
    WatchRun mods (σ.exec (.registerClauseModification c)) := by
  obtain ⟨D, V, he⟩ := registerClauseModification_eq σ.asg c
  have hdirty := dirty_registerClauseModification h.flags c
  have hsub : σ.asg.dirty ⊆ (σ.asg.registerClauseModification c).dirty := by
    rw [hdirty]
    exact (Set.subset_insert _ _).trans (Set.subset_insert _ _)
  have hlists : (σ.asg.registerClauseModification c).lists = σ.asg.lists := by rw [he]; rfl
  have hmem : (σ.asg.registerClauseModification c).mem = σ.asg.mem := by rw [he]
  have hbin : (σ.asg.registerClauseModification c).binaryWatchers = σ.asg.binaryWatchers := by rw [he]
  have hw : WatchInv {d | d ∈ σ.registered} (σ.kept mods) {d | d ∈ σ.predeleted}
      (σ.asg.registerClauseModification c).dirty (σ.asg.registerClauseModification c) :=
    (h.watch.mono (Set.Subset.refl _) (Set.Subset.refl _) hsub).congr hmem (by rw [he]) hbin
  refine ⟨?_, ?_, flagInv_registerClauseModification h.flags c, ?_, ?_, ?_, ?_, fun hm' => by simp [hm] at hm'⟩
  · refine hw.mono ?_ (Set.Subset.refl _) (Set.Subset.refl _)
    rintro d ⟨hd, hal⟩
    exact ⟨hd, fun hm => hmem ▸ hal hm⟩
  · show (σ.asg.registerClauseModification c).Unmixed
    rw [he]; exact h.unmixed
  · rintro d hd
    rcases List.mem_cons.mp hd with rfl | hd
    · exact hc
    · exact h.announced_registered d hd
  · intro d hd
    rcases List.mem_cons.mp hd with rfl | hd
    · refine hw.announced ?_ ?_ <;> rw [hmem, hdirty]
      · exact .inr (.inl rfl)
      · exact .inl rfl
    · intro p w hwp hwd
      exact hsub (h.announced d hd p w (hlists ▸ hwp) hwd)
  · intro d hd
    simp only [exec] at hd ⊢
    split at hd
    · rcases List.mem_cons.mp hd with rfl | hd
      · exact List.mem_cons_self
      · exact List.mem_cons_of_mem _ (h.long_announced d hd)
    · exact List.mem_cons_of_mem _ (h.long_announced d hd)
  · intro d hd l w hwb hwd
    have hwo : w ∈ σ.asg.binaryWatchers l := hbin ▸ hwb
    simp only [exec] at hd
    split at hd
    · rename_i hs
      rcases List.mem_cons.mp hd with rfl | hd
      · have := h.watch.binary_size hwo
        rw [hwd] at this; omega
      · exact h.long d hd l w hwo hwd
    · exact h.long d hd l w hwo hwd

theorem modify {c : ClauseRef} {cl : Clause} (hok : σ.Watchable (.modify c cl)) :
    WatchRun mods (σ.exec (.modify c cl)) := by
  have hann : Announced σ.asg σ.asg.dirty c := by
    rcases hok with hc | ⟨ha, -⟩
    · exact h.watch.announced_of_not_mem hc
    · exact h.announced c ha
  have hb : ∀ l, ∀ w ∈ σ.asg.binaryWatchers l, w.clause = c → cl.lits.Perm (σ.asg.mem c).lits := by
    intro l w hw hwc
    rcases hok with hc | ⟨-, -, hl | hp, -⟩
    · exact absurd hwc (h.watch.clause_ne_of_not_mem hc (p := (true, l)) hw)
    · exact absurd hwc (h.long c hl l w hw)
    · exact hp
  refine ⟨(h.watch.writeClause h.unmixed hann (fun hc => ?_) hb).mono ?_ (Set.Subset.refl _)
    (Set.Subset.refl _), h.unmixed, h.flags, h.announced_registered, h.announced, h.long_announced, h.long,
    h.basic⟩
  · rcases hok with hn | ⟨-, hs, -⟩
    · exact absurd hc hn
    · exact hs
  · rintro d ⟨hd, hal⟩
    refine ⟨hd, fun hm => ?_⟩
    have hal := hal hm
    by_cases hdc : d = c
    · subst hdc
      rcases hok with hn | ⟨-, -, -, hdel⟩
      · exact absurd hd hn
      · rw [show (σ.exec (.modify d cl)).asg.mem d = cl from writeClause_mem_self _ _ _] at hal
        exact Bool.eq_false_of_not_eq_true fun ht => absurd ((hdel ht).symm.trans hal) (by decide)
    · rwa [show (σ.exec (.modify c cl)).asg.mem d = σ.asg.mem d from writeClause_mem_of_ne hdc] at hal

theorem clearClauses : WatchRun mods (σ.exec .clearClauses) where
  watch := WatchInv.clearClauses.weaken (by simp [exec]) (by simp [exec, kept])
  unmixed l m w hw := nomatch hw
  flags := h.flags
  announced_registered := by simp [exec]
  announced := by simp [exec]
  long_announced := by simp [exec]
  long := by simp [exec]
  basic := h.basic

theorem exec {op : Op} (hok : σ.Watchable op) (hm : mods = false → op.isBasic = true) :
    WatchRun mods (σ.exec op) := by
  cases op with
  | increaseMaxVar n => exact h.congr (by simp) (by simp) (by simp) (by simp) (by simp) σ.conflict σ.excluded
  | registerClause c => exact h.registerClause hok
  | registerLemma c => exact h.registerLemma hok
  | registerClauseModification c =>
    refine h.registerClauseModification (Bool.eq_true_of_not_eq_false fun hf => ?_) hok
    exact absurd (hm hf) Bool.false_ne_true
  | modify c cl => exact h.modify hok
  | clearClauses => exact h.clearClauses
  | newLevel => exact h.congr (t := σ.asg.newLevel) rfl rfl rfl rfl rfl σ.conflict σ.excluded
  | append l mode => exact h.append l mode
  | undoToLevel k => exact h.congr (by simp) (by simp) (by simp) (by simp) (by simp) none _
  | undoAll => exact h.congr (by simp) (by simp) (by simp) (by simp) (by simp) none _

omit h in
theorem of_reachable (h : Session.Reachable Watchable σ) : WatchRun true σ :=
  Runs.Reachable.invariant h (fun _ ⟨mem, n, he⟩ => he ▸ new mem n)
    fun _ _ hσ ⟨_, hok, he⟩ => he ▸ hσ.exec hok fun hm => absurd hm.symm Bool.false_ne_true

end WatchRun

end Session

/-! ## Exactly two watchers -/

/-- In the lists `home` the clause at `c` has the two watchers `w₀` and `w₁`, in
the lists of `l₀` and `l₁`, and no other; in the lists `away` it has none. -/
structure TwoWatchers (home away : CNFLit → List Watcher) (c : ClauseRef) (l₀ l₁ : CNFLit)
    (w₀ w₁ : Watcher) : Prop where
  ne : w₀ ≠ w₁
  mem : w₀ ∈ home l₀ ∧ w₁ ∈ home l₁
  clause : w₀.clause = c ∧ w₁.clause = c
  only : ∀ l, ∀ w ∈ home l, w.clause = c → l = l₀ ∧ w = w₀ ∨ l = l₁ ∧ w = w₁
  nodup : ∀ l, (home l).Nodup
  away : ∀ l, ∀ w ∈ away l, w.clause ≠ c

namespace Assignment.WatchInv

variable {R K Z : Set ClauseRef} {s : Assignment} {c : ClauseRef} (h : WatchInv R K Z ∅ s) (hc : c ∈ K)
include h hc

theorem twoWatchers (hs : 2 < (s.mem c).size) : ∃ w₀ w₁,
    TwoWatchers s.watchers s.binaryWatchers c ((s.mem c).lit 0) ((s.mem c).lit 1) w₀ w₁ ∧
      w₀.index = 0 ∧ w₁.index = 1 := by
  obtain ⟨w₀, hw₀, rfl, hi₀⟩ := h.exists_watcher hc hs 0
  obtain ⟨w₁, hw₁, he, hi₁⟩ := h.exists_watcher hc hs 1
  refine ⟨w₀, w₁, ⟨?_, ⟨hw₀, hw₁⟩, ⟨rfl, he⟩, ?_, ?_, ?_⟩, hi₀, hi₁⟩
  · rintro rfl; rw [hi₀] at hi₁; exact absurd hi₁ (by decide)
  · intro l w hw hwc
    have hl := (h.settled hw).lit
    rw [hwc] at hl
    obtain hi | hi := eq_or_eq_one_sub 0 w.index
    · refine .inl ⟨by rw [← hl, hi]; rfl, h.placed.eq_of_key_eq (p := (false, l)) (q := (false, _)) hw hw₀ ?_⟩
      exact Prod.ext hwc (hi.trans hi₀.symm)
    · refine .inr ⟨by rw [← hl, hi]; rfl, h.placed.eq_of_key_eq (p := (false, l)) (q := (false, _)) hw hw₁ ?_⟩
      exact Prod.ext (hwc.trans he.symm) (hi.trans hi₁.symm)
  · exact fun l => (h.placed.nodup (false, l)).of_map _
  · exact fun l w hw hwc => h.unmixed l _ w hw w₀ hw₀ hwc

theorem twoBinaryWatchers (hs : (s.mem c).size = 2) : ∃ w₀ w₁,
    TwoWatchers s.binaryWatchers s.watchers c ((s.mem c).lit 0) ((s.mem c).lit 1) w₀ w₁ ∧
      w₀.otherWatchedLiteral = (s.mem c).lit 1 ∧ w₁.otherWatchedLiteral = (s.mem c).lit 0 := by
  obtain ⟨m₀, v₀, hv₀, hc₀, hi₀⟩ := h.exists_binaryWatcher_at hc hs 0
  obtain ⟨m₁, v₁, hv₁, hc₁, hi₁⟩ := h.exists_binaryWatcher_at hc hs 1
  have ho₀ := h.pair m₀ m₁ v₀ hv₀ v₁ hv₁ (hc₀.trans hc₁.symm) (by rw [hi₀, hi₁]; decide)
  have ho₁ := h.pair m₁ m₀ v₁ hv₁ v₀ hv₀ (hc₁.trans hc₀.symm) (by rw [hi₀, hi₁]; decide)
  have hne : v₀ ≠ v₁ := by
    rintro rfl; rw [hi₀] at hi₁; exact absurd hi₁ (by decide)
  have honly : ∀ l, ∀ w ∈ s.binaryWatchers l, w.clause = c → l = m₀ ∧ w = v₀ ∨ l = m₁ ∧ w = v₁ := by
    intro l w hw hwc
    obtain hi | hi := eq_or_eq_one_sub 0 w.index
    · have hk : w.key = v₀.key := Prod.ext (hwc.trans hc₀.symm) (hi.trans hi₀.symm)
      exact .inl ⟨(Prod.mk.inj (h.placed.unique (true, l) (true, m₀) w hw v₀ hv₀ hk)).2,
        h.placed.eq_of_key_eq (p := (true, l)) (q := (true, m₀)) hw hv₀ hk⟩
    · have hk : w.key = v₁.key := Prod.ext (hwc.trans hc₁.symm) (hi.trans hi₁.symm)
      exact .inr ⟨(Prod.mk.inj (h.placed.unique (true, l) (true, m₁) w hw v₁ hv₁ hk)).2,
        h.placed.eq_of_key_eq (p := (true, l)) (q := (true, m₁)) hw hv₁ hk⟩
  have haway : ∀ l, ∀ w ∈ s.watchers l, w.clause ≠ c := fun l w hw hwc =>
    h.unmixed m₀ l v₀ hv₀ w hw (hc₀.trans hwc.symm)
  have hnodup : ∀ l, (s.binaryWatchers l).Nodup := fun l => (h.placed.nodup (true, l)).of_map _
  -- the clause lists the two literals in one order or the other
  have hperm := h.binary m₀ v₀ hv₀
  rw [hc₀, ho₀] at hperm
  obtain ⟨x, y, hxy⟩ := List.length_eq_two.mp hs
  have hlit₀ : (s.mem c).lit 0 = x := by simp [Clause.lit, hxy]
  have hlit₁ : (s.mem c).lit 1 = y := by simp [Clause.lit, hxy]
  rw [hxy] at hperm
  rw [hlit₀, hlit₁]
  have hpair : x = m₀ ∧ y = m₁ ∨ x = m₁ ∧ y = m₀ := by simpa using List.perm_pair.mp hperm
  rcases hpair with ⟨rfl, rfl⟩ | ⟨rfl, rfl⟩
  · exact ⟨v₀, v₁, ⟨hne, ⟨hv₀, hv₁⟩, ⟨hc₀, hc₁⟩, honly, hnodup, haway⟩, ho₀, ho₁⟩
  · exact ⟨v₁, v₀, ⟨hne.symm, ⟨hv₁, hv₀⟩, ⟨hc₁, hc₀⟩, fun l w hw hwc => (honly l w hw hwc).symm, hnodup,
      haway⟩, ho₁, ho₀⟩

end Assignment.WatchInv

namespace Session

/-- In every reachable state without a pending cleanup, the watch lists hold
exactly the watchers of the registered clauses that are not deleted, except that
clauses scheduled for deletion before they were registered may have watchers. -/
theorem watch_lists_of_reachable {σ : Session} (h : Session.Reachable Watchable σ)
    (hv : σ.asg.litsRequiringWatcherUpdateAsVec = []) :
    (∀ c ∈ σ.registered, (σ.asg.mem c).scheduledForDeletion = false →
      (2 < (σ.asg.mem c).size → ∃ w₀ w₁, TwoWatchers σ.asg.watchers σ.asg.binaryWatchers c
        ((σ.asg.mem c).lit 0) ((σ.asg.mem c).lit 1) w₀ w₁ ∧ w₀.index = 0 ∧ w₁.index = 1) ∧
      ((σ.asg.mem c).size = 2 → ∃ w₀ w₁, TwoWatchers σ.asg.binaryWatchers σ.asg.watchers c
        ((σ.asg.mem c).lit 0) ((σ.asg.mem c).lit 1) w₀ w₁ ∧
        w₀.otherWatchedLiteral = (σ.asg.mem c).lit 1 ∧ w₁.otherWatchedLiteral = (σ.asg.mem c).lit 0)) ∧
    ∀ l w, w ∈ σ.asg.watchers l ∨ w ∈ σ.asg.binaryWatchers l → w.clause ∈ σ.registered ∧
      ((σ.asg.mem w.clause).scheduledForDeletion = true → w.clause ∈ σ.predeleted) := by
  have hw := (WatchRun.of_reachable h).watch
  rw [Assignment.dirty_eq_empty_iff.mpr hv] at hw
  refine ⟨fun c hc ha => ?_, fun l w hl => ?_⟩
  · have hk : c ∈ σ.kept true := ⟨hc, fun _ => ha⟩
    exact ⟨fun hs => hw.twoWatchers hk hs, fun hs => hw.twoBinaryWatchers hk hs⟩
  · rcases hl with hl | hl
    · exact ⟨hw.registered (p := (false, l)) hl, (hw.settled hl).alive⟩
    · exact ⟨hw.registered (p := (true, l)) hl, hw.binary_alive l w hl (Set.notMem_empty l)⟩

def twoClauses : Session :=
  [Op.registerClause 0, .registerClause 1, .newLevel, .append ⟨0, .negative⟩ .includeLemmas].foldl exec
    (new (fun c => if c = 0 then .ofLits [⟨0, .positive⟩, ⟨1, .positive⟩, ⟨2, .positive⟩]
      else .ofLits [⟨0, .positive⟩, ⟨3, .positive⟩]) 3)

theorem twoClauses_watch_lists : ∃ w₀ w₁, TwoWatchers twoClauses.asg.watchers twoClauses.asg.binaryWatchers 0
    ((twoClauses.asg.mem 0).lit 0) ((twoClauses.asg.mem 0).lit 1) w₀ w₁ ∧ w₀.index = 0 ∧ w₁.index = 1 :=
  ((watch_lists_of_reachable (σ := twoClauses) (Reachable.foldl (.new _ _ _) (by decide)) (by decide)).1 0
    (by decide) (by decide)).1 (by decide)

/-- A clause registered while scheduled for deletion has watchers. -/
theorem exists_watcher_of_deleted : ∃ σ, Session.Reachable Watchable σ ∧
    σ.asg.litsRequiringWatcherUpdateAsVec = [] ∧ ∃ l, ∃ w ∈ σ.asg.watchers l,
      w.clause ∈ σ.registered ∧ (σ.asg.mem w.clause).scheduledForDeletion = true := by
  refine ⟨(new (fun _ => ⟨[⟨0, .positive⟩, ⟨1, .positive⟩, ⟨2, .positive⟩], false, true, false⟩) 2).exec
    (.registerClause 0), .step (Reachable.new _ _ _) ⟨.registerClause 0, by decide, rfl⟩, by decide,
    ⟨0, .positive⟩, ⟨0, ⟨1, .positive⟩, 0, false⟩, by decide, by decide, by decide⟩

end Session

end JamSAT
