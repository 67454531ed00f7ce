import JamSAT.CleanupSound
import JamSAT.PropagationSound

/-!
# The operations keep the invariant

`Core` and `Propagated` through undoing, new levels, registrations and appends,
and what they give once propagation has ended: no clause is left falsified or
unit, and a conflict has both watched literals on the current level.
-/

namespace JamSAT

namespace Assignment

/-! ## Other trails -/

section
variable {R K Z : Set ClauseRef} {dead : Set CNFLit} {ex : Bool} {s t : Assignment}

theorem Explained.transfer {R' : Set ClauseRef} (h : s.Explained R) (hR : R ⊆ R') (hm : t.mem = s.mem)
    (hp : t.trail <+: s.trail) (hk : ∀ l ∈ t.trail, t.reasonsAndALs l.var = s.reasonsAndALs l.var) :
    t.Explained R' := by
  have hr : ∀ l ∈ t.trail, t.getReason l.var = s.getReason l.var := fun l hl => by
    simp [getReason, hk l hl]
  refine ⟨fun l hl c hc => hR (h.registered l (hp.subset hl) c (hr l hl ▸ hc)), ?_⟩
  intro pre l hpl c hc
  have hl : l ∈ t.trail := hpl.subset (List.mem_append_right _ (List.mem_singleton_self l))
  obtain ⟨hw, ho⟩ := h.reason pre l (hpl.trans hp) c (hr l hl ▸ hc)
  exact ⟨hm ▸ hw, hm ▸ ho⟩

theorem ReasonInv.transfer {R' : Set ClauseRef} (h : s.ReasonInv R) (hR : R ⊆ R') (hm : t.mem = s.mem)
    (hp : t.trail <+: s.trail) (hk : ∀ l ∈ t.trail, t.reasonsAndALs l.var = s.reasonsAndALs l.var) :
    t.ReasonInv R' := by
  have hr : ∀ l ∈ t.trail, t.getReason l.var = s.getReason l.var := fun l hl => by
    simp [getReason, hk l hl]
  have hlev : ∀ l ∈ t.trail, t.getLevel l.var = s.getLevel l.var := fun l hl => by simp [getLevel, hk l hl]
  have hexp := h.explained.transfer hR hm hp hk
  refine ⟨hexp.registered, fun pre l hpl c hc => ⟨hexp.reason pre l hpl c hc, fun h0 => ?_⟩⟩
  have hl : l ∈ t.trail := hpl.subset (List.mem_append_right _ (List.mem_singleton_self l))
  have hf := h.forced pre l (hpl.trans hp) c (hr l hl ▸ hc)
  rw [hlev l hl] at h0 ⊢
  obtain ⟨x, hx, hne, hlx⟩ := hf.level h0
  have hxt : -x ∈ t.trail := hpl.subset (List.mem_append_left _ (hf.others x hx hne))
  exact ⟨x, hm ▸ hx, hne, (hlev (-x) hxt).trans hlx⟩

theorem Core.transfer (h : Core R K Z dead s) (ht : t.TrailInv) (hm : t.mem = s.mem)
    (hw : t.watchers = s.watchers) (hb : t.binaryWatchers = s.binaryWatchers) (hs : s.size ≤ t.size)
    (hp : t.trail <+: s.trail) (hk : ∀ l ∈ t.trail, t.reasonsAndALs l.var = s.reasonsAndALs l.var) :
    Core R K Z dead t where
  trail := ht
  watch := h.watch.congr hm hw hb
  wf := hm ▸ h.wf
  vars c hc l hl := (h.vars c hc l (hm ▸ hl)).trans_le hs
  reasons := h.reasons.transfer (Set.Subset.refl R) hm hp hk
  blocker := by rw [hm, hw]; exact h.blocker
  bit := by rw [hm, hw]; exact h.bit

theorem Propagated.transfer {q q' : Nat} (h : s.Propagated ex dead q) (hs : s.TrailInv) (ht : t.TrailInv)
    (hm : t.mem = s.mem) (hw : t.watchers = s.watchers) (hb : t.binaryWatchers = s.binaryWatchers)
    (hk : ∀ l ∈ t.trail, t.reasonsAndALs l.var = s.reasonsAndALs l.var)
    (hq : ∀ l ∈ t.trail.take q', l ∈ s.trail.take q)
    (hlow : ∀ l ∈ t.trail.take q', ∀ x ∈ s.trail, s.getLevel x.var ≤ s.getLevel l.var → x ∈ t.trail)
    (hp : ∀ l ∈ t.trail.drop q', t.getLevel l.var = t.currentLevel) : t.Propagated ex dead q' := by
  have hlev : ∀ l ∈ t.trail, t.getLevel l.var = s.getLevel l.var := fun l hl => by simp [getLevel, hk l hl]
  have hcov : ∀ l, -l ∈ t.trail.take q' → ∀ x, s.getAssignment x = .TRUE →
      s.getLevel x.var ≤ s.getLevel l.var →
      t.getAssignment x = .TRUE ∧ t.getLevel x.var ≤ t.getLevel l.var := by
    intro l hl x hx hle
    have hxt := hlow (-l) hl x ((hs.mem_trail x).mpr hx) hle
    refine ⟨(ht.mem_trail x).mp hxt, ?_⟩
    rw [hlev x hxt]
    exact hle.trans_eq (hlev (-l) (List.mem_of_mem_take hl)).symm
  refine ⟨?_, ?_, hp⟩
  · intro l hl w hww hx
    obtain ⟨x, hxm, hxt, hle⟩ := h.big l (hq _ hl) w (hw ▸ hww) hx
    exact ⟨x, hm ▸ hxm, hcov l hl x hxt hle⟩
  · intro l hl w hwb
    obtain ⟨hxt, hle⟩ := h.binary l (hq _ hl) w (hb ▸ hwb)
    exact hcov l hl _ hxt hle

theorem Propagated.mono {ex' : Bool} {q : Nat} (h : s.Propagated ex dead q) (hx : ex = true → ex' = true) :
    s.Propagated ex' dead q :=
  ⟨fun l hl w hw hn => h.big l hl w hw fun hr => hn ⟨hx hr.1, hr.2⟩, h.binary, h.pending⟩

theorem Propagated.of_trail_nil (h : t.trail = []) (q : Nat) : t.Propagated ex dead q := by
  refine ⟨?_, ?_, ?_⟩ <;> intro l hl <;> simp [h] at hl

theorem Explained.of_trail_nil (h : t.trail = []) : t.Explained R := by
  refine ⟨?_, ?_⟩
  · intro l hl; simp [h] at hl
  · intro pre l hp; simp [h] at hp

theorem ReasonInv.of_trail_nil (h : t.trail = []) : t.ReasonInv R := by
  refine ⟨?_, ?_⟩
  · intro l hl; simp [h] at hl
  · intro pre l hp; simp [h] at hp

theorem Core.undoToLevel (h : Core R K Z dead s) {k : Nat} (hk : k < s.currentLevel) :
    Core R K Z dead (s.undoToLevel k) :=
  h.transfer (h.trail.undoToLevel hk) (by simp) (by simp) (by simp) (by simp)
    (by rw [undoToLevel_trail]; exact List.take_prefix _ _) fun _ _ => by simp

theorem Propagated.undoToLevel {q : Nat} (h : s.Propagated ex dead q) (hs : s.TrailInv) {k : Nat}
    (hk : k < s.currentLevel) :
    (s.undoToLevel k).Propagated ex dead (s.undoToLevel k).trail.length := by
  have hmem : ∀ l, l ∈ (s.undoToLevel k).trail ↔ l ∈ s.trail ∧ s.getLevel l.var < k + 1 := fun l => by
    rw [undoToLevel_trail]; exact hs.mem_take_limit hk
  refine h.transfer hs (hs.undoToLevel hk) (by simp) (by simp) (by simp) (fun _ _ => by simp) ?_ ?_
    fun l hl => by rw [List.drop_length] at hl; cases hl
  · intro l hl
    rw [List.take_length] at hl
    obtain ⟨hl, hlev⟩ := (hmem l).mp hl
    rw [← List.take_append_drop q s.trail] at hl
    refine (List.mem_append.mp hl).resolve_right fun hd => ?_
    have := h.pending l hd
    omega
  · intro l hl x hx hle
    rw [List.take_length] at hl
    have := ((hmem l).mp hl).2
    exact (hmem x).mpr ⟨hx, by omega⟩

theorem Core.undoAll (h : Core R K Z dead s) : Core R K Z dead s.undoAll :=
  h.transfer h.trail.undoAll (by simp) (by simp) (by simp) (by simp) (by simp) (by simp)

theorem Core.newLevel (h : Core R K Z dead s) : Core R K Z dead s.newLevel :=
  h.transfer h.trail.newLevel rfl rfl rfl (Nat.le_refl _) (List.prefix_refl _) fun _ _ => rfl

theorem Propagated.newLevel (h : s.Propagated ex dead s.trail.length) :
    s.newLevel.Propagated ex dead s.newLevel.trail.length :=
  ⟨h.big, h.binary, fun l hl => by rw [List.drop_length] at hl; cases hl⟩

theorem Propagated.increaseMaxVar (h : s.Propagated ex dead s.trail.length) (hs : s.TrailInv) (n : Nat) :
    (s.increaseMaxVar n).Propagated ex dead (s.increaseMaxVar n).trail.length :=
  h.transfer hs (hs.increaseMaxVar n) (by simp) (by simp) (by simp)
    (fun _ hl => increaseMaxVar_kept hs (by simpa using hl)) (fun _ hl => by simpa using hl)
    (fun _ _ _ hx _ => by simpa using hx) fun _ hl => by rw [List.drop_length] at hl; cases hl

/-! ## Registering clauses and appending literals -/

theorem Core.registerClause (h : Core R K Z dead s) {c : ClauseRef} (hc : c ∉ R) (hwf : (s.mem c).WellFormed)
    (hv : ∀ l ∈ (s.mem c).lits, l.var < s.size)
    (hd : (s.mem c).scheduledForDeletion = true → c ∈ Z) :
    Core (insert c R) (insert c K) Z dead (s.registerClause c) := by
  have hsame := sameTrail_registerClause s c
  have hmem : ∀ {l w}, w ∈ (s.registerClause c).lists (false, l) → w ∈ s.watchers l ∨ ∃ i, w = s.newWatcher c i :=
    fun hw => (mem_registerClause.mp hw).imp id fun ⟨i, _, hi⟩ => ⟨i, hi⟩
  refine ⟨hsame.trailInv h.trail, h.watch.registerClause hc hwf.two_le_size hd, ?_, ?_,
    h.reasons.transfer (Set.subset_insert c R) (registerClause_mem s c) (hsame.trail ▸ List.prefix_refl _)
      fun l _ => by rw [hsame.reasonsAndALs], ?_, ?_⟩
  all_goals rw [registerClause_mem]
  · rintro d (rfl | hd)
    · exact hwf
    · exact h.wf d hd
  · rw [hsame.size]
    rintro d (rfl | hd)
    · exact hv
    · exact h.vars d hd
  · intro l w hw
    rcases hmem hw with hw | ⟨i, rfl⟩
    · exact h.blocker l w hw
    · have hlt : 1 - i.val < (s.mem c).size := by have := hwf.two_le_size; omega
      exact .inl (Clause.lit_mem hlt)
  · intro l w hw
    rcases hmem hw with hw | ⟨i, rfl⟩
    · exact h.bit l w hw
    · rfl

/-- The clause of `registerLemma`: its first literal is forced on the current level. -/
structure Asserting (s : Assignment) (c : Clause) : Prop where
  first : s.getAssignment (c.lit 0) = .INDETERMINATE
  others : ∀ x ∈ c.lits, x ≠ c.lit 0 → s.getAssignment x = .FALSE
  second : s.getLevel (c.lit 1).var = s.currentLevel

theorem Asserting.mayForce {c : ClauseRef} (h : s.Asserting (s.mem c)) (hwf : (s.mem c).WellFormed)
    (hc : c ∈ R) : MayForce R s ((s.mem c).lit 0) c where
  registered := hc
  watched := ⟨0, rfl⟩
  others := h.others
  level := ⟨(s.mem c).lit 1, Clause.lit_mem hwf.two_le_size,
    fun he => absurd (hwf.lit_inj hwf.two_le_size (hwf.watch_lt 0) he) (by decide), h.second⟩

/-- Registering a lemma and assigning its first literal keeps the lower entries propagated. -/
theorem Propagated.registerLemma (h : s.Propagated ex dead s.trail.length) (hs : s.TrailInv) {c : ClauseRef}
    (hwf : (s.mem c).WellFormed) (ha : s.Asserting (s.mem c)) :
    ((s.registerClause c).assign ((s.mem c).lit 0) (some c)).Propagated ex dead s.trail.length := by
  have hsame := sameTrail_registerClause s c
  have ht := hsame.trailInv hs
  have hind : (s.registerClause c).getAssignment ((s.mem c).lit 0) = .INDETERMINATE := by
    rw [hsame.getAssignment]; exact ha.first
  have hlen : s.trail.length ≤ (s.registerClause c).trail.length := by rw [hsame.trail]
  have htake : ((s.registerClause c).assign ((s.mem c).lit 0) (some c)).trail.take s.trail.length = s.trail := by
    rw [assign_trail, hsame.trail, List.take_left']; rfl
  set u := (s.registerClause c).assign ((s.mem c).lit 0) (some c) with hu
  have hself : u.getAssignment ((s.mem c).lit 0) = .TRUE ∧ u.getLevel ((s.mem c).lit 0).var = s.currentLevel :=
    ⟨getAssignment_assign_self _ _ _, (getLevel_assign_self _ _ _).trans hsame.currentLevel⟩
  -- the new watcher of the second literal is covered by the first one, which is true
  have hnew : ∀ {b l} {i : Fin 2}, -l ∈ s.trail → (b, l) = (decide ((s.mem c).size ≤ 2), (s.mem c).lit i) →
      i = 1 ∧ s.currentLevel ≤ u.getLevel l.var := by
    intro b l i hl hp
    obtain rfl := (Prod.mk.inj hp).2
    have hf := hs.neg_mem_trail.mp hl
    rcases eq_or_eq_one_sub 1 i with rfl | rfl
    · refine ⟨rfl, ?_⟩
      have hne : ((s.mem c).lit 1).var ≠ ((s.mem c).lit 0).var :=
        hs.var_ne_of_indet (l := -(s.mem c).lit 1) hl ha.first
      exact ((ha.second.symm.trans (hsame.getLevel _).symm).trans (getLevel_assign_of_ne hne).symm).le
    · exact absurd (ha.first.symm.trans hf) (by decide)
  refine ⟨?_, ?_, ?_⟩
  · intro l hl w hw hx
    rw [htake] at hl
    rcases mem_registerClause.mp (show w ∈ (s.registerClause c).lists (false, l) from hw) with
      hw | ⟨i, hp, rfl⟩
    · obtain ⟨x, hxm, hxt, hlev⟩ := h.big l (by rwa [List.take_length]) w hw hx
      have hcov : (s.registerClause c).Covered dead l w :=
        ⟨x, by rwa [registerClause_mem], by rwa [hsame.getAssignment], by rwa [hsame.getLevel, hsame.getLevel]⟩
      exact hcov.assign ht hind (by rwa [hsame.trail]) _
    · obtain ⟨rfl, hlev⟩ := hnew hl hp
      refine ⟨(s.mem c).lit 0, .inl ?_, hself.1, hself.2.trans_le hlev⟩
      show (s.mem c).lit 0 ∈ ((s.registerClause c).mem c).lits
      rw [registerClause_mem]; exact Clause.lit_mem (hwf.watch_lt 0)
  · intro l hl w hw
    rw [htake] at hl
    rcases mem_registerClause.mp (show w ∈ (s.registerClause c).lists (true, l) from hw) with
      hw | ⟨i, hp, rfl⟩
    · obtain ⟨hxt, hlev⟩ := h.binary l (by rwa [List.take_length]) w hw
      have hcov : (s.registerClause c).BinaryCovered l w :=
        ⟨by rwa [hsame.getAssignment], by rwa [hsame.getLevel, hsame.getLevel]⟩
      exact hcov.assign ht hind (by rwa [hsame.trail]) _
    · obtain ⟨rfl, hlev⟩ := hnew hl hp
      exact ⟨hself.1, hself.2.trans_le hlev⟩
  · intro l hl
    rw [assign_trail, hsame.trail, List.drop_left'] at hl
    · obtain rfl := List.mem_singleton.mp hl
      exact getLevel_assign_self _ _ _
    · rfl

theorem append_sound {mode : UpMode} (hmode : mode = .excludeLemmas → ex = true) (h : Core R K Z dead s)
    (hp : s.Propagated ex dead s.trail.length) (hv : s.litsRequiringWatcherUpdateAsVec = []) {l : CNFLit}
    (hl : s.getAssignment l = .INDETERMINATE) (hr : l.var < s.size) :
    EndsFixpoint (Fixpoint R K Z dead ex (s.assign l none)) (Falsified R K Z dead ex (s.assign l none))
      (s.append l mode) :=
  propagateUntilFixpoint_sound hmode (h.assign hl hr fun _ hc => nomatch hc)
    (hp.assign h.trail (Nat.le_refl _) hl none) (by simp) (by simp) hv

/-- The cleanup restores the invariant if every watcher in its right list has an
admissible blocker and the right redundancy bit. -/
theorem Core.of_cleanup (ht : s.TrailInv)
    (hw : WatchInv R K Z {l | l ∈ s.litsRequiringWatcherUpdateAsVec} s)
    (hK : ∀ c ∈ K, (s.mem c).scheduledForDeletion = false) (hwf : ∀ c ∈ R, (s.mem c).WellFormed)
    (hv : ∀ c ∈ R, ∀ l ∈ (s.mem c).lits, l.var < s.size) (hr : s.ReasonInv R)
    (hsync : ∀ l, ∀ w ∈ s.watchers l, Settled s.mem Z l w →
      (w.otherWatchedLiteral ∈ (s.mem w.clause).lits ∨ w.otherWatchedLiteral ∈ dead) ∧
        w.isRedundant = (s.mem w.clause).redundant) : Core R K Z dead s.cleanupWatchers := by
  have hsame := sameTrail_cleanupWatchers s
  have hclean := hw.cleanupWatchers hK (Set.Subset.refl _)
  have key : ∀ l, ∀ w ∈ s.cleanupWatchers.watchers l,
      (w.otherWatchedLiteral ∈ (s.mem w.clause).lits ∨ w.otherWatchedLiteral ∈ dead) ∧
        w.isRedundant = (s.mem w.clause).redundant := by
    intro l w hl
    have hset := hclean.settled hl
    rw [cleanupWatchers_mem] at hset
    rcases mem_cleanupWatchers hl with hl | ⟨hb, hbit⟩
    · exact hsync l w hl hset
    · exact ⟨.inl (hb ▸ Clause.lit_mem (by have := hset.size; omega)), hbit⟩
  refine ⟨hsame.trailInv ht, hclean, ?_, ?_, hr.transfer (Set.Subset.refl R) (cleanupWatchers_mem s)
    (hsame.trail ▸ List.prefix_refl _) fun l _ => by rw [hsame.reasonsAndALs], ?_, ?_⟩
  all_goals rw [cleanupWatchers_mem]
  · exact hwf
  · rw [hsame.size]; exact hv
  · exact fun l w hl => (key l w hl).1
  · exact fun l w hl => (key l w hl).2

/-- The append that triggers the cleanup, with nothing assigned before it. -/
theorem append_cleanup_sound {mode : UpMode} (hmode : mode = .excludeLemmas → ex = true) (ht : s.TrailInv)
    (hw : WatchInv R K Z {l | l ∈ s.litsRequiringWatcherUpdateAsVec} s)
    (hK : ∀ c ∈ K, (s.mem c).scheduledForDeletion = false) (hwf : ∀ c ∈ R, (s.mem c).WellFormed)
    (hvars : ∀ c ∈ R, ∀ l ∈ (s.mem c).lits, l.var < s.size)
    (hsync : ∀ l, ∀ w ∈ s.watchers l, Settled s.mem Z l w →
      (w.otherWatchedLiteral ∈ (s.mem w.clause).lits ∨ w.otherWatchedLiteral ∈ dead) ∧
        w.isRedundant = (s.mem w.clause).redundant)
    (hnil : s.trail = []) (hv : s.litsRequiringWatcherUpdateAsVec ≠ []) {l : CNFLit}
    (hl : s.getAssignment l = .INDETERMINATE) (hr : l.var < s.size) :
    EndsFixpoint (Fixpoint R K Z dead ex (s.assign l none).cleanupWatchers)
      (Falsified R K Z dead ex (s.assign l none).cleanupWatchers) (s.append l mode) := by
  have hreason : (s.assign l none).ReasonInv R :=
    (ReasonInv.of_trail_nil hnil).assign ht hl fun _ hc => nomatch hc
  have hcore : Core R K Z dead (s.assign l none).cleanupWatchers :=
    Core.of_cleanup (ht.assign hl hr none) (hw.congr rfl rfl rfl) hK hwf hvars hreason hsync
  have hsame := sameTrail_cleanupWatchers (s.assign l none)
  have htrail : (s.assign l none).cleanupWatchers.trail = [l] := by rw [hsame.trail, assign_trail, hnil]; rfl
  unfold append
  rw [propagateUntilFixpoint_cleanup (s := s.assign l none) l hv]
  refine propagateUntilFixpoint_sound (q := 0) hmode hcore ⟨?_, ?_, ?_⟩ (by rw [htrail]; rfl)
    (by rw [htrail]; rfl) rfl
  · intro m hm; simp at hm
  · intro m hm; simp at hm
  · intro m hm
    rw [htrail, List.drop_zero, List.mem_singleton] at hm
    rw [hm, hsame.getLevel, hsame.currentLevel, getLevel_assign_self]; rfl

theorem registerLemma_sound (h : Core R K Z dead s) (hp : s.Propagated ex dead s.trail.length)
    (hv : s.litsRequiringWatcherUpdateAsVec = []) {c : ClauseRef} (hc : c ∉ R)
    (hwf : (s.mem c).WellFormed) (hvars : ∀ l ∈ (s.mem c).lits, l.var < s.size)
    (hd : (s.mem c).scheduledForDeletion = true → c ∈ Z) (ha : s.Asserting (s.mem c)) :
    EndsFixpoint
      (Fixpoint (insert c R) (insert c K) Z dead ex ((s.registerClause c).assign ((s.mem c).lit 0) (some c)))
      (Falsified (insert c R) (insert c K) Z dead ex ((s.registerClause c).assign ((s.mem c).lit 0) (some c)))
      (s.registerLemma c) := by
  have hsame := sameTrail_registerClause s c
  have hcore := h.registerClause hc hwf hvars hd
  have ha' : (s.registerClause c).Asserting ((s.registerClause c).mem c) := by
    rw [registerClause_mem]
    exact ⟨by rw [hsame.getAssignment]; exact ha.first,
      fun x hx hne => by rw [hsame.getAssignment]; exact ha.others x hx hne,
      by rw [hsame.getLevel, hsame.currentLevel]; exact ha.second⟩
  have hforce := ha'.mayForce (R := insert c R) (by rwa [registerClause_mem]) (Set.mem_insert c R)
  rw [registerClause_mem] at hforce
  unfold registerLemma
  dsimp only
  rw [registerClause_mem]
  refine propagateUntilFixpoint_sound (fun he : UpMode.includeLemmas = .excludeLemmas => nomatch he)
    (hcore.assign ?_ ?_ fun d hd => Option.some.inj hd ▸ hforce) (hp.registerLemma h.trail hwf ha) ?_ ?_ ?_
  · rw [hsame.getAssignment]; exact ha.first
  · rw [hsame.size]; exact hvars _ (Clause.lit_mem (hwf.watch_lt 0))
  · rw [assign_trail, hsame.trail]; simp
  · rw [assign_trail, hsame.trail]; simp
  · unfold registerClause; dsimp only; split <;> exact hv

/-! ## Completeness -/

theorem Propagated.exists_true {q : Nat} (hp : s.Propagated ex dead q) (h : Core R K Z dead s)
    (hdead : ∀ x ∈ dead, s.getAssignment x ≠ .TRUE) {c : ClauseRef} (hc : c ∈ K)
    (hex : ex = true → (s.mem c).redundant = true → (s.mem c).size = 2) (i : Fin 2)
    (hi : -(s.mem c).lit i ∈ s.trail.take q) : ∃ x ∈ (s.mem c).lits, s.getAssignment x = .TRUE := by
  have hcR := h.watch.kept_subset hc
  by_cases hs : (s.mem c).size = 2
  · obtain ⟨w, hw, rfl⟩ := h.watch.exists_binaryWatcher hc hs (Clause.lit_mem ((h.wf c hcR).watch_lt i))
    exact ⟨_, (h.watch.binary _ w hw).mem_iff.mpr (List.mem_cons_of_mem _ List.mem_cons_self),
      (hp.binary _ hi w hw).1⟩
  · have := (h.wf c hcR).two_le_size
    obtain ⟨w, hw, rfl, -⟩ := h.watch.exists_watcher hc (by omega) i
    obtain ⟨x, hx, hxt, -⟩ := hp.big _ hi w hw fun hx => hs (hex hx.1 (h.bit _ w hw ▸ hx.2))
    exact ⟨x, hx.resolve_right fun hd => hdead x hd hxt, hxt⟩

/-- The clause is not falsified, and if it has a single literal that is not
false, this literal is true. -/
def NotUnit (s : Assignment) (c : Clause) : Prop :=
  ∀ u, (∀ x ∈ c.lits, x ≠ u → s.getAssignment x = .FALSE) → u ∈ c.lits ∧ s.getAssignment u = .TRUE

theorem Propagated.notUnit (hp : s.Propagated ex dead s.trail.length) (h : Core R K Z dead s)
    (hdead : ∀ x ∈ dead, s.getAssignment x ≠ .TRUE) {c : ClauseRef} (hc : c ∈ K)
    (hex : ex = true → (s.mem c).redundant = true → (s.mem c).size = 2) : s.NotUnit (s.mem c) := by
  intro u hu
  have hwf := h.wf c (h.watch.kept_subset hc)
  obtain ⟨i, hne⟩ := hwf.exists_lit_ne u
  have hf := hu _ (Clause.lit_mem (hwf.watch_lt i)) hne
  obtain ⟨x, hx, hxt⟩ := hp.exists_true h hdead hc hex i
    (by rw [List.take_length]; exact h.trail.neg_mem_trail.mpr hf)
  by_cases hxu : x = u
  · exact hxu ▸ ⟨hx, hxt⟩
  · exact absurd (hxt.symm.trans (hu x hx hxu)) (by decide)

theorem NotUnit.of_trail_nil {c : Clause} (ht : s.TrailInv) (hn : s.trail = []) (hwf : c.WellFormed) :
    s.NotUnit c := by
  intro u hu
  exfalso
  obtain ⟨i, hne⟩ := hwf.exists_lit_ne u
  have hm := ht.neg_mem_trail.mpr (hu _ (Clause.lit_mem (hwf.watch_lt i)) hne)
  rw [hn] at hm
  cases hm

theorem NotUnit.not_falsified {c : Clause} (h : s.NotUnit c) :
    ¬ ∀ x ∈ c.lits, s.getAssignment x = .FALSE := fun hf =>
  absurd ((h CNFLit.undefinedLiteral fun x hx _ => hf x hx).2.symm.trans
    (hf _ (h CNFLit.undefinedLiteral fun x hx _ => hf x hx).1)) (by decide)

theorem NotUnit.not_unit {c : Clause} (h : s.NotUnit c) {u : CNFLit}
    (hu : s.getAssignment u = .INDETERMINATE) :
    ¬ ∀ x ∈ c.lits, x ≠ u → s.getAssignment x = .FALSE := fun hf =>
  absurd ((h u hf).2.symm.trans hu) (by decide)

theorem Propagated.conflict_level {q : Nat} (hp : s.Propagated ex dead q) (h : Core R K Z dead s)
    (hdead : ∀ x ∈ dead, s.getAssignment x ≠ .TRUE) {c : ClauseRef} (hc : c ∈ K)
    (hex : ex = true → (s.mem c).redundant = true → (s.mem c).size = 2)
    (hf : ∀ x ∈ (s.mem c).lits, s.getAssignment x = .FALSE) (i : Fin 2) :
    s.getLevel ((s.mem c).lit i).var = s.currentLevel := by
  have hwf := h.wf c (h.watch.kept_subset hc)
  have hi := h.trail.neg_mem_trail.mpr (hf _ (Clause.lit_mem (hwf.watch_lt i)))
  rw [← List.take_append_drop q s.trail] at hi
  rcases List.mem_append.mp hi with hi | hi
  · obtain ⟨x, hx, hxt⟩ := hp.exists_true h hdead hc hex i hi
    exact absurd (hxt.symm.trans (hf x hx)) (by decide)
  · exact hp.pending (-(s.mem c).lit i) hi

end

end Assignment

end JamSAT
