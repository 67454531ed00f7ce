import JamSAT.WatchSound

/-!
# What propagation maintains

`Core` collects what holds whenever no cleanup is pending: the trail and watch
invariants, and that every forced literal has been forced by its reason.
`Propagated ex dead q` says that the first `q` entries of the trail have been
propagated: each watcher of a literal they falsify has a true literal in its
clause (or a true literal in `dead`) that is not above it. `ex` tells whether
some propagation may have left out the redundant clauses.
-/

namespace JamSAT

open VecEdit KeyedLists

namespace Assignment

structure ExplainedBy (s : Assignment) (pre : List CNFLit) (l : CNFLit) (c : ClauseRef) : Prop where
  watched : ∃ i : Fin 2, (s.mem c).lit i = l
  others : ∀ x ∈ (s.mem c).lits, x ≠ l → -x ∈ pre

/-- The clause at `c` has forced the entry `l` on the level of another literal of it. -/
structure ForcedBy (s : Assignment) (pre : List CNFLit) (l : CNFLit) (c : ClauseRef) : Prop
    extends s.ExplainedBy pre l c where
  level : 0 < s.getLevel l.var → ∃ x ∈ (s.mem c).lits, x ≠ l ∧ s.getLevel x.var = s.getLevel l.var

structure Explained (R : Set ClauseRef) (s : Assignment) : Prop where
  registered : ∀ l ∈ s.trail, ∀ c, s.getReason l.var = some c → c ∈ R
  reason : ∀ pre l, pre ++ [l] <+: s.trail → ∀ c, s.getReason l.var = some c → s.ExplainedBy pre l c

structure ReasonInv (R : Set ClauseRef) (s : Assignment) : Prop where
  registered : ∀ l ∈ s.trail, ∀ c, s.getReason l.var = some c → c ∈ R
  forced : ∀ pre l, pre ++ [l] <+: s.trail → ∀ c, s.getReason l.var = some c → s.ForcedBy pre l c

theorem ReasonInv.explained {R : Set ClauseRef} {s : Assignment} (h : s.ReasonInv R) : s.Explained R :=
  ⟨h.registered, fun pre l hp c hc => (h.forced pre l hp c hc).toExplainedBy⟩

structure Core (R K Z : Set ClauseRef) (dead : Set CNFLit) (s : Assignment) : Prop where
  trail : s.TrailInv
  watch : WatchInv R K Z ∅ s
  wf : ∀ c ∈ R, (s.mem c).WellFormed
  vars : ∀ c ∈ R, ∀ l ∈ (s.mem c).lits, l.var < s.size
  reasons : s.ReasonInv R
  blocker : ∀ l, ∀ w ∈ s.watchers l,
    w.otherWatchedLiteral ∈ (s.mem w.clause).lits ∨ w.otherWatchedLiteral ∈ dead
  bit : ∀ l, ∀ w ∈ s.watchers l, w.isRedundant = (s.mem w.clause).redundant

/-- The falsified literal `l` does not matter to the watcher `w`. -/
def Covered (dead : Set CNFLit) (s : Assignment) (l : CNFLit) (w : Watcher) : Prop :=
  ∃ x, (x ∈ (s.mem w.clause).lits ∨ x ∈ dead) ∧ s.getAssignment x = .TRUE ∧
    s.getLevel x.var ≤ s.getLevel l.var

def BinaryCovered (s : Assignment) (l : CNFLit) (w : Watcher) : Prop :=
  s.getAssignment w.otherWatchedLiteral = .TRUE ∧
    s.getLevel w.otherWatchedLiteral.var ≤ s.getLevel l.var

structure Propagated (ex : Bool) (dead : Set CNFLit) (q : Nat) (s : Assignment) : Prop where
  big : ∀ l, -l ∈ s.trail.take q → ∀ w ∈ s.watchers l, ¬ (ex = true ∧ w.isRedundant = true) →
    s.Covered dead l w
  binary : ∀ l, -l ∈ s.trail.take q → ∀ w ∈ s.binaryWatchers l, s.BinaryCovered l w
  pending : ∀ l ∈ s.trail.drop q, s.getLevel l.var = s.currentLevel

structure Extends (s t : Assignment) : Prop where
  size : t.size = s.size
  levelLimits : t.levelLimits = s.levelLimits
  currentLevel : t.currentLevel = s.currentLevel
  phases : t.phases = s.phases
  flagMap : t.litsRequiringWatcherUpdate = s.litsRequiringWatcherUpdate
  flagVec : t.litsRequiringWatcherUpdateAsVec = s.litsRequiringWatcherUpdateAsVec
  trail : s.trail <+: t.trail
  kept : ∀ l ∈ s.trail, t.reasonsAndALs l.var = s.reasonsAndALs l.var
  lits : ∀ c, (t.mem c).lits.Perm (s.mem c).lits
  redundant : ∀ c, (t.mem c).redundant = (s.mem c).redundant
  scheduledForDeletion : ∀ c, (t.mem c).scheduledForDeletion = (s.mem c).scheduledForDeletion
  modified : ∀ c, (t.mem c).modified = (s.mem c).modified

namespace Extends

theorem refl (s : Assignment) : Extends s s :=
  ⟨rfl, rfl, rfl, rfl, rfl, rfl, List.prefix_refl _, fun _ _ => rfl, fun _ => List.Perm.refl _,
    fun _ => rfl, fun _ => rfl, fun _ => rfl⟩

theorem trans {s t u : Assignment} (h : Extends s t) (h' : Extends t u) : Extends s u where
  size := h'.size.trans h.size
  levelLimits := h'.levelLimits.trans h.levelLimits
  currentLevel := h'.currentLevel.trans h.currentLevel
  phases := h'.phases.trans h.phases
  flagMap := h'.flagMap.trans h.flagMap
  flagVec := h'.flagVec.trans h.flagVec
  trail := h.trail.trans h'.trail
  kept l hl := (h'.kept l (h.trail.subset hl)).trans (h.kept l hl)
  lits c := (h'.lits c).trans (h.lits c)
  redundant c := (h'.redundant c).trans (h.redundant c)
  scheduledForDeletion c := (h'.scheduledForDeletion c).trans (h.scheduledForDeletion c)
  modified c := (h'.modified c).trans (h.modified c)

theorem assign {s : Assignment} (ht : s.TrailInv) {l : CNFLit} (hl : s.getAssignment l = .INDETERMINATE)
    (r : Option ClauseRef) : Extends s (s.assign l r) where
  size := rfl
  levelLimits := rfl
  currentLevel := rfl
  phases := rfl
  flagMap := rfl
  flagVec := rfl
  trail := List.prefix_append _ _
  kept m hm := by simp [Assignment.assign, ht.var_ne_of_indet hm hl]
  lits _ := List.Perm.refl _
  redundant _ := rfl
  scheduledForDeletion _ := rfl
  modified _ := rfl

theorem moveWatch (s : Assignment) (l : CNFLit) (k : Nat) (w : Watcher) (i : Nat) :
    Extends s (s.moveWatch l k w i) where
  size := rfl
  levelLimits := rfl
  currentLevel := rfl
  phases := rfl
  flagMap := rfl
  flagVec := rfl
  trail := List.prefix_refl _
  kept _ _ := rfl
  lits := moveWatch_lits_perm s l k w i
  redundant c := by
    by_cases h : c = w.clause
    · subst h; rw [moveWatch_mem_self]; rfl
    · rw [moveWatch_mem_of_ne _ _ _ _ _ h]
  scheduledForDeletion := moveWatch_scheduledForDeletion s l k w i
  modified c := by
    by_cases h : c = w.clause
    · subst h; rw [moveWatch_mem_self]; rfl
    · rw [moveWatch_mem_of_ne _ _ _ _ _ h]

variable {s t : Assignment} (h : Extends s t)
include h

theorem getLevel {l : CNFLit} (hl : l ∈ s.trail) : t.getLevel l.var = s.getLevel l.var := by
  simp [Assignment.getLevel, h.kept l hl]

theorem getReason {l : CNFLit} (hl : l ∈ s.trail) : t.getReason l.var = s.getReason l.var := by
  simp [Assignment.getReason, h.kept l hl]

theorem mem_lits {c : ClauseRef} {l : CNFLit} : l ∈ (t.mem c).lits ↔ l ∈ (s.mem c).lits :=
  (h.lits c).mem_iff

end Extends

theorem sameTrail_moveWatch (s : Assignment) (l : CNFLit) (k : Nat) (w : Watcher) (i : Nat) :
    SameTrail s (s.moveWatch l k w i) := ⟨rfl, rfl, rfl, rfl, rfl, rfl⟩

/-! ## Assigning a literal -/

section
variable {R K Z : Set ClauseRef} {dead : Set CNFLit} {s : Assignment} {l : CNFLit}

structure MayExplain (R : Set ClauseRef) (s : Assignment) (l : CNFLit) (c : ClauseRef) : Prop where
  registered : c ∈ R
  watched : ∃ i : Fin 2, (s.mem c).lit i = l
  others : ∀ x ∈ (s.mem c).lits, x ≠ l → s.getAssignment x = .FALSE

structure MayForce (R : Set ClauseRef) (s : Assignment) (l : CNFLit) (c : ClauseRef) : Prop
    extends MayExplain R s l c where
  level : ∃ x ∈ (s.mem c).lits, x ≠ l ∧ s.getLevel x.var = s.currentLevel

/-- The reasons on a trail with one more entry, by the old and the new one. -/
theorem reasons_assign {P : List CNFLit → CNFLit → ClauseRef → Prop} {r : Option ClauseRef}
    (ht : s.TrailInv) (hl : s.getAssignment l = .INDETERMINATE)
    (hold : ∀ pre m, pre ++ [m] <+: s.trail → ∀ c, s.getReason m.var = some c → P pre m c)
    (hnew : ∀ c, r = some c → P s.trail l c) :
    ∀ pre m, pre ++ [m] <+: (s.assign l r).trail → ∀ c, (s.assign l r).getReason m.var = some c → P pre m c := by
  intro pre m hp c hc
  rcases List.prefix_concat_iff.mp hp with he | hp
  · obtain ⟨rfl, hm⟩ := List.append_inj' he rfl
    obtain rfl : m = l := by simpa using hm
    rw [getReason_assign_self] at hc
    exact hnew c hc
  · have hm : m ∈ s.trail := hp.subset (List.mem_append_right _ (List.mem_singleton_self m))
    rw [(Extends.assign ht hl r).getReason hm] at hc
    exact hold pre m hp c hc

theorem Explained.assign (h : s.Explained R) (ht : s.TrailInv) (hl : s.getAssignment l = .INDETERMINATE)
    {r : Option ClauseRef} (hr : ∀ c, r = some c → MayExplain R s l c) : (s.assign l r).Explained R where
  registered m hm c hc := by
    rcases List.mem_append.mp hm with hm | hm
    · rw [(Extends.assign ht hl r).getReason hm] at hc
      exact h.registered m hm c hc
    · obtain rfl := List.mem_singleton.mp hm
      rw [getReason_assign_self] at hc
      exact (hr c hc).registered
  reason := by
    refine reasons_assign ht hl (fun pre m hp c hc => ?_) fun c hc => ?_
    · exact ⟨(h.reason pre m hp c hc).watched, (h.reason pre m hp c hc).others⟩
    · exact ⟨(hr c hc).watched, fun y hy hny => ht.neg_mem_trail.mpr ((hr c hc).others y hy hny)⟩

theorem ReasonInv.assign (h : s.ReasonInv R) (ht : s.TrailInv) (hl : s.getAssignment l = .INDETERMINATE)
    {r : Option ClauseRef} (hr : ∀ c, r = some c → MayForce R s l c) : (s.assign l r).ReasonInv R := by
  have hext := Extends.assign ht hl r
  have hexp := h.explained.assign ht hl fun c hc => (hr c hc).toMayExplain
  have hlevel : ∀ pre m, pre ++ [m] <+: (s.assign l r).trail → ∀ c, (s.assign l r).getReason m.var = some c →
      0 < (s.assign l r).getLevel m.var →
        ∃ x ∈ (s.mem c).lits, x ≠ m ∧ (s.assign l r).getLevel x.var = (s.assign l r).getLevel m.var := by
    refine reasons_assign ht hl (fun pre m hp c hc h0 => ?_) fun c hc _ => ?_
    · have hm : m ∈ s.trail := hp.subset (List.mem_append_right _ (List.mem_singleton_self m))
      rw [hext.getLevel hm] at h0 ⊢
      have hf := h.forced pre m hp c hc
      obtain ⟨x, hx, hne, hlx⟩ := hf.level h0
      have hxt : -x ∈ s.trail := hp.subset (List.mem_append_left _ (hf.others x hx hne))
      exact ⟨x, hx, hne, (hext.getLevel hxt).trans hlx⟩
    · obtain ⟨x, hx, hne, hlev⟩ := (hr c hc).level
      refine ⟨x, hx, hne, ?_⟩
      have hxt : -x ∈ s.trail := ht.neg_mem_trail.mpr ((hr c hc).others x hx hne)
      rw [getLevel_assign_self, ← hlev]
      exact hext.getLevel (l := -x) hxt
  exact ⟨hexp.registered, fun pre m hp c hc => ⟨hexp.reason pre m hp c hc, hlevel pre m hp c hc⟩⟩

theorem Core.assign (h : Core R K Z dead s) (hl : s.getAssignment l = .INDETERMINATE) (hv : l.var < s.size)
    {r : Option ClauseRef} (hr : ∀ c, r = some c → MayForce R s l c) : Core R K Z dead (s.assign l r) where
  trail := h.trail.assign hl hv r
  watch := h.watch.congr rfl rfl rfl
  wf := h.wf
  vars := h.vars
  reasons := h.reasons.assign h.trail hl hr
  blocker := h.blocker
  bit := h.bit

theorem Covered.assign {m : CNFLit} {w : Watcher} (h : s.Covered dead m w) (ht : s.TrailInv)
    (hl : s.getAssignment l = .INDETERMINATE) (hm : -m ∈ s.trail) (r : Option ClauseRef) :
    (s.assign l r).Covered dead m w := by
  obtain ⟨x, hx, hxt, hlev⟩ := h
  have hext := Extends.assign ht hl r
  have hx' : x ∈ s.trail := (ht.mem_trail x).mpr hxt
  refine ⟨x, hx, ?_, ?_⟩
  · rw [getAssignment_assign_of_ne (ht.var_ne_of_indet hx' hl)]; exact hxt
  · rw [hext.getLevel hx']; exact hlev.trans_eq (hext.getLevel hm).symm

theorem BinaryCovered.assign {m : CNFLit} {w : Watcher} (h : s.BinaryCovered m w) (ht : s.TrailInv)
    (hl : s.getAssignment l = .INDETERMINATE) (hm : -m ∈ s.trail) (r : Option ClauseRef) :
    (s.assign l r).BinaryCovered m w := by
  obtain ⟨hxt, hlev⟩ := h
  have hext := Extends.assign ht hl r
  have hx' := (ht.mem_trail _).mpr hxt
  refine ⟨?_, ?_⟩
  · rw [getAssignment_assign_of_ne (ht.var_ne_of_indet hx' hl)]; exact hxt
  · rw [hext.getLevel hx']; exact hlev.trans_eq (hext.getLevel hm).symm

theorem Propagated.assign {ex : Bool} {q : Nat} (h : s.Propagated ex dead q) (ht : s.TrailInv)
    (hq : q ≤ s.trail.length) (hl : s.getAssignment l = .INDETERMINATE) (r : Option ClauseRef) :
    (s.assign l r).Propagated ex dead q := by
  have htake : (s.assign l r).trail.take q = s.trail.take q := List.take_append_of_le_length hq
  refine ⟨?_, ?_, ?_⟩
  · intro m hm w hw hx
    rw [htake] at hm
    exact (h.big m hm w hw hx).assign ht hl (List.mem_of_mem_take hm) r
  · intro m hm w hw
    rw [htake] at hm
    exact (h.binary m hm w hw).assign ht hl (List.mem_of_mem_take hm) r
  · intro m hm
    rw [assign_trail, List.drop_append_of_le_length hq] at hm
    rcases List.mem_append.mp hm with hm | hm
    · rw [(Extends.assign ht hl r).getLevel (List.mem_of_mem_drop hm)]; exact h.pending m hm
    · obtain rfl := List.mem_singleton.mp hm; exact getLevel_assign_self _ _ _

end

/-! ## Moving a watch -/

section
variable {R : Set ClauseRef} {s : Assignment} {l : CNFLit} {k i : Nat} {w : Watcher}

/-- A clause whose watch moves is no reason: neither of its watched literals is true. -/
theorem Explained.ne_of_move (h : s.Explained R) (ht : s.TrailInv)
    (hn : ∀ j : Fin 2, s.getAssignment ((s.mem w.clause).lit j) ≠ .TRUE) {pre : List CNFLit} {x : CNFLit}
    (hp : pre ++ [x] <+: s.trail) {c : ClauseRef} (hc : s.getReason x.var = some c) : c ≠ w.clause := by
  rintro rfl
  obtain ⟨⟨j, rfl⟩, -⟩ := h.reason pre x hp _ hc
  exact hn j ((ht.mem_trail _).mp (hp.subset (List.mem_append_right _ (List.mem_singleton_self _))))

theorem Explained.moveWatch (h : s.Explained R) (ht : s.TrailInv)
    (hn : ∀ j : Fin 2, s.getAssignment ((s.mem w.clause).lit j) ≠ .TRUE) :
    (s.moveWatch l k w i).Explained R := by
  have hext := Extends.moveWatch s l k w i
  refine ⟨h.registered, fun pre x hp c hc => ?_⟩
  obtain ⟨⟨j, hj⟩, ho⟩ := h.reason pre x hp c hc
  refine ⟨⟨j, ?_⟩, fun y hy => ho y (hext.mem_lits.mp hy)⟩
  rw [moveWatch_mem_of_ne _ _ _ _ _ (h.ne_of_move ht hn hp hc)]
  exact hj

end

section
variable {R K Z : Set ClauseRef} {dead : Set CNFLit} {s : Assignment} {l : CNFLit} {k i : Nat} {w : Watcher}
  (h : Core R K Z dead s) (hk : (s.watchers l)[k]? = some w)
include h hk

theorem mem_watchers_moveWatch {m : CNFLit} {v : Watcher} (hv : v ∈ (s.moveWatch l k w i).watchers m) :
    v ∈ s.watchers m ∨ m = (s.mem w.clause).lit i ∧ v = w := by
  rw [← lists_false, lists_moveWatch] at hv
  rcases h.watch.placed.mem_relocate (p := (false, l)) hk hv with hv | ⟨hm, rfl⟩
  · exact .inl hv.1
  · exact .inr ⟨(Prod.mk.inj hm).2, rfl⟩

theorem Core.moveWatch (hi : 2 ≤ i) (hi' : i < (s.mem w.clause).size)
    (hn : ∀ j : Fin 2, s.getAssignment ((s.mem w.clause).lit j) ≠ .TRUE) :
    Core R K Z dead (s.moveWatch l k w i) := by
  have hsame := sameTrail_moveWatch s l k w i
  have hext := Extends.moveWatch s l k w i
  have hexp := h.reasons.explained.moveWatch (l := l) (k := k) (i := i) h.trail hn
  have hw : w ∈ s.watchers l := List.mem_of_getElem? hk
  refine ⟨hsame.trailInv h.trail, h.watch.moveWatch hk hi hi', fun c hc => (h.wf c hc).of_perm (hext.lits c),
    fun c hc x hx => h.vars c hc x (hext.mem_lits.mp hx), ⟨hexp.registered, ?_⟩, ?_, ?_⟩
  · intro pre x hp c hc
    refine ⟨hexp.reason pre x hp c hc, fun h0 => ?_⟩
    obtain ⟨y, hy, hne, hly⟩ := (h.reasons.forced pre x hp c hc).level h0
    exact ⟨y, hext.mem_lits.mpr hy, hne, hly⟩
  · intro m v hv'
    rw [hext.mem_lits]
    rcases mem_watchers_moveWatch h hk hv' with hv' | ⟨-, rfl⟩
    · exact h.blocker m v hv'
    · exact h.blocker l v hw
  · intro m v hv'
    rw [hext.redundant]
    rcases mem_watchers_moveWatch h hk hv' with hv' | ⟨-, rfl⟩
    · exact h.bit m v hv'
    · exact h.bit l v hw

theorem Propagated.moveWatch (hv : s.getAssignment ((s.mem w.clause).lit i) ≠ .FALSE) {ex : Bool} {q : Nat}
    (hq : s.Propagated ex dead q) : (s.moveWatch l k w i).Propagated ex dead q := by
  have hext := Extends.moveWatch s l k w i
  refine ⟨?_, hq.binary, hq.pending⟩
  intro m hm v hv' hx
  rcases mem_watchers_moveWatch h hk hv' with hv' | ⟨rfl, rfl⟩
  · obtain ⟨x, hx, hxt⟩ := hq.big m hm v hv' hx
    exact ⟨x, hx.imp hext.mem_lits.mpr id, hxt⟩
  · exact absurd (h.trail.neg_mem_trail.mp (List.mem_of_mem_take hm)) hv

end

/-! ## Propagating one entry -/

structure Falsified (R K Z : Set ClauseRef) (dead : Set CNFLit) (ex : Bool) (s₀ : Assignment) (c : ClauseRef)
    (s : Assignment) : Prop where
  core : Core R K Z dead s
  ext : Extends s₀ s
  registered : c ∈ R
  isFalse : ∀ x ∈ (s.mem c).lits, s.getAssignment x = .FALSE
  prop : ∃ q, s.Propagated ex dead q

/-- The state while entry `q` of the trail, the literal `p`, is propagated. -/
structure AtEntry (R K Z : Set ClauseRef) (dead : Set CNFLit) (ex : Bool) (q : Nat) (p : CNFLit)
    (s₀ s : Assignment) (f : Nat) : Prop where
  core : Core R K Z dead s
  ext : Extends s₀ s
  prop : s.Propagated ex dead q
  entry : s.trail[q]? = some p
  count : s.trail.length = s₀.trail.length + f

namespace AtEntry

variable {R K Z : Set ClauseRef} {dead : Set CNFLit} {ex : Bool} {q : Nat} {p : CNFLit} {s₀ s : Assignment}
  {f : Nat} (h : AtEntry R K Z dead ex q p s₀ s f)
include h

theorem mem_trail : p ∈ s.trail := List.mem_of_getElem? h.entry

theorem neg_false : s.getAssignment (-p) = .FALSE := by
  rw [← h.core.trail.neg_mem_trail, neg_neg]; exact h.mem_trail

theorem lt_length : q < s.trail.length := (List.getElem?_eq_some_iff.mp h.entry).1

theorem level_eq : s.getLevel p.var = s.currentLevel := by
  refine h.prop.pending p (List.mem_of_getElem? (i := 0) ?_)
  rw [List.getElem?_drop]; exact h.entry

theorem level_le {x : CNFLit} (hx : s.getAssignment x = .TRUE) : s.getLevel x.var ≤ s.getLevel (-p).var := by
  rw [CNFLit.var_neg, h.level_eq]
  exact h.core.trail.level_le x ((h.core.trail.mem_trail x).mpr hx)

theorem assign {l : CNFLit} (hl : s.getAssignment l = .INDETERMINATE) {c : ClauseRef} (hc : MayForce R s l c) :
    AtEntry R K Z dead ex q p s₀ (s.assign l (some c)) (f + 1) where
  core := by
    refine h.core.assign hl ?_ fun d hd => Option.some.inj hd ▸ hc
    obtain ⟨i, hi⟩ := hc.watched
    exact h.core.vars c hc.registered l (hi ▸ Clause.lit_mem ((h.core.wf c hc.registered).watch_lt i))
  ext := h.ext.trans (Extends.assign h.core.trail hl _)
  prop := h.prop.assign h.core.trail (Nat.le_of_lt h.lt_length) hl _
  entry := by rw [assign_trail, List.getElem?_append_left h.lt_length]; exact h.entry
  count := by rw [assign_trail, List.length_append, h.count]; rfl

theorem falsified {c : ClauseRef} (hc : c ∈ R) (hf : ∀ x ∈ (s.mem c).lits, s.getAssignment x = .FALSE) :
    Falsified R K Z dead ex s₀ c s :=
  ⟨h.core, h.ext, hc, hf, q, h.prop⟩

/-! ### Binary clauses -/

theorem binary_others {w : Watcher} (hw : w ∈ s.binaryWatchers (-p)) {x : CNFLit}
    (hx : x ∈ (s.mem w.clause).lits) (hne : x ≠ w.otherWatchedLiteral) : x = -p := by
  have hx := (h.core.watch.binary _ w hw).mem_iff.mp hx
  simp only [List.mem_cons, List.not_mem_nil, or_false] at hx
  exact hx.resolve_right hne

theorem binary_mayForce {w : Watcher} (hw : w ∈ s.binaryWatchers (-p)) :
    MayForce R s w.otherWatchedLiteral w.clause := by
  have hp := h.core.watch.binary _ w hw
  have hc := h.core.watch.registered (p := (true, -p)) hw
  refine ⟨⟨hc, ?_, fun x hx hne => ?_⟩, -p, hp.mem_iff.mpr List.mem_cons_self, ?_, h.level_eq⟩
  · obtain ⟨j, hj, he⟩ := Clause.exists_lit_of_mem (hp.mem_iff.mpr (List.mem_cons_of_mem _ List.mem_cons_self))
    rw [h.core.watch.binary_size hw] at hj
    exact ⟨⟨j, hj⟩, he⟩
  · rw [h.binary_others hw hx hne]; exact h.neg_false
  · intro he
    have hn := hp.nodup_iff.mp (h.core.wf _ hc).nodup
    rw [← he] at hn
    simp at hn

omit h in
theorem propagateBinaries (h : AtEntry R K Z dead ex q p s s 0) :
    Ends (fun t f => AtEntry R K Z dead ex q p s t f ∧ ∀ w ∈ t.binaryWatchers (-p), t.BinaryCovered (-p) w)
      (Falsified R K Z dead ex s) (propagateBinaries p (s.binaryWatchers (-p)).length 0 s 0) := by
  have hget : ∀ {n k : Nat} {t : Assignment}, n + 1 + k = (t.binaryWatchers (-p)).length →
      (t.binaryWatchers (-p))[k]? = some ((t.binaryWatchers (-p)).getD k default) :=
    fun hk => getElem?_eq_some_getD (by omega) _
  refine (propagateBinaries_rule
    (I := fun n k t f => AtEntry R K Z dead ex q p s t f ∧ n + k = (t.binaryWatchers (-p)).length ∧
      ∀ w ∈ (t.binaryWatchers (-p)).take k, t.BinaryCovered (-p) w)
    (Q := Falsified R K Z dead ex s) ?_ ?_ ?_ _ 0 s 0 ⟨h, rfl, by simp⟩).imp ?_ fun _ _ h => h
  · rintro n k t f ⟨ht, hk, hd⟩ hv
    exact ⟨ht, by omega, forall_mem_take_succ (hget hk) hd ⟨hv, ht.level_le hv⟩⟩
  · rintro n k t f ⟨ht, hk, -⟩ hv
    have hw := List.mem_of_getElem? (hget hk)
    refine ht.falsified (ht.core.watch.registered (p := (true, -p)) hw) fun x hx => ?_
    by_cases he : x = ((t.binaryWatchers (-p)).getD k default).otherWatchedLiteral
    · rw [he]; exact hv
    · rw [ht.binary_others hw hx he]; exact ht.neg_false
  · rintro n k t f ⟨ht, hk, hd⟩ hv
    have hw := List.mem_of_getElem? (hget hk)
    have ht' := ht.assign hv (ht.binary_mayForce hw)
    refine ⟨ht', by rw [assign_binaryWatchers]; omega, ?_⟩
    refine forall_mem_take_succ (hget hk) (fun w hw => ?_) ⟨getAssignment_assign_self _ _ _, ?_⟩
    · exact (hd w hw).assign ht.core.trail hv (by rw [neg_neg]; exact ht.mem_trail) _
    · exact ht'.level_le (getAssignment_assign_self _ _ _)
  · rintro t f ⟨k, ht, hk, hd⟩
    rw [Nat.zero_add] at hk
    rw [hk, List.take_length] at hd
    exact ⟨ht, hd⟩

/-! ### Longer clauses -/

theorem watched {w : Watcher} (hw : w ∈ s.watchers (-p)) : (s.mem w.clause).lit w.index = -p :=
  (h.core.watch.settled hw).lit

theorem other_mem {w : Watcher} (hw : w ∈ s.watchers (-p)) :
    (s.mem w.clause).lit (1 - w.index) ∈ (s.mem w.clause).lits :=
  Clause.lit_mem (by have := (h.core.watch.settled hw).size; omega)

theorem not_true_of_move {w : Watcher} (hw : w ∈ s.watchers (-p))
    (hno : s.getAssignment ((s.mem w.clause).lit (1 - w.index)) ≠ .TRUE) (j : Fin 2) :
    s.getAssignment ((s.mem w.clause).lit j) ≠ .TRUE := by
  rcases eq_or_eq_one_sub w.index j with rfl | rfl
  · rw [h.watched hw, h.neg_false]
    exact TBool.noConfusion
  · rw [val_one_sub]
    exact hno

theorem mayForce {w : Watcher} (hw : w ∈ s.watchers (-p))
    (hf : ∀ j, 2 ≤ j → j < (s.mem w.clause).size → s.getAssignment ((s.mem w.clause).lit j) = .FALSE) :
    MayForce R s ((s.mem w.clause).lit (1 - w.index)) w.clause := by
  have hc := h.core.watch.registered (p := (false, -p)) hw
  have hs := (h.core.watch.settled hw).size
  refine ⟨⟨hc, ⟨1 - w.index, by rw [val_one_sub]⟩, fun x hx hne => ?_⟩, -p, ?_, ?_, h.level_eq⟩
  · rcases Clause.lit_cases w.index hx with rfl | rfl | ⟨j, h2, hj, rfl⟩
    · rw [h.watched hw]; exact h.neg_false
    · exact absurd rfl hne
    · exact hf j h2 hj
  · rw [← h.watched hw]; exact Clause.lit_mem (by have := w.index.isLt; omega)
  · intro he
    have hi := (h.core.wf _ hc).lit_inj (i := w.index) (j := 1 - w.index) (by have := w.index.isLt; omega)
      (by omega) ((h.watched hw).trans he)
    have := w.index.isLt
    omega

theorem covered {w : Watcher} {x : CNFLit} (hx : x ∈ (s.mem w.clause).lits ∨ x ∈ dead)
    (hxt : s.getAssignment x = .TRUE) : s.Covered dead (-p) w :=
  ⟨x, hx, hxt, h.level_le hxt⟩

theorem propagated_succ (hbig : ∀ w ∈ s.watchers (-p), ¬ (ex = true ∧ w.isRedundant = true) → s.Covered dead (-p) w)
    (hbin : ∀ w ∈ s.binaryWatchers (-p), s.BinaryCovered (-p) w) : s.Propagated ex dead (q + 1) := by
  have hnew : ∀ {l : CNFLit}, -l ∈ s.trail.take (q + 1) → -l ∈ s.trail.take q ∨ l = -p := by
    intro l hl
    rw [List.take_add_one, h.entry] at hl
    refine (List.mem_append.mp hl).imp_right fun hl => ?_
    have hlp : -l = p := by simpa using hl
    rw [← hlp, neg_neg]
  refine ⟨fun l hl w hw hx => ?_, fun l hl w hw => ?_, fun l hl => ?_⟩
  · cases hnew hl with
    | inl hl => exact h.prop.big l hl w hw hx
    | inr hl =>
      subst hl
      exact hbig w hw hx
  · cases hnew hl with
    | inl hl => exact h.prop.binary l hl w hw
    | inr hl =>
      subst hl
      exact hbin w hw
  · exact h.prop.pending l (List.mem_of_mem_drop (i := 1) (by rwa [List.drop_drop]))

theorem propagateWatchers {mode : UpMode} (hmode : mode = .excludeLemmas → ex = true)
    (hb : ∀ w ∈ s.binaryWatchers (-p), s.BinaryCovered (-p) w) :
    Ends (fun t f => AtEntry R K Z dead ex q p s₀ t f ∧ t.Propagated ex dead (q + 1))
      (Falsified R K Z dead ex s₀) (propagateWatchers mode p (s.watchers (-p)).length 0 s f) := by
  have hget : ∀ {n k : Nat} {t : Assignment}, n + 1 + k = (t.watchers (-p)).length →
      (t.watchers (-p))[k]? = some ((t.watchers (-p)).getD k default) :=
    fun hk => getElem?_eq_some_getD (by omega) _
  refine (propagateWatchers_rule
    (I := fun n k t f => AtEntry R K Z dead ex q p s₀ t f ∧ n + k = (t.watchers (-p)).length ∧
      (∀ w ∈ (t.watchers (-p)).take k, ¬ (ex = true ∧ w.isRedundant = true) → t.Covered dead (-p) w) ∧
      ∀ w ∈ t.binaryWatchers (-p), t.BinaryCovered (-p) w)
    (Q := Falsified R K Z dead ex s₀) ?_ ?_ ?_ ?_ _ 0 s f ⟨h, rfl, by simp, hb⟩).imp ?_ fun _ _ h => h
  · rintro n k t f ⟨ht, hk, hd, hb⟩ hv
    refine ⟨ht, by omega, forall_mem_take_succ (hget hk) hd fun hx => ?_, hb⟩
    have hw := List.mem_of_getElem? (hget hk)
    rcases visit_cases t mode ((t.watchers (-p)).getD k default) with
      ⟨-, ⟨hm, hr⟩ | ht' | ht'⟩ | ⟨i, h, -⟩ | ⟨h, -⟩ | ⟨h, -⟩
    · exact absurd ⟨hmode hm, hr⟩ hx
    · exact ht.covered (ht.core.blocker _ _ hw) ht'
    · exact ht.covered (.inl (ht.other_mem hw)) ht'
    all_goals rw [h] at hv; cases hv
  · rintro n k t f i ⟨ht, hk, hd, hb⟩ hv
    rcases visit_cases t mode ((t.watchers (-p)).getD k default) with
      ⟨h, -⟩ | ⟨j, h, h2, hj, hnf, hno⟩ | ⟨h, -⟩ | ⟨h, -⟩
    · rw [h] at hv; cases hv
    · obtain rfl : j = i := by rw [h] at hv; exact Visit.move.inj hv
      have hext := Extends.moveWatch t (-p) k ((t.watchers (-p)).getD k default) j
      have hlt : k < (t.watchers (-p)).length := by omega
      have hne : -p ≠ (t.mem ((t.watchers (-p)).getD k default).clause).lit j := fun he =>
        hnf (he ▸ ht.neg_false)
      have hlist := watchers_moveWatch_self t (-p) k ((t.watchers (-p)).getD k default) j hne
      have hno' := ht.not_true_of_move (List.mem_of_getElem? (hget hk)) hno
      refine ⟨⟨ht.core.moveWatch (hget hk) h2 hj hno', ht.ext.trans hext,
        ht.prop.moveWatch ht.core (hget hk) hnf, ht.entry, ht.count⟩, ?_, ?_, hb⟩
      · rw [hlist, length_removeAt hlt]; omega
      · rw [hlist, take_removeAt hlt]
        intro v hv hx
        obtain ⟨x, hx, hxt⟩ := hd v hv hx
        exact ⟨x, hx.imp hext.mem_lits.mpr id, hxt⟩
    · rw [h] at hv; cases hv
    · rw [h] at hv; cases hv
  · rintro n k t f ⟨ht, hk, -, -⟩ hv
    have hw := List.mem_of_getElem? (hget hk)
    refine ht.falsified (ht.core.watch.registered (p := (false, -p)) hw) fun x hx => ?_
    rcases visit_cases t mode ((t.watchers (-p)).getD k default) with
      ⟨h, -⟩ | ⟨i, h, -⟩ | ⟨-, ho, hf⟩ | ⟨h, -⟩
    · rw [h] at hv; cases hv
    · rw [h] at hv; cases hv
    · rcases Clause.lit_cases ((t.watchers (-p)).getD k default).index hx with rfl | rfl | ⟨j, h2, hj, rfl⟩
      · rw [ht.watched hw]; exact ht.neg_false
      · exact ho
      · exact hf j h2 hj
    · rw [h] at hv; cases hv
  · rintro n k t f l ⟨ht, hk, hd, hb⟩ hv
    have hw := List.mem_of_getElem? (hget hk)
    have hpt : -(-p) ∈ t.trail := by rw [neg_neg]; exact ht.mem_trail
    rcases visit_cases t mode ((t.watchers (-p)).getD k default) with
      ⟨h, -⟩ | ⟨i, h, -⟩ | ⟨h, -⟩ | ⟨h, ho, hf⟩
    · rw [h] at hv; cases hv
    · rw [h] at hv; cases hv
    · rw [h] at hv; cases hv
    · obtain rfl : (t.mem ((t.watchers (-p)).getD k default).clause).lit
          (1 - ((t.watchers (-p)).getD k default).index) = l := by rw [h] at hv; exact Visit.force.inj hv
      have ht' := ht.assign ho (ht.mayForce hw hf)
      refine ⟨ht', by rw [assign_watchers]; omega, ?_, ?_⟩
      · refine forall_mem_take_succ (hget hk) (fun w hw hx => (hd w hw hx).assign ht.core.trail ho hpt _)
          fun _ => ?_
        exact ht'.covered (.inl (ht.other_mem hw)) (getAssignment_assign_self _ _ _)
      · exact fun w hw => (hb w hw).assign ht.core.trail ho hpt _
  · rintro t f ⟨k, ht, hk, hd, hb⟩
    rw [Nat.zero_add] at hk
    rw [hk, List.take_length] at hd
    exact ⟨ht, ht.propagated_succ hd hb⟩

end AtEntry

/-! ## Propagating to the fixpoint -/

section
variable {R K Z : Set ClauseRef} {dead : Set CNFLit} {ex : Bool} {mode : UpMode}

structure Fixpoint (R K Z : Set ClauseRef) (dead : Set CNFLit) (ex : Bool) (s₀ s : Assignment) : Prop where
  core : Core R K Z dead s
  ext : Extends s₀ s
  prop : s.Propagated ex dead s.trail.length

theorem AtEntry.propagate {q : Nat} {p : CNFLit} {s : Assignment} (h : AtEntry R K Z dead ex q p s s 0)
    (hmode : mode = .excludeLemmas → ex = true) :
    Ends (fun t f => AtEntry R K Z dead ex q p s t f ∧ t.Propagated ex dead (q + 1))
      (Falsified R K Z dead ex s) (s.propagate mode p) :=
  propagate_rule h.propagateBinaries fun _ _ ⟨ht, hb⟩ => ht.propagateWatchers hmode hb

theorem propagateQueue_sound (hmode : mode = .excludeLemmas → ex = true) {s₀ : Assignment} {n b : Nat}
    {s : Assignment} (hc : Core R K Z dead s) (he : Extends s₀ s) (hp : s.Propagated ex dead b)
    (hb : b ≤ s.trail.length) (hn : s.size ≤ n + b) :
    EndsFixpoint (Fixpoint R K Z dead ex s₀) (Falsified R K Z dead ex s₀)
      (propagateQueue mode n b s.trail.length s) := by
  refine propagateQueue_rule (I := fun n b e t => Core R K Z dead t ∧ Extends s₀ t ∧
    t.Propagated ex dead b ∧ b ≤ t.trail.length ∧ t.size ≤ n + b ∧ e = t.trail.length)
    ?_ ?_ ?_ n b _ s ⟨hc, he, hp, hb, hn, rfl⟩
  · rintro b e t ⟨hc, he, hp, hb, hn, rfl⟩
    -- the trail is full
    obtain rfl : b = t.trail.length := Nat.le_antisymm hb (by have := hc.trail.length_le; omega)
    exact ⟨hc, he, hp⟩
  · rintro n b t ⟨hc, he, hp, -, -, rfl⟩
    exact ⟨hc, he, hp⟩
  · rintro n b e t ⟨hc, he, hp, hb, hn, rfl⟩ hne
    have hget := getElem?_eq_some_getD (Nat.lt_of_le_of_ne hb hne) CNFLit.undefinedLiteral
    refine (AtEntry.propagate ⟨hc, Extends.refl t, hp, hget, rfl⟩ hmode).imp ?_ ?_
    · rintro u f ⟨hu, hpu⟩
      exact ⟨hu.core, he.trans hu.ext, hpu, hu.lt_length, by rw [hu.ext.size]; omega, hu.count.symm⟩
    · rintro c u hu
      exact ⟨hu.core, he.trans hu.ext, hu.registered, hu.isFalse, hu.prop⟩

/-- Propagation of the last entry of the trail, the only one not yet propagated. -/
theorem propagateUntilFixpoint_sound (hmode : mode = .excludeLemmas → ex = true) {s : Assignment}
    {p : CNFLit} {q : Nat} (hc : Core R K Z dead s) (hp : s.Propagated ex dead q)
    (hq : s.trail[q]? = some p) (hlen : s.trail.length = q + 1)
    (hv : s.litsRequiringWatcherUpdateAsVec = []) :
    EndsFixpoint (Fixpoint R K Z dead ex s) (Falsified R K Z dead ex s)
      (s.propagateUntilFixpoint p mode) := by
  refine propagateUntilFixpoint_rule hv (AtEntry.propagate ⟨hc, Extends.refl s, hp, hq, rfl⟩ hmode) ?_
  rintro t f ⟨ht, hpt⟩
  have := propagateQueue_sound (n := t.size) hmode ht.core ht.ext hpt ht.lt_length (by omega)
  rw [ht.count, hlen] at this
  rw [hlen]; exact this

end

end Assignment

end JamSAT
