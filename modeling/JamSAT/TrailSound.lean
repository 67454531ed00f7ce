import JamSAT.Assignment
import Mathlib.Data.Finset.Card
import Mathlib.Data.List.TakeDrop

/-!
# The trail invariant

The trail lists exactly the true literals, each variable once, and the level
limits cut it into the levels. Everything here is independent of the clauses
and the watch lists (`SameTrail`).
-/

namespace JamSAT

namespace Assignment

def levelLimit (s : Assignment) (k : Nat) : Nat := s.levelLimits.getD k 0

structure TrailInv (s : Assignment) : Prop where
  nodup_vars : (s.trail.map CNFLit.var).Nodup
  mem_trail : ∀ l, l ∈ s.trail ↔ s.getAssignment l = .TRUE
  lt_size : ∀ l ∈ s.trail, l.var < s.size
  limits_length : s.levelLimits.length = s.currentLevel + 1
  limit_le : ∀ k ≤ s.currentLevel, s.levelLimit k ≤ s.trail.length
  lt_limit : ∀ k ≤ s.currentLevel, ∀ (i : Nat) l, s.trail[i]? = some l →
    (i < s.levelLimit k ↔ s.getLevel l.var < k)
  level_le : ∀ l ∈ s.trail, s.getLevel l.var ≤ s.currentLevel

/-! ## Values of literals -/

theorem getAssignment_neg (s : Assignment) (l : CNFLit) :
    s.getAssignment (-l) = (s.getAssignment l).negate := by
  simp only [getAssignment, CNFLit.var_neg, CNFLit.sign_neg, TBool.xorSign_invert]

theorem getAssignment_neg_eq_true {s : Assignment} {l : CNFLit} :
    s.getAssignment (-l) = .TRUE ↔ s.getAssignment l = .FALSE := by
  rw [getAssignment_neg]; cases s.getAssignment l <;> simp [TBool.negate]

theorem getAssignment_eq_indet {s : Assignment} {l : CNFLit} :
    s.getAssignment l = .INDETERMINATE ↔ s.assignments l.var = .INDETERMINATE := by
  unfold getAssignment
  cases l.sign <;> cases s.assignments l.var <;> simp [TBool.xorSign, TBool.negate]

theorem getAssignment_assign_self (s : Assignment) (l : CNFLit) (r : Option ClauseRef) :
    (s.assign l r).getAssignment l = .TRUE := by
  simp [getAssignment, assign, TBool.xorSign_ofSign]

theorem getAssignment_assign_of_ne {s : Assignment} {l m : CNFLit} {r : Option ClauseRef}
    (h : m.var ≠ l.var) : (s.assign l r).getAssignment m = s.getAssignment m := by
  simp [getAssignment, assign, h]

@[simp] theorem assign_trail (s : Assignment) (l : CNFLit) (r : Option ClauseRef) :
    (s.assign l r).trail = s.trail ++ [l] := rfl

@[simp] theorem assign_mem (s : Assignment) (l : CNFLit) (r : Option ClauseRef) :
    (s.assign l r).mem = s.mem := rfl

@[simp] theorem assign_size (s : Assignment) (l : CNFLit) (r : Option ClauseRef) :
    (s.assign l r).size = s.size := rfl

@[simp] theorem assign_currentLevel (s : Assignment) (l : CNFLit) (r : Option ClauseRef) :
    (s.assign l r).currentLevel = s.currentLevel := rfl

@[simp] theorem assign_watchers (s : Assignment) (l : CNFLit) (r : Option ClauseRef) :
    (s.assign l r).watchers = s.watchers := rfl

@[simp] theorem assign_binaryWatchers (s : Assignment) (l : CNFLit) (r : Option ClauseRef) :
    (s.assign l r).binaryWatchers = s.binaryWatchers := rfl

theorem getLevel_assign_self (s : Assignment) (l : CNFLit) (r : Option ClauseRef) :
    (s.assign l r).getLevel l.var = s.currentLevel := by simp [getLevel, assign]

theorem getLevel_assign_of_ne {s : Assignment} {l : CNFLit} {v : CNFVar} {r : Option ClauseRef}
    (h : v ≠ l.var) : (s.assign l r).getLevel v = s.getLevel v := by simp [getLevel, assign, h]

theorem getReason_assign_self (s : Assignment) (l : CNFLit) (r : Option ClauseRef) :
    (s.assign l r).getReason l.var = r := by simp [getReason, assign]

theorem getReason_assign_of_ne {s : Assignment} {l : CNFLit} {v : CNFVar} {r : Option ClauseRef}
    (h : v ≠ l.var) : (s.assign l r).getReason v = s.getReason v := by simp [getReason, assign, h]

/-! ## Consequences of the invariant -/

namespace TrailInv

variable {s : Assignment} (h : s.TrailInv)
include h

theorem neg_mem_trail {l : CNFLit} : -l ∈ s.trail ↔ s.getAssignment l = .FALSE := by
  rw [h.mem_trail, getAssignment_neg_eq_true]

theorem neg_not_mem {l : CNFLit} (hl : l ∈ s.trail) : -l ∉ s.trail := by
  rw [h.neg_mem_trail, (h.mem_trail l).mp hl]; exact TBool.noConfusion

theorem indet_iff {l : CNFLit} : s.getAssignment l = .INDETERMINATE ↔ l ∉ s.trail ∧ -l ∉ s.trail := by
  rw [h.mem_trail, h.neg_mem_trail]; cases s.getAssignment l <;> simp

theorem var_ne_of_indet {l m : CNFLit} (hl : l ∈ s.trail) (hm : s.getAssignment m = .INDETERMINATE) :
    l.var ≠ m.var := by
  intro hv
  obtain ⟨h₁, h₂⟩ := h.indet_iff.mp hm
  rcases CNFLit.eq_or_eq_neg_of_var_eq hv with rfl | rfl
  · exact h₁ hl
  · exact h₂ hl

theorem length_le : s.trail.length ≤ s.size := by
  have hs : (s.trail.map CNFLit.var).toFinset ⊆ Finset.range s.size := by
    intro v hv
    obtain ⟨l, hl, rfl⟩ := List.mem_map.mp (List.mem_toFinset.mp hv)
    exact Finset.mem_range.mpr (h.lt_size l hl)
  have := Finset.card_le_card hs
  rwa [List.toFinset_card_of_nodup h.nodup_vars, List.length_map, Finset.card_range] at this

theorem length_lt {l : CNFLit} (hl : s.getAssignment l = .INDETERMINATE) (hr : l.var < s.size) :
    s.trail.length < s.size := by
  have hs : insert l.var (s.trail.map CNFLit.var).toFinset ⊆ Finset.range s.size := by
    intro v hv
    rcases Finset.mem_insert.mp hv with rfl | hv
    · exact Finset.mem_range.mpr hr
    · obtain ⟨m, hm, rfl⟩ := List.mem_map.mp (List.mem_toFinset.mp hv)
      exact Finset.mem_range.mpr (h.lt_size m hm)
  have hnot : l.var ∉ (s.trail.map CNFLit.var).toFinset := by
    intro hv
    obtain ⟨m, hm, he⟩ := List.mem_map.mp (List.mem_toFinset.mp hv)
    exact h.var_ne_of_indet hm hl he
  have := Finset.card_le_card hs
  rw [Finset.card_insert_of_notMem hnot, List.toFinset_card_of_nodup h.nodup_vars, List.length_map,
    Finset.card_range] at this
  exact this

theorem mem_take_limit {k : Nat} (hk : k ≤ s.currentLevel) {l : CNFLit} :
    l ∈ s.trail.take (s.levelLimit k) ↔ l ∈ s.trail ∧ s.getLevel l.var < k := by
  constructor
  · intro hl
    obtain ⟨i, hi, he⟩ := List.getElem_of_mem hl
    have hi' : i < s.levelLimit k := lt_of_lt_of_le hi (List.length_take_le _ _)
    have hg : s.trail[i]? = some l := by
      rw [← he, List.getElem_take]; exact List.getElem?_eq_getElem _
    exact ⟨List.mem_of_mem_take hl, (h.lt_limit k hk i l hg).mp hi'⟩
  · rintro ⟨hl, hlev⟩
    obtain ⟨i, hi, rfl⟩ := List.getElem_of_mem hl
    have hlt := (h.lt_limit k hk i _ (List.getElem?_eq_getElem hi)).mpr hlev
    exact List.mem_take_iff_getElem.mpr ⟨i, by omega, rfl⟩

theorem levelLimit_mono {j k : Nat} (hjk : j ≤ k) (hk : k ≤ s.currentLevel) :
    s.levelLimit j ≤ s.levelLimit k := by
  by_contra hlt
  have hlen := h.limit_le j (hjk.trans hk)
  have hg := List.getElem?_eq_getElem (show s.levelLimit k < s.trail.length by omega)
  -- the first entry of level `k` would be on a level below `j`
  have hj := (h.lt_limit j (hjk.trans hk) _ _ hg).mp (by omega)
  have := (h.lt_limit k hk _ _ hg).mpr (by omega)
  omega

theorem pairwise_levelLimits : s.levelLimits.Pairwise (· ≤ ·) := by
  rw [List.pairwise_iff_getElem]
  intro i j hi hj hij
  have hlen := h.limits_length
  have := h.levelLimit_mono (Nat.le_of_lt hij) (by omega)
  rwa [levelLimit, levelLimit, List.getD_eq_getElem _ _ hi, List.getD_eq_getElem _ _ hj] at this

theorem mem_getLevelAssignments {k : Nat} (hk : k ≤ s.currentLevel) {l : CNFLit} :
    l ∈ s.getLevelAssignments k ↔ l ∈ s.trail ∧ s.getLevel l.var = k := by
  have hlen := h.limits_length
  have hdrop : l ∈ s.trail.drop (s.levelLimit k) ↔ l ∈ s.trail ∧ k ≤ s.getLevel l.var := by
    have hsplit := List.take_append_drop (s.levelLimit k) s.trail
    constructor
    · intro hl
      obtain ⟨i, hi⟩ := List.getElem?_of_mem hl
      rw [List.getElem?_drop] at hi
      have := (h.lt_limit k hk _ _ hi).mpr.mt (by omega)
      exact ⟨List.mem_of_getElem? hi, by omega⟩
    · rintro ⟨hl, hlev⟩
      rw [← hsplit] at hl
      refine (List.mem_append.mp hl).resolve_left fun ht => ?_
      have := ((h.mem_take_limit hk).mp ht).2
      omega
  unfold getLevelAssignments
  rw [if_neg (by omega)]
  dsimp only
  split
  · rw [show s.levelLimits.getD k 0 = s.levelLimit k from rfl, hdrop]
    refine and_congr_right fun hl => ?_
    have := h.level_le l hl
    omega
  · have hk' : k + 1 ≤ s.currentLevel := by omega
    have hmono := h.levelLimit_mono (Nat.le_succ k) hk'
    rw [← List.drop_take, show s.levelLimits.getD (k + 1) 0 = s.levelLimit (k + 1) from rfl,
      show s.levelLimits.getD k 0 = s.levelLimit k from rfl]
    constructor
    · intro hl
      rw [List.drop_take] at hl
      obtain ⟨hm, h₁⟩ := hdrop.mp (List.mem_of_mem_take hl)
      rw [← List.drop_take] at hl
      have h₂ := ((h.mem_take_limit hk').mp (List.mem_of_mem_drop hl)).2
      exact ⟨hm, by omega⟩
    · rintro ⟨hm, hlev⟩
      have ht := (h.mem_take_limit hk').mpr ⟨hm, by omega⟩
      rw [← List.take_append_drop (s.levelLimit k) (s.trail.take (s.levelLimit (k + 1)))] at ht
      refine (List.mem_append.mp ht).resolve_left fun hl => ?_
      rw [List.take_take, Nat.min_eq_left hmono] at hl
      have := ((h.mem_take_limit hk).mp hl).2
      omega

theorem assign {l : CNFLit} (hl : s.getAssignment l = .INDETERMINATE) (hr : l.var < s.size)
    (r : Option ClauseRef) : (s.assign l r).TrailInv := by
  have hne : ∀ m ∈ s.trail, m.var ≠ l.var := fun m hm => h.var_ne_of_indet hm hl
  refine ⟨?_, ?_, ?_, h.limits_length, ?_, ?_, ?_⟩
  · rw [assign_trail, List.map_append, List.nodup_append]
    refine ⟨h.nodup_vars, List.nodup_singleton _, ?_⟩
    intro v hv w hw
    obtain ⟨m, hm, rfl⟩ := List.mem_map.mp hv
    obtain rfl := List.mem_singleton.mp hw
    exact hne m hm
  · intro m
    rw [assign_trail, List.mem_append, List.mem_singleton]
    by_cases hv : m.var = l.var
    · rcases CNFLit.eq_or_eq_neg_of_var_eq hv with rfl | rfl
      · simp [getAssignment_assign_self]
      · rw [getAssignment_neg, getAssignment_assign_self]
        simp [TBool.negate, (h.indet_iff.mp hl).2]
    · rw [getAssignment_assign_of_ne hv, h.mem_trail]
      have : m ≠ l := fun e => hv (congrArg CNFLit.var e)
      simp [this]
  · intro m hm
    rcases List.mem_append.mp hm with hm | hm
    · exact h.lt_size m hm
    · obtain rfl := List.mem_singleton.mp hm; exact hr
  · intro k hk
    rw [assign_trail, List.length_append]
    exact Nat.le_add_right_of_le (h.limit_le k hk)
  · intro k hk i m hm
    rw [assign_trail] at hm
    by_cases hi : i < s.trail.length
    · rw [List.getElem?_append_left hi] at hm
      rw [getLevel_assign_of_ne (hne m (List.mem_of_getElem? hm))]
      exact h.lt_limit k hk i m hm
    · rw [List.getElem?_append_right (Nat.le_of_not_lt hi)] at hm
      obtain rfl := List.mem_singleton.mp (List.mem_of_getElem? hm)
      rw [getLevel_assign_self]
      have h₁ : ¬ i < s.levelLimit k := fun hlt => hi (lt_of_lt_of_le hlt (h.limit_le k hk))
      exact iff_of_false h₁ (Nat.not_lt.mpr hk)
  · intro m hm
    rcases List.mem_append.mp hm with hm | hm
    · rw [getLevel_assign_of_ne (hne m hm)]; exact h.level_le m hm
    · obtain rfl := List.mem_singleton.mp hm
      rw [getLevel_assign_self]; exact Nat.le_refl _

theorem newLevel : s.newLevel.TrailInv := by
  refine ⟨h.nodup_vars, h.mem_trail, h.lt_size, ?_, ?_, ?_, ?_⟩
  · simp [Assignment.newLevel, h.limits_length]
  · intro k hk
    rcases Nat.lt_or_ge k s.levelLimits.length with hlt | hge
    · have : s.newLevel.levelLimit k = s.levelLimit k := by
        simp [levelLimit, Assignment.newLevel, List.getD_eq_getElem?_getD, List.getElem?_append_left hlt]
      rw [this]; exact h.limit_le k (by have := h.limits_length; omega)
    · have hk' : k = s.levelLimits.length := by
        have := h.limits_length; simp [Assignment.newLevel] at hk; omega
      subst hk'
      simp [levelLimit, Assignment.newLevel]
  · intro k hk i l hl
    rcases Nat.lt_or_ge k s.levelLimits.length with hlt | hge
    · have : s.newLevel.levelLimit k = s.levelLimit k := by
        simp [levelLimit, Assignment.newLevel, List.getD_eq_getElem?_getD, List.getElem?_append_left hlt]
      rw [this]; exact h.lt_limit k (by have := h.limits_length; omega) i l hl
    · have hk' : k = s.currentLevel + 1 := by
        have := h.limits_length; simp [Assignment.newLevel] at hk; omega
      subst hk'
      have hlim : s.newLevel.levelLimit (s.currentLevel + 1) = s.trail.length := by
        rw [← h.limits_length]; simp [levelLimit, Assignment.newLevel]
      rw [hlim]
      obtain ⟨hi, -⟩ := List.getElem?_eq_some_iff.mp hl
      have := h.level_le l (List.mem_of_getElem? hl)
      exact iff_of_true hi (Nat.lt_succ_of_le this)
  · intro l hl
    exact Nat.le_succ_of_le (h.level_le l hl)

end TrailInv

/-! ## Undoing -/

theorem foldl_unassign (ls : List CNFLit) : ∀ s : Assignment,
    ls.foldl unassign s =
      { s with
        phases := (ls.foldl unassign s).phases
        assignments := fun v => if v ∈ ls.map CNFLit.var then .INDETERMINATE else s.assignments v } := by
  induction ls with
  | nil => intro s; simp
  | cons l ls ih =>
    intro s
    rw [List.foldl_cons, ih]
    have : (fun v => if v ∈ ls.map CNFLit.var then TBool.INDETERMINATE else (s.unassign l).assignments v) =
        fun v => if v ∈ (l :: ls).map CNFLit.var then TBool.INDETERMINATE else s.assignments v := by
      funext v
      by_cases hv : v = l.var
      · subst hv; simp [unassign]
      · simp [unassign, hv]
    rw [this]
    rfl

section
variable (s : Assignment) (k : Nat)

@[simp] theorem undoToLevel_trail : (s.undoToLevel k).trail = s.trail.take (s.levelLimit (k + 1)) := by
  simp only [undoToLevel]; rw [foldl_unassign]; rfl

@[simp] theorem undoToLevel_levelLimits : (s.undoToLevel k).levelLimits = s.levelLimits.take (k + 1) := by
  simp only [undoToLevel]; rw [foldl_unassign]

@[simp] theorem undoToLevel_currentLevel : (s.undoToLevel k).currentLevel = k := rfl

@[simp] theorem undoToLevel_mem : (s.undoToLevel k).mem = s.mem := by
  simp only [undoToLevel]; rw [foldl_unassign]

@[simp] theorem undoToLevel_size : (s.undoToLevel k).size = s.size := by
  simp only [undoToLevel]; rw [foldl_unassign]

@[simp] theorem undoToLevel_watchers : (s.undoToLevel k).watchers = s.watchers := by
  simp only [undoToLevel]; rw [foldl_unassign]

@[simp] theorem undoToLevel_binaryWatchers : (s.undoToLevel k).binaryWatchers = s.binaryWatchers := by
  simp only [undoToLevel]; rw [foldl_unassign]

@[simp] theorem undoToLevel_reasonsAndALs : (s.undoToLevel k).reasonsAndALs = s.reasonsAndALs := by
  simp only [undoToLevel]; rw [foldl_unassign]

@[simp] theorem undoToLevel_litsRequiringWatcherUpdate :
    (s.undoToLevel k).litsRequiringWatcherUpdate = s.litsRequiringWatcherUpdate := by
  simp only [undoToLevel]; rw [foldl_unassign]

@[simp] theorem undoToLevel_litsRequiringWatcherUpdateAsVec :
    (s.undoToLevel k).litsRequiringWatcherUpdateAsVec = s.litsRequiringWatcherUpdateAsVec := by
  simp only [undoToLevel]; rw [foldl_unassign]

theorem undoToLevel_assignments (v : CNFVar) : (s.undoToLevel k).assignments v =
    if v ∈ (s.trail.drop (s.levelLimit (k + 1))).map CNFLit.var then .INDETERMINATE
    else s.assignments v := by
  simp only [undoToLevel]; rw [foldl_unassign]; rfl

@[simp] theorem undoAll_trail : s.undoAll.trail = [] := by
  unfold undoAll; simp

@[simp] theorem undoAll_currentLevel : s.undoAll.currentLevel = 0 := rfl

@[simp] theorem undoAll_levelLimits : s.undoAll.levelLimits = s.levelLimits.take 1 := by
  unfold undoAll; rw [foldl_unassign]

@[simp] theorem undoAll_mem : s.undoAll.mem = s.mem := by
  unfold undoAll; rw [foldl_unassign]

@[simp] theorem undoAll_size : s.undoAll.size = s.size := by
  unfold undoAll; rw [foldl_unassign]

@[simp] theorem undoAll_watchers : s.undoAll.watchers = s.watchers := by
  unfold undoAll; rw [foldl_unassign]

@[simp] theorem undoAll_binaryWatchers : s.undoAll.binaryWatchers = s.binaryWatchers := by
  unfold undoAll; rw [foldl_unassign]

@[simp] theorem undoAll_litsRequiringWatcherUpdate :
    s.undoAll.litsRequiringWatcherUpdate = s.litsRequiringWatcherUpdate := by
  unfold undoAll; rw [foldl_unassign]

@[simp] theorem undoAll_litsRequiringWatcherUpdateAsVec :
    s.undoAll.litsRequiringWatcherUpdateAsVec = s.litsRequiringWatcherUpdateAsVec := by
  unfold undoAll; rw [foldl_unassign]

theorem undoAll_assignments (v : CNFVar) : s.undoAll.assignments v =
    if v ∈ s.trail.map CNFLit.var then .INDETERMINATE else s.assignments v := by
  unfold undoAll; rw [foldl_unassign]

end

theorem levelLimit_undoToLevel (s : Assignment) {j k : Nat} (h : j ≤ k) :
    (s.undoToLevel k).levelLimit j = s.levelLimit j := by
  simp [levelLimit, List.getD_eq_getElem?_getD, Nat.lt_succ_of_le h]

namespace TrailInv

variable {s : Assignment} (h : s.TrailInv)
include h

theorem undoToLevel {k : Nat} (hk : k < s.currentLevel) : (s.undoToLevel k).TrailInv := by
  have htake : ∀ l, l ∈ (s.undoToLevel k).trail ↔ l ∈ s.trail ∧ s.getLevel l.var < k + 1 := by
    intro l; rw [undoToLevel_trail]; exact h.mem_take_limit hk
  have hlev : ∀ v, (s.undoToLevel k).getLevel v = s.getLevel v := fun v => by simp [getLevel]
  refine ⟨?_, ?_, ?_, ?_, ?_, ?_, ?_⟩
  · rw [undoToLevel_trail]
    exact h.nodup_vars.sublist ((List.take_sublist _ _).map _)
  · intro l
    rw [htake]
    have hsplit : s.trail.take (s.levelLimit (k + 1)) ++ s.trail.drop (s.levelLimit (k + 1)) = s.trail :=
      List.take_append_drop _ _
    have hval : (s.undoToLevel k).getAssignment l =
        if l.var ∈ (s.trail.drop (s.levelLimit (k + 1))).map CNFLit.var then .INDETERMINATE
        else s.getAssignment l := by
      unfold getAssignment
      rw [undoToLevel_assignments]
      split
      · cases l.sign <;> rfl
      · rfl
    rw [hval, ← h.mem_take_limit hk]
    have hnd := h.nodup_vars
    rw [← hsplit, List.map_append, List.nodup_append] at hnd
    by_cases hd : l.var ∈ (s.trail.drop (s.levelLimit (k + 1))).map CNFLit.var
    · rw [if_pos hd]
      have hn : l ∉ s.trail.take (s.levelLimit (k + 1)) := fun hl =>
        hnd.2.2 _ (List.mem_map_of_mem hl) _ hd rfl
      simp [hn]
    · rw [if_neg hd, ← h.mem_trail, ← List.take_append_drop (s.levelLimit (k + 1)) s.trail,
        List.mem_append, List.take_append_drop]
      have hn : l ∉ s.trail.drop (s.levelLimit (k + 1)) := fun hl => hd (List.mem_map_of_mem hl)
      simp [hn]
  · intro l hl
    rw [undoToLevel_size]; exact h.lt_size l ((htake l).mp hl).1
  · rw [undoToLevel_levelLimits, undoToLevel_currentLevel, List.length_take, h.limits_length]; omega
  · intro j hj
    rw [undoToLevel_currentLevel] at hj
    rw [levelLimit_undoToLevel s hj, undoToLevel_trail, List.length_take]
    exact le_min (h.levelLimit_mono (by omega) hk) (h.limit_le j (by omega))
  · intro j hj i l hl
    rw [undoToLevel_currentLevel] at hj
    rw [levelLimit_undoToLevel s hj, hlev]
    rw [undoToLevel_trail] at hl
    refine h.lt_limit j (by omega) i l ?_
    rw [List.getElem?_take] at hl
    split at hl
    · exact hl
    · cases hl
  · intro l hl
    rw [hlev, undoToLevel_currentLevel]
    exact Nat.le_of_lt_succ ((htake l).mp hl).2

theorem undoAll : s.undoAll.TrailInv := by
  have hlen : 1 ≤ s.levelLimits.length := by rw [h.limits_length]; omega
  have h0 : s.undoAll.levelLimit 0 = 0 := by
    have h1 : s.undoAll.levelLimit 0 = s.levelLimit 0 := by
      simp [levelLimit, List.getD_eq_getElem?_getD]
    rw [h1]
    by_contra hcon
    have hlt : 0 < s.trail.length := lt_of_lt_of_le (Nat.pos_of_ne_zero hcon) (h.limit_le 0 (Nat.zero_le _))
    have := (h.lt_limit 0 (Nat.zero_le _) 0 _ (List.getElem?_eq_getElem hlt)).mp (Nat.pos_of_ne_zero hcon)
    omega
  refine ⟨by simp, ?_, by simp, by simp [hlen], ?_, by simp, by simp⟩
  · intro l
    rw [undoAll_trail]
    simp only [List.not_mem_nil, false_iff]
    unfold getAssignment
    rw [undoAll_assignments]
    split
    · cases l.sign <;> exact TBool.noConfusion
    · rename_i hn
      intro ht
      exact hn (List.mem_map_of_mem ((h.mem_trail l).mpr ht))
  · intro k hk
    obtain rfl : k = 0 := Nat.le_zero.mp hk
    rw [h0]; exact Nat.zero_le _

end TrailInv

theorem TrailInv.new (mem : ClauseRef → Clause) (n : Nat) : (Assignment.new mem n).TrailInv := by
  refine ⟨by simp [Assignment.new], ?_, by simp [Assignment.new], rfl, ?_, by simp [Assignment.new],
    by simp [Assignment.new]⟩
  · intro l
    cases hs : l.sign <;> simp [Assignment.new, getAssignment, hs, TBool.xorSign, TBool.negate]
  · intro k hk
    obtain rfl : k = 0 := Nat.le_zero.mp hk
    simp [Assignment.new, levelLimit]

/-! ## Frames -/

structure SameTrail (s t : Assignment) : Prop where
  size : t.size = s.size
  trail : t.trail = s.trail
  levelLimits : t.levelLimits = s.levelLimits
  assignments : t.assignments = s.assignments
  currentLevel : t.currentLevel = s.currentLevel
  reasonsAndALs : t.reasonsAndALs = s.reasonsAndALs

namespace SameTrail

@[refl] theorem refl (s : Assignment) : SameTrail s s := ⟨rfl, rfl, rfl, rfl, rfl, rfl⟩

theorem trans {s t u : Assignment} (h : SameTrail s t) (h' : SameTrail t u) : SameTrail s u :=
  ⟨h'.size.trans h.size, h'.trail.trans h.trail, h'.levelLimits.trans h.levelLimits,
    h'.assignments.trans h.assignments, h'.currentLevel.trans h.currentLevel,
    h'.reasonsAndALs.trans h.reasonsAndALs⟩

variable {s t : Assignment} (h : SameTrail s t)
include h

theorem getAssignment (l : CNFLit) : t.getAssignment l = s.getAssignment l := by
  simp [Assignment.getAssignment, h.assignments]

theorem getLevel (v : CNFVar) : t.getLevel v = s.getLevel v := by
  simp [Assignment.getLevel, h.reasonsAndALs]

theorem getReason (v : CNFVar) : t.getReason v = s.getReason v := by
  simp [Assignment.getReason, h.reasonsAndALs]

theorem levelLimit (k : Nat) : t.levelLimit k = s.levelLimit k := by
  simp [Assignment.levelLimit, h.levelLimits]

theorem trailInv (hs : s.TrailInv) : t.TrailInv where
  nodup_vars := by rw [h.trail]; exact hs.nodup_vars
  mem_trail l := by rw [h.trail, h.getAssignment]; exact hs.mem_trail l
  lt_size l hl := by rw [h.size]; exact hs.lt_size l (h.trail ▸ hl)
  limits_length := by rw [h.levelLimits, h.currentLevel]; exact hs.limits_length
  limit_le k hk := by rw [h.levelLimit, h.trail]; exact hs.limit_le k (h.currentLevel ▸ hk)
  lt_limit k hk i l hl := by
    rw [h.levelLimit, h.getLevel]; exact hs.lt_limit k (h.currentLevel ▸ hk) i l (h.trail ▸ hl)
  level_le l hl := by rw [h.getLevel, h.currentLevel]; exact hs.level_le l (h.trail ▸ hl)

end SameTrail

section
variable {s : Assignment}

theorem increaseMaxVar_kept (hs : s.TrailInv) {n : Nat} {l : CNFLit} (hl : l ∈ s.trail) :
    (s.increaseMaxVar n).reasonsAndALs l.var = s.reasonsAndALs l.var := by
  have := hs.lt_size l hl
  unfold increaseMaxVar
  split
  · rfl
  · exact if_neg (by omega)

@[simp] theorem increaseMaxVar_trail (n : Nat) : (s.increaseMaxVar n).trail = s.trail := by
  unfold increaseMaxVar; split <;> rfl

@[simp] theorem increaseMaxVar_mem (n : Nat) : (s.increaseMaxVar n).mem = s.mem := by
  unfold increaseMaxVar; split <;> rfl

@[simp] theorem increaseMaxVar_watchers (n : Nat) : (s.increaseMaxVar n).watchers = s.watchers := by
  unfold increaseMaxVar; split <;> rfl

@[simp] theorem increaseMaxVar_binaryWatchers (n : Nat) :
    (s.increaseMaxVar n).binaryWatchers = s.binaryWatchers := by
  unfold increaseMaxVar; split <;> rfl

@[simp] theorem increaseMaxVar_currentLevel (n : Nat) :
    (s.increaseMaxVar n).currentLevel = s.currentLevel := by
  unfold increaseMaxVar; split <;> rfl

theorem le_increaseMaxVar_size (n : Nat) : s.size ≤ (s.increaseMaxVar n).size := by
  unfold increaseMaxVar
  split
  · exact Nat.le_refl _
  · show s.size ≤ n + 1
    omega

@[simp] theorem increaseMaxVar_litsRequiringWatcherUpdate (n : Nat) :
    (s.increaseMaxVar n).litsRequiringWatcherUpdate = s.litsRequiringWatcherUpdate := by
  unfold increaseMaxVar; split <;> rfl

@[simp] theorem increaseMaxVar_litsRequiringWatcherUpdateAsVec (n : Nat) :
    (s.increaseMaxVar n).litsRequiringWatcherUpdateAsVec = s.litsRequiringWatcherUpdateAsVec := by
  unfold increaseMaxVar; split <;> rfl

end

theorem TrailInv.increaseMaxVar {s : Assignment} (h : s.TrailInv) (n : Nat) :
    (s.increaseMaxVar n).TrailInv := by
  unfold Assignment.increaseMaxVar
  split
  · exact h
  rename_i hn
  have hne : ∀ l ∈ s.trail, ¬ (s.size ≤ l.var ∧ l.var ≤ n) := fun l hl => by
    have := h.lt_size l hl; omega
  refine ⟨h.nodup_vars, ?_, ?_, h.limits_length, h.limit_le, ?_, ?_⟩
  · intro l
    simp only [Assignment.getAssignment]
    by_cases hv : s.size ≤ l.var ∧ l.var ≤ n
    · rw [if_pos hv]
      refine iff_of_false (fun hl => hne l hl hv) ?_
      cases l.sign <;> exact TBool.noConfusion
    · rw [if_neg hv]; exact h.mem_trail l
  · intro l hl
    have := h.lt_size l hl
    show l.var < n + 1
    omega
  · intro k hk i l hl
    simp only [Assignment.getLevel, if_neg (hne l (List.mem_of_getElem? hl))]
    exact h.lt_limit k hk i l hl
  · intro l hl
    simp only [Assignment.getLevel, if_neg (hne l hl)]
    exact h.level_le l hl

section
variable {s : Assignment} (ht : s.TrailInv)
include ht

theorem TrailInv.exists_mem {v : CNFVar} (hv : s.assignments v ≠ .INDETERMINATE) : ∃ l ∈ s.trail, l.var = v := by
  have hne : s.getAssignment ⟨v, .positive⟩ ≠ .INDETERMINATE := mt getAssignment_eq_indet.mp hv
  rw [ne_eq, ht.indet_iff, not_and_or, not_not, not_not] at hne
  cases hne with
  | inl hm => exact ⟨_, hm, rfl⟩
  | inr hm => exact ⟨_, hm, rfl⟩

theorem TrailInv.exists_unassigned (hc : s.isComplete = false) :
    ∃ v < s.size, s.assignments v = .INDETERMINATE := by
  by_contra hall
  have hsub : List.range s.size ⊆ s.trail.map CNFLit.var := by
    intro v hv
    apply List.mem_map.mpr
    exact ht.exists_mem fun hi => hall ⟨v, List.mem_range.mp hv, hi⟩
  have hlen := (List.nodup_range.subperm hsub).length_le
  rw [List.length_range, List.length_map] at hlen
  exact absurd (beq_iff_eq.mpr (Nat.le_antisymm ht.length_le hlen)) (Bool.eq_false_iff.mp hc)

end

end Assignment

end JamSAT
