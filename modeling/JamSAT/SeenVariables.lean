import JamSAT.BranchingMachine
import JamSAT.FirstUIP

/-!
# The callback of first-UIP learning

The variables for which a conflict analysis calls the callback are those of the
conflicting clause and of the reasons it resolves with, each of them once.
-/

namespace JamSAT

namespace FirstUIPLearning

open Stamps UnitLogic

variable {p : Provider} {Φ : Set (Finset CNFLit)} {T C : List CNFLit}

def resolvedReasons (p : Provider) : (cursor : List CNFLit) → State → List (List CNFLit)
  | [], _ => []
  | lit :: cursor, st =>
    if 1 < st.unresolvedCount then
      if st.stamps lit.var then
        match p.reason lit.var with
        | none => []
        | some reason =>
          reason :: resolvedReasons p cursor
            (addResolvent p reason lit { st with unresolvedCount := st.unresolvedCount - 1 })
      else resolvedReasons p cursor st
    else []

/-! ## What an operation stamps -/

theorem addReasonLit_stamps (r x : CNFLit) (st : State) (v : CNFVar) :
    (addReasonLit p r st x).stamps v = true ↔ st.stamps v = true ∨ r ≠ x ∧ x.var = v := by
  constructor
  · exact (addReasonLit_new r x st).1 v
  · intro h
    have hkeep : st.stamps v = true → (addReasonLit p r st x).stamps v = true := by
      intro hv
      unfold addReasonLit
      split
      · dsimp only
        split
        · exact set_true_of_true hv
        · exact set_true_of_true hv
      · exact hv
    cases h with
    | inl hv => exact hkeep hv
    | inr hx =>
      obtain ⟨hne, rfl⟩ := hx
      by_cases hv : st.stamps x.var = true
      · exact hkeep hv
      · unfold addReasonLit
        rw [if_pos ⟨hne, Bool.eq_false_of_not_eq_true hv⟩]
        dsimp only
        split
        · exact set_self _ _ _
        · exact set_self _ _ _

theorem foldl_addReasonLit_stamps (r : CNFLit) (R : List CNFLit) (st : State) (v : CNFVar) :
    (R.foldl (addReasonLit p r) st).stamps v = true ↔ st.stamps v = true ∨ ∃ x ∈ R, r ≠ x ∧ x.var = v := by
  induction R generalizing st with
  | nil => simp
  | cons x R ih =>
    rw [List.foldl_cons, ih, addReasonLit_stamps, or_assoc]
    simp

theorem addResolvent_stamps {lit : CNFLit} (hne : lit ≠ CNFLit.undefinedLiteral) (R : List CNFLit) (st : State)
    (v : CNFVar) :
    (addResolvent p R lit st).stamps v = true ↔
      v ≠ lit.var ∧ st.stamps v = true ∨ ∃ x ∈ R, lit ≠ x ∧ x.var = v := by
  unfold addResolvent
  simp only [ne_eq, hne, not_false_eq_true, if_true]
  rw [foldl_addReasonLit_stamps]
  refine or_congr ?_ Iff.rfl
  show st.stamps.set lit.var false v = true ↔ _
  by_cases hv : v = lit.var
  · simp [hv]
  · rw [set_of_ne st.stamps hv]
    simp [hv]

theorem initializeResult_stamps (hC : ∀ x ∈ C, x ≠ CNFLit.undefinedLiteral) (stamps : Stamps) (v : CNFVar) :
    (initializeResult p C stamps).stamps v = true ↔ stamps v = true ∨ v ∈ C.map CNFLit.var := by
  unfold initializeResult addResolvent
  rw [foldl_addReasonLit_stamps, List.mem_map]
  refine or_congr Iff.rfl (exists_congr fun x => and_congr_right fun hx => ?_)
  exact and_iff_right (hC x hx).symm

/-! ## The walk -/

theorem resolvedVariables_of_le {st : State} (h : ¬ 1 < st.unresolvedCount) (cursor : List CNFLit) :
    resolvedVariables p cursor st = [] ∧ resolvedReasons p cursor st = [] := by
  cases cursor with
  | nil => exact ⟨rfl, rfl⟩
  | cons lit cursor =>
    unfold resolvedVariables resolvedReasons
    exact ⟨if_neg h, if_neg h⟩

/-- The cursor resolves at one entry after the other and stops at an entry behind them. -/
theorem resolvedVariables_sublist (cursor : List CNFLit) (st st' : State)
    (h : resolveUntilUIP p cursor st = some st') :
    ∃ u, (∀ x, st'.result.head? = some x → x = -u) ∧
      (resolvedVariables p cursor st ++ [u.var]).Sublist (cursor.map CNFLit.var) := by
  induction cursor generalizing st with
  | nil => cases h
  | cons lit cursor ih =>
    unfold resolveUntilUIP at h
    unfold resolvedVariables
    by_cases hlt : 1 < st.unresolvedCount
    · by_cases hs : st.stamps lit.var = true
      · cases hr : p.reason lit.var with
        | none => simp [hlt, hs, hr] at h
        | some reason =>
          simp only [hlt, if_true, hs, hr] at h ⊢
          obtain ⟨u, hu, hsub⟩ := ih _ h
          exact ⟨u, hu, hsub.cons_cons lit.var⟩
      · simp only [hlt, if_true, hs, Bool.false_eq_true, if_false] at h ⊢
        obtain ⟨u, hu, hsub⟩ := ih _ h
        exact ⟨u, hu, hsub.cons lit.var⟩
    · rw [if_neg hlt] at h ⊢
      by_cases hs : st.stamps lit.var = true
      · rw [if_pos hs] at h
        cases h
        refine ⟨lit, fun x hx => ?_, ?_⟩
        · cases hr : st.result with
          | nil => simp [hr] at hx
          | cons a tail =>
            rw [hr] at hx
            exact (Option.some.inj hx).symm
        · exact List.Sublist.cons_cons lit.var (List.nil_sublist _)
      · rw [if_neg hs] at h
        obtain ⟨u, hu, hsub⟩ := ih _ h
        rw [(resolvedVariables_of_le hlt cursor).1] at hsub
        exact ⟨u, hu, hsub.cons lit.var⟩

theorem mem_map_var_iff {R : List CNFLit} {lit : CNFLit} (h : lit ∈ R) (v : CNFVar) :
    v ∈ R.map CNFLit.var ↔ v = lit.var ∨ ∃ x ∈ R, lit ≠ x ∧ x.var = v := by
  rw [List.mem_map]
  constructor
  · intro hx
    obtain ⟨x, hx, hv⟩ := hx
    by_cases he : lit = x
    · exact .inl (he ▸ hv.symm)
    · exact .inr ⟨x, hx, he, hv⟩
  · intro hx
    cases hx with
    | inl hv => exact ⟨lit, h, hv.symm⟩
    | inr hx =>
      obtain ⟨x, hx, -, hv⟩ := hx
      exact ⟨x, hx, hv⟩

theorem conflict_univ (A : Set CNFLit) : Conflict (Set.univ : Set (Finset CNFLit)) A :=
  .inl ⟨∅, Set.mem_univ _, fun x hx => absurd hx (Finset.notMem_empty x)⟩

/-- At the first unique implication point the stamps are those of the result. -/
theorem stamped_iff_of_uip {pre : List CNFLit} {lit : CNFLit} {st : State} (hp : pre ++ [lit] <+: p.levelAssignments)
    (hf : Frontier p T (pre ++ [lit]) st) (hs : st.stamps lit.var = true) (hn : st.unresolvedCount ≤ 1)
    (v : CNFVar) : v = lit.var ∨ v ∈ st.result.tail.map CNFLit.var ↔ st.stamps v = true := by
  obtain ⟨-, hst⟩ := hf.learnt hp hs hn (conflict_univ (frontier (pre ++ [lit]) st))
  constructor
  · intro hv
    cases hv with
    | inl hv => exact hv ▸ hs
    | inr hv =>
      obtain ⟨x, hx, rfl⟩ := List.mem_map.mp hv
      exact (hf.stamped_below _ (hf.below x hx)).mpr hv
  · intro hv
    by_cases hvl : v = lit.var
    · exact .inl hvl
    · exact .inr (hst v ((set_of_ne st.stamps hvl false).trans hv))

section
variable (g : p.Graph Set.univ T)
include g

theorem resolveUntilUIP_seen (cursor : List CNFLit) (st st' : State) (hp : cursor.reverse <+: p.levelAssignments)
    (hf : Frontier p T cursor.reverse st) (h : resolveUntilUIP p cursor st = some st') (v : CNFVar) :
    v ∈ resolvedVariables p cursor st ++ st'.result.map CNFLit.var ↔
      st.stamps v = true ∨ ∃ R ∈ resolvedReasons p cursor st, v ∈ R.map CNFLit.var := by
  induction cursor generalizing st with
  | nil => cases h
  | cons lit cursor ih =>
    rw [List.reverse_cons] at hp hf
    have hpre : cursor.reverse <+: p.levelAssignments := (List.prefix_append _ _).trans hp
    unfold resolveUntilUIP at h
    by_cases hs : st.stamps lit.var = true
    · by_cases hlt : 1 < st.unresolvedCount
      · cases hr : p.reason lit.var with
        | none => simp [hlt, hs, hr] at h
        | some R =>
          simp only [hlt, if_true, hs, hr] at h
          obtain ⟨hfr, -, -⟩ := hf.resolve g hp hr hs (conflict_univ _)
          have hrest := ih _ hpre hfr h
          have hlitT : lit ∈ T :=
            g.mem_of_levelAssignments (hp.subset (List.mem_append_right _ (List.mem_singleton_self lit)))
          have hlitR := (g.reason_here hp hr).1
          rw [addResolvent_stamps (g.ne_undefinedLiteral hlitT rfl)] at hrest
          unfold resolvedVariables resolvedReasons
          simp only [hlt, if_true, hs, hr, List.cons_append, List.mem_cons, exists_eq_or_imp, hrest]
          -- the variable of `lit` is in its reason, the others of the reason are now stamped
          rw [mem_map_var_iff hlitR]
          by_cases hv : v = lit.var
          · simp [hv, hs]
          · simp only [hv, false_or, ne_eq, not_false_eq_true, true_and, or_assoc]
      · simp only [hlt, if_false, hs, if_true, Option.some.injEq] at h
        subst h
        obtain ⟨hv₁, hv₂⟩ := resolvedVariables_of_le hlt (lit :: cursor)
        rw [hv₁, hv₂, hf.head]
        simpa using stamped_iff_of_uip hp hf hs (Nat.le_of_not_lt hlt) v
    · have hst : st.stamps lit.var = false := Bool.eq_false_of_not_eq_true hs
      simp only [hst, Bool.false_eq_true, if_false, ite_self] at h
      have hrest := ih st hpre (hf.drop hs) h
      by_cases hlt : 1 < st.unresolvedCount
      · unfold resolvedVariables resolvedReasons
        simpa only [hlt, if_true, hst, Bool.false_eq_true, if_false] using hrest
      · obtain ⟨hv₁, hv₂⟩ := resolvedVariables_of_le hlt (lit :: cursor)
        obtain ⟨hv₃, hv₄⟩ := resolvedVariables_of_le hlt cursor
        rwa [hv₁, hv₂, ← hv₃, ← hv₄]

end

/-- A call of `computeConflictClause` calls the callback exactly once for each variable of the conflicting
clause or of a reason with which it resolves, and for no other variable. -/
theorem seenVariables_exact (g : p.Graph Φ T) (hforced : Forced p) (hC : Conflicting p T C) :
    (computeConflictClause p .empty C).isSome ∧ (seenVariables p C).Nodup ∧
      ∀ v, v ∈ seenVariables p C ↔ v ∈ C.map CNFLit.var ∨
        ∃ R ∈ resolvedReasons p p.levelAssignments.reverse (initializeResult p C .empty), v ∈ R.map CNFLit.var := by
  have gu := g.univ
  obtain ⟨u, tail, he, hl⟩ := computeConflictClause_spec gu hforced (Set.mem_univ _) hC
  have hseen : seenVariables p C =
      resolvedVariables p p.levelAssignments.reverse (initializeResult p C .empty) ++
        (-u :: tail).map CNFLit.var := by
    unfold seenVariables
    rw [he]
  have hrun := he
  unfold computeConflictClause at hrun
  obtain ⟨st', hst', hout⟩ := Option.map_eq_some_iff.mp hrun
  have hres : st'.result = -u :: tail := congrArg Prod.fst hout
  have hrev : p.levelAssignments.reverse.reverse = p.levelAssignments := List.reverse_reverse _
  refine ⟨by rw [he]; rfl, ?_, fun v => ?_⟩
  · obtain ⟨w, hw, hsub⟩ := resolvedVariables_sublist _ _ _ hst'
    have hwu : u = w := neg_inj.mp (hw (-u) (by rw [hres]; rfl))
    subst hwu
    have hn : (p.levelAssignments.reverse.map CNFLit.var).Nodup := by
      rw [List.map_reverse, List.nodup_reverse]
      exact nodup_of_initial gu (List.prefix_refl _)
    have hlog := hn.sublist hsub
    rw [List.nodup_append'] at hlog
    obtain ⟨hlog, -, hdisj⟩ := hlog
    have hhere : ∀ v ∈ resolvedVariables p p.levelAssignments.reverse (initializeResult p C .empty),
        p.level v = p.currentLevel := by
      intro v hv
      obtain ⟨l, hl, rfl⟩ := List.mem_map.mp (hsub.subset (List.mem_append_left _ hv))
      exact g.level_eq l (List.mem_reverse.mp hl)
    rw [hseen, List.nodup_append', List.map_cons, CNFLit.var_neg, List.nodup_cons]
    refine ⟨hlog, ⟨fun hv => ?_, hl.nodup_vars⟩, fun v hv hvr => ?_⟩
    · obtain ⟨x, hx, hv⟩ := List.mem_map.mp hv
      exact hl.below x hx (hv ▸ g.level_eq u hl.uip)
    · cases List.mem_cons.mp hvr with
      | inl he => exact hdisj hv (List.mem_singleton.mpr he)
      | inr hvt =>
        obtain ⟨x, hx, rfl⟩ := List.mem_map.mp hvt
        exact hl.below x hx (hhere _ hv)
  · obtain ⟨hf, -, -⟩ := initializeResult_spec gu hC
    have hrun := resolveUntilUIP_seen gu _ _ st' (by rw [hrev]) (by rw [hrev]; exact hf) hst' v
    rw [hseen, ← hres, hrun, initializeResult_stamps]
    · exact or_congr (or_iff_right Bool.false_ne_true) Iff.rfl
    · exact fun x hx => g.ne_undefinedLiteral (hC.isFalse x hx) rfl

/-- Resolving at 3 and 2 leads to the decision's successor 1. -/
theorem forcedChain_seen :
    (computeConflictClause forcedChain .empty [⟨2, .negative⟩, ⟨3, .negative⟩]).isSome ∧
      (seenVariables forcedChain [⟨2, .negative⟩, ⟨3, .negative⟩]).Nodup ∧
      ∀ v, v ∈ seenVariables forcedChain [⟨2, .negative⟩, ⟨3, .negative⟩] ↔
        v ∈ [⟨2, .negative⟩, (⟨3, .negative⟩ : CNFLit)].map CNFLit.var ∨
        ∃ R ∈ resolvedReasons forcedChain forcedChain.levelAssignments.reverse
          (initializeResult forcedChain [⟨2, .negative⟩, ⟨3, .negative⟩] .empty), v ∈ R.map CNFLit.var :=
  seenVariables_exact forcedChain_decisionLevel.graph forcedChain_decisionLevel.everyForced
    ⟨by decide, ⟨2, .negative⟩, by decide, ⟨3, .negative⟩, by decide, by decide, rfl, rfl⟩

end FirstUIPLearning

end JamSAT
