import JamSAT.ConflictAnalysisSound

/-!
# Soundness of the minimization

Minimization removes literals that are on level 0 or follow from the remaining
ones. It ends with a set of stamps that is closed under reasons.
-/

namespace JamSAT

open UnitLogic

/-! ## Minimization -/

namespace ClauseMinimization

open Stamps

variable {p : Provider} {Φ : Set (Finset CNFLit)} {T : List CNFLit}

/-- The variable has a reason that is on level 0 or stamped throughout. -/
def Closed (p : Provider) (stamps : Stamps) (v : CNFVar) : Prop :=
  ∃ C, p.reason v = some C ∧ ∀ x ∈ C, p.level x.var = 0 ∨ stamps x.var = true

theorem Closed.mono {stamps stamps' : Stamps} {v : CNFVar} (h : Closed p stamps v)
    (hs : ∀ v, stamps v = true → stamps' v = true) : Closed p stamps' v := by
  obtain ⟨C, hC, h⟩ := h
  exact ⟨C, hC, fun x hx => (h x hx).imp_right (hs _)⟩

def Searchable (p : Provider) (T : List CNFLit) (v : CNFVar) : Prop := v ∈ T.map CNFLit.var ∧ p.reason v ≠ none

structure Marks (p : Provider) (T : List CNFLit) (base : Stamps) (c : Check) : Prop where
  stamps : ∀ v, c.stamps v = true ↔ base v = true ∨ v ∈ c.stampCleanup
  fresh : ∀ v ∈ c.stampCleanup, base v = false
  work : ∀ v ∈ c.work, Searchable p T v

structure Adds (T : List CNFLit) (c c' : Check) : Prop where
  stamps : ∀ v, c.stamps v = true → c'.stamps v = true
  work : c.work ⊆ c'.work
  new : ∀ v, c'.stamps v = true → c.stamps v = true ∨ v ∈ c'.work
  size : c'.work.length + c.stamps.count T ≤ c.work.length + c'.stamps.count T

theorem Adds.refl (c : Check) : Adds T c c :=
  ⟨fun _ h => h, List.Subset.refl _, fun _ h => .inl h, Nat.le_refl _⟩

theorem Adds.trans {c c' c'' : Check} (h : Adds T c c') (h' : Adds T c' c'') : Adds T c c'' where
  stamps v hv := h'.stamps v (h.stamps v hv)
  work := List.Subset.trans h.work h'.work
  new v hv := by
    rcases h'.new v hv with hv | hv
    · exact (h.new v hv).imp_right fun hv => h'.work hv
    · exact .inr hv
  size := by have := h.size; have := h'.size; omega

section
variable (g : p.Reasons T) {base : Stamps} (levels : OverApproximatingSet)
include g

theorem Marks.push {c : Check} (h : Marks p T base c) {lit : CNFLit} (hv : lit.var ∈ T.map CNFLit.var)
    (hs : ¬ c.stamps lit.var = true) (hr : (p.reason lit.var).isSome = true) :
    Marks p T base ⟨c.stamps.set lit.var true, lit.var :: c.work, c.stampCleanup ++ [lit.var]⟩ ∧
      Adds T c ⟨c.stamps.set lit.var true, lit.var :: c.work, c.stampCleanup ++ [lit.var]⟩ := by
  have hsf := Bool.eq_false_of_not_eq_true hs
  refine ⟨⟨fun v => ?_, fun v hm => ?_, ?_⟩,
    ⟨fun v => set_true_of_true, List.subset_cons_self _ _, fun v hm => ?_, ?_⟩⟩
  · show c.stamps.set lit.var true v = true ↔ base v = true ∨ v ∈ c.stampCleanup ++ [lit.var]
    by_cases he : v = lit.var
    · simp [he]
    · rw [set_of_ne c.stamps he, h.stamps v]
      simp [he]
  · rcases List.mem_append.mp hm with hm | hm
    · exact h.fresh v hm
    · obtain rfl := List.mem_singleton.mp hm
      exact Bool.eq_false_of_not_eq_true fun hb => hs ((h.stamps _).mpr (.inl hb))
  · exact List.forall_mem_cons.mpr ⟨⟨hv, Option.isSome_iff_ne_none.mp hr⟩, h.work⟩
  · by_cases he : v = lit.var
    · exact .inr (he ▸ List.mem_cons_self)
    · exact .inl ((set_of_ne c.stamps he true).symm.trans hm)
  · show (lit.var :: c.work).length + _ ≤ c.work.length + (c.stamps.set lit.var true).count T
    rw [count_set_true g.nodup_vars hv hsf, List.length_cons]
    omega

theorem checkReason_spec (reason : List CNFLit) {c : Check} (h : Marks p T base c)
    (hvars : ∀ x ∈ reason, x.var ∈ T.map CNFLit.var) :
    Marks p T base (checkReason p levels reason c).2 ∧ Adds T c (checkReason p levels reason c).2 ∧
      ((checkReason p levels reason c).1 = true →
        ∀ x ∈ reason, p.level x.var = 0 ∨ (checkReason p levels reason c).2.stamps x.var = true) := by
  induction reason generalizing c with
  | nil => exact ⟨h, .refl c, fun _ _ hx => absurd hx List.not_mem_nil⟩
  | cons lit reason ih =>
    obtain ⟨hv, hvars⟩ := List.forall_mem_cons.mp hvars
    have hfail : ∀ {P : Prop}, (false, c).1 = true → P := fun hb => absurd hb Bool.false_ne_true
    unfold checkReason
    split
    · exact ⟨h, .refl c, hfail⟩
    · split
      · rename_i hz
        obtain ⟨hm, ha, ht⟩ := ih h hvars
        exact ⟨hm, ha, fun hb => List.forall_mem_cons.mpr ⟨hz.imp_right (ha.stamps _), ht hb⟩⟩
      · rename_i hz
        split
        · rename_i hr
          obtain ⟨hm₁, ha₁⟩ := h.push g hv (fun hs => hz (.inr hs)) hr
          obtain ⟨hm, ha, ht⟩ := ih hm₁ hvars
          refine ⟨hm, ha₁.trans ha, fun hb => List.forall_mem_cons.mpr ⟨.inr (ha.stamps _ ?_), ht hb⟩⟩
          exact set_self _ _ _
        · exact ⟨h, .refl c, hfail⟩

/-- Stamped variables are old ones, wait in the work list or have been searched. -/
structure Search (p : Provider) (base : Stamps) (start : CNFVar) (c : Check) : Prop where
  closed : ∀ v, c.stamps v = true → base v = true ∨ v ∈ c.work ∨ Closed p c.stamps v
  start : start ∈ c.work ∨ Closed p c.stamps start

omit g in
theorem Search.advance {start workItem : CNFVar} {work : List CNFVar} {c c' : Check}
    (hw : c.work = workItem :: work)
    (h : Search p base start c) (ha : Adds T { c with work := work } c')
    (hclosed : Closed p c'.stamps workItem) : Search p base start c' := by
  have hstep : ∀ v, v ∈ c.work ∨ Closed p c.stamps v → v ∈ c'.work ∨ Closed p c'.stamps v := by
    intro v hv
    rcases hv with hv | hv
    · rw [hw] at hv
      rcases List.mem_cons.mp hv with rfl | hv
      · exact .inr hclosed
      · exact .inl (ha.work hv)
    · exact .inr (hv.mono ha.stamps)
  refine ⟨fun v hv => ?_, hstep start h.start⟩
  rcases ha.new v hv with hv | hv
  · exact (h.closed v hv).imp_right (hstep v)
  · exact .inr (.inl hv)

/-- The search ends, and if it finds the literal redundant, all it has stamped
is closed. -/
theorem checkWork_spec {start : CNFVar} : ∀ (fuel : Nat) (c : Check), Marks p T base c → Search p base start c →
    c.work.length + (T.length - c.stamps.count T) < fuel →
    ∃ b c', checkWork p levels fuel c = some (b, c') ∧ Marks p T base c' ∧
      (b = true → (∀ v, c'.stamps v = true → base v = true ∨ Closed p c'.stamps v) ∧ Closed p c'.stamps start) := by
  intro fuel
  induction fuel with
  | zero => intro c _ _ hf; exact absurd hf (Nat.not_lt_zero _)
  | succ fuel ih =>
    intro c hm hs hf
    unfold checkWork
    cases hw : c.work with
    | nil =>
      refine ⟨true, c, rfl, hm, fun _ => ⟨fun v hv => ?_, ?_⟩⟩
      · exact (hs.closed v hv).imp_right fun h => h.resolve_left (by rw [hw]; exact List.not_mem_nil)
      · exact hs.start.resolve_left (by rw [hw]; exact List.not_mem_nil)
    | cons workItem work =>
      have hitem := hm.work workItem (hw ▸ List.mem_cons_self)
      obtain ⟨reason, hr⟩ := Option.ne_none_iff_exists'.mp hitem.2
      have hm' : Marks p T base { c with work := work } :=
        ⟨hm.stamps, hm.fresh, fun v hv => hm.work v (hw ▸ List.mem_cons_of_mem _ hv)⟩
      obtain ⟨hmarks, hadds, htrue⟩ := checkReason_spec g (levels.insert 0) reason hm'
        (g.reason_vars hitem.1 hr)
      simp only [hr]
      obtain ⟨b, c', he⟩ : ∃ b c', checkReason p (levels.insert 0) reason { c with work := work } = (b, c') :=
        ⟨_, _, rfl⟩
      rw [he] at hmarks hadds htrue
      rw [he]
      cases b with
      | false => exact ⟨false, c', rfl, hmarks, fun hb => absurd hb Bool.false_ne_true⟩
      | true =>
        have hsize : c'.work.length + c.stamps.count T ≤ work.length + c'.stamps.count T := hadds.size
        have hlen : c.work.length = work.length + 1 := by rw [hw]; rfl
        have hle := c'.stamps.count_le T
        exact ih c' hmarks (hs.advance hw hadds ⟨reason, hr, htrue rfl⟩) (by omega)

theorem isRedundant_spec {fuel : Nat} (stamps : Stamps) {literal : CNFLit} (hf : T.length + 1 < fuel)
    (hv : Searchable p T literal.var) :
    ∃ b stamps', isRedundant p fuel levels stamps literal = some (b, stamps') ∧
      (b = false → stamps' = stamps) ∧
      (b = true → p.level literal.var ≠ p.currentLevel ∧ (∀ v, stamps v = true → stamps' v = true) ∧
        (∀ v, stamps' v = true → stamps v = true ∨ Closed p stamps' v) ∧ Closed p stamps' literal.var) := by
  unfold isRedundant
  split
  · exact ⟨false, stamps, rfl, fun _ => rfl, fun hb => absurd hb Bool.false_ne_true⟩
  · rename_i hlevel
    have hm : Marks p T stamps ⟨stamps, [literal.var], []⟩ :=
      ⟨fun v => by simp, fun v hv => absurd hv List.not_mem_nil, List.forall_mem_singleton.mpr hv⟩
    have hs : Search p stamps literal.var ⟨stamps, [literal.var], []⟩ :=
      ⟨fun v hv => .inl hv, .inl (List.mem_singleton_self _)⟩
    have hfuel : [literal.var].length + (T.length - stamps.count T) < fuel := by
      rw [List.length_singleton]; omega
    obtain ⟨b, c, he, hmarks, hclosed⟩ := checkWork_spec g levels fuel _ hm hs hfuel
    rw [he]
    cases b with
    | true =>
      exact ⟨true, c.stamps, rfl, fun hb => absurd hb.symm Bool.false_ne_true, fun _ =>
        ⟨hlevel, fun v hv => (hmarks.stamps v).mpr (.inl hv), hclosed rfl⟩⟩
    | false =>
      refine ⟨false, _, rfl, fun _ => ?_, fun hb => absurd hb Bool.false_ne_true⟩
      -- the cleanup restores the stamps
      funext v
      rw [foldl_set_apply (fun v => v), List.map_id']
      split
      · rename_i hv; exact (hmarks.fresh v hv).symm
      · rename_i hv
        rw [Bool.eq_iff_iff, hmarks.stamps v]
        exact or_iff_left hv

/-- Every stamped variable is in the clause, on level 0 or closed over stamped ones. -/
def Covers (p : Provider) (clause : List CNFLit) (stamps : Stamps) : Prop :=
  ∀ v, stamps v = true → v ∈ clause.map CNFLit.var ∨ p.level v = 0 ∨ Closed p stamps v

structure Erases (p : Provider) (kept rest : List CNFLit) (stamps : Stamps) (out : List CNFLit) (stamps' : Stamps) :
    Prop where
  sublist : out.Sublist rest
  here : ∀ l ∈ rest, p.level l.var = p.currentLevel → p.level l.var ≠ 0 → l ∈ out
  stamps : ∀ v, stamps v = true → stamps' v = true
  covers : Covers p (kept ++ out) stamps'

omit g in
theorem Erases.keep {kept rest out : List CNFLit} {stamps stamps' : Stamps} {literal : CNFLit}
    (h : Erases p (kept ++ [literal]) rest stamps out stamps') :
    Erases p kept (literal :: rest) stamps (literal :: out) stamps' where
  sublist := h.sublist.cons_cons literal
  here l hl hc hz := by
    rcases List.mem_cons.mp hl with rfl | hl
    · exact List.mem_cons_self
    · exact List.mem_cons_of_mem _ (h.here l hl hc hz)
  stamps := h.stamps
  covers := by simpa using h.covers

omit g in
theorem Erases.drop {kept rest out : List CNFLit} {stamps st stamps' : Stamps} {literal : CNFLit}
    (h : Erases p kept rest st out stamps') (hst : ∀ v, stamps v = true → st v = true)
    (hlevel : p.level literal.var = p.currentLevel → p.level literal.var = 0) :
    Erases p kept (literal :: rest) stamps out stamps' where
  sublist := h.sublist.cons literal
  here l hl hc hz := by
    rcases List.mem_cons.mp hl with rfl | hl
    · exact absurd (hlevel hc) hz
    · exact h.here l hl hc hz
  stamps v hv := h.stamps v (hst v hv)
  covers := h.covers

omit g in
theorem mem_vars_split {kept rest : List CNFLit} {literal : CNFLit} {v : CNFVar}
    (hv : v ∈ (kept ++ literal :: rest).map CNFLit.var) : v = literal.var ∨ v ∈ (kept ++ rest).map CNFLit.var := by
  simp only [List.map_append, List.map_cons, List.mem_append, List.mem_cons] at hv ⊢
  tauto

theorem eraseLoop_spec {fuel : Nat} (hf : T.length + 1 < fuel) : ∀ (rest kept : List CNFLit) (stamps : Stamps),
    (∀ l ∈ rest, l.var ∈ T.map CNFLit.var) → Covers p (kept ++ rest) stamps →
    ∃ out stamps', eraseLoop p fuel levels rest stamps = some out ∧ Erases p kept rest stamps out stamps' := by
  intro rest
  induction rest with
  | nil =>
    intro kept stamps _ hs
    exact ⟨[], stamps, rfl, List.Sublist.refl _, fun _ hl => absurd hl List.not_mem_nil, fun _ hv => hv, hs⟩
  | cons literal rest ih =>
    intro kept stamps hvars hs
    obtain ⟨hv, hvars⟩ := List.forall_mem_cons.mp hvars
    have hkeep : ∃ out stamps', (eraseLoop p fuel levels rest stamps).map (literal :: ·) = some out ∧
        Erases p kept (literal :: rest) stamps out stamps' := by
      obtain ⟨out, stamps', he, h⟩ := ih (kept ++ [literal]) stamps hvars (by simpa using hs)
      exact ⟨literal :: out, stamps', by rw [he]; rfl, h.keep⟩
    unfold eraseLoop
    cases hr : p.reason literal.var with
    | none =>
      dsimp only
      split
      · rename_i hz
        obtain ⟨out, stamps', he, h⟩ := ih kept stamps hvars fun v hv => by
          rcases hs v hv with hv | hv
          · rcases mem_vars_split hv with rfl | hv
            · exact .inr (.inl hz)
            · exact .inl hv
          · exact .inr hv
        exact ⟨out, stamps', he, h.drop (fun _ hv => hv) fun _ => hz⟩
      · exact hkeep
    | some reason =>
      obtain ⟨b, st, he, hfalse, htrue⟩ := isRedundant_spec g levels stamps hf
        ⟨hv, by rw [hr]; exact Option.some_ne_none _⟩
      simp only [he]
      cases b with
      | false => rw [hfalse rfl]; exact hkeep
      | true =>
        obtain ⟨hne, hmono, hclosed, hstart⟩ := htrue rfl
        obtain ⟨out, stamps', he', h⟩ := ih kept st hvars fun v hv => by
          rcases hclosed v hv with hv | hv
          · rcases hs v hv with hv | hv | hv
            · rcases mem_vars_split hv with rfl | hv
              · exact .inr (.inr hstart)
              · exact .inl hv
            · exact .inr (.inl hv)
            · exact .inr (.inr (hv.mono hmono))
          · exact .inr (.inr hv)
        exact ⟨out, stamps', he', h.drop hmono fun hl => absurd hl hne⟩

end

section
variable (g : p.Graph Φ T)
include g

theorem Covers.derives {clause : List CNFLit} (hc : ∀ x ∈ clause, -x ∈ T) {stamps : Stamps}
    (h : Covers p clause stamps) : ∀ l ∈ T, stamps l.var = true → Derives Φ {l | -l ∈ clause.toFinset} l := by
  have hfact : ∀ l ∈ T, p.level l.var = 0 → Derives Φ {l | -l ∈ clause.toFinset} l := fun l hl hz =>
    (g.fact l hl hz).mono (Set.Subset.refl _) (Set.empty_subset _)
  refine fun l hl hs => derives_of_closed (W := {l | p.level l.var = 0 ∨ stamps l.var = true}) ?_ l hl (.inr hs)
  intro pre l hp hW
  have hl : l ∈ T := hp.subset (List.mem_append_right _ (List.mem_singleton_self l))
  rcases hW with hz | hs
  · exact .inl (hfact l hl hz)
  · rcases h l.var hs with hm | hz | ⟨C, hC, hclosed⟩
    · obtain ⟨x, hx, he⟩ := List.mem_map.mp hm
      have := g.eq_of_var_eq (hc x hx) hl he
      refine .inl (.given ?_)
      show -l ∈ clause.toFinset
      rw [← this, neg_neg, List.mem_toFinset]; exact hx
    · exact .inl (hfact l hl hz)
    · obtain ⟨hlC, hΦ, ho⟩ := g.reason pre l hp C hC
      refine .inr ⟨C.toFinset, hΦ, List.mem_toFinset.mpr hlC, fun x hx hne => ?_⟩
      have hx := List.mem_toFinset.mp hx
      exact ⟨ho x hx hne, hclosed x hx⟩

theorem eraseRedundantLiterals_spec {fuel : Nat} (hf : T.length + 1 < fuel) (hpos : p.currentLevel ≠ 0) {u : CNFLit}
    {tail : List CNFLit} (h : p.Learnt Φ T u tail) :
    ∃ tail', eraseRedundantLiterals p fuel (-u :: tail) = some (-u :: tail') ∧ p.Learnt Φ T u tail' := by
  have hT : ∀ l ∈ -u :: tail, -l ∈ T := g.neg_mem_of_learnt h
  have hvars := g.var_mem_of_learnt h
  have hstamps : ∀ v, (-u :: tail).foldl (fun stamps l => stamps.set l.var true) Stamps.empty v = true ↔
      v ∈ (-u :: tail).map CNFLit.var := fun v => by
    rw [foldl_set_apply CNFLit.var]
    split <;> simp_all [Stamps.empty]
  obtain ⟨out, stamps', he, hout⟩ := eraseLoop_spec g.reasons ((-u :: tail).foldl
    (fun levels l => levels.insert (p.level l.var)) .empty) hf (-u :: tail) [] _ hvars
    fun v hv => .inl ((hstamps v).mp hv)
  have hlev := g.level_eq u h.uip
  have hu : -u ∈ out := hout.here (-u) List.mem_cons_self hlev (by rw [CNFLit.var_neg, hlev]; exact hpos)
  -- the asserting literal stays first
  obtain ⟨tail', rfl, hsub⟩ : ∃ tail', out = -u :: tail' ∧ tail'.Sublist tail := by
    rcases List.sublist_cons_iff.mp hout.sublist with hs | ⟨r, rfl, hr⟩
    · exact absurd hlev (h.below (-u) (hs.subset hu))
    · exact ⟨r, rfl, hr⟩
  refine ⟨tail', he, h.uip, fun x hx => h.isFalse x (hsub.subset hx), fun x hx => h.below x (hsub.subset hx),
    h.nodup_vars.sublist (hsub.map _), ?_⟩
  refine Conflict.cut (Set.Subset.refl _) (fun l hl => ?_) h.rup
  have hl : -l ∈ -u :: tail := List.mem_toFinset.mp hl
  have hlT : l ∈ T := by have := hT _ hl; rwa [neg_neg] at this
  exact hout.covers.derives g (fun x hx => hT x (hout.sublist.subset hx)) l hlT
    (hout.stamps _ ((hstamps l.var).mpr (List.mem_map.mpr ⟨-l, hl, rfl⟩)))

omit g in
theorem resolveWithBinaries_spec {binaryClauses : CNFLit → List CNFLit} {u : CNFLit}
    (hb : ∀ l ∈ binaryClauses (-u), {-u, l} ∈ Φ ∧ l.var ≠ u.var) {tail : List CNFLit} (h : p.Learnt Φ T u tail) :
    ∃ tail', resolveWithBinaries binaryClauses (-u) (-u :: tail) = -u :: tail' ∧ p.Learnt Φ T u tail' := by
  unfold resolveWithBinaries
  split
  · exact ⟨tail, rfl, h⟩
  · have hu : u ∉ binaryClauses (-u) := fun hm => (hb u hm).2 rfl
    set tail' := tail.filter fun l => decide (-l ∉ binaryClauses (-u)) with htail
    have hsub : tail'.Sublist tail := List.filter_sublist
    refine ⟨tail', ?_, h.uip, fun x hx => h.isFalse x (hsub.subset hx), fun x hx => h.below x (hsub.subset hx),
      h.nodup_vars.sublist (hsub.map _), ?_⟩
    · rw [List.filter_cons_of_pos (by rw [neg_neg]; exact decide_eq_true hu)]
    · refine Conflict.cut (Set.Subset.refl _) (fun l hl => ?_) h.rup
      have hl : -l ∈ -u :: tail := List.mem_toFinset.mp hl
      by_cases hm : l ∈ binaryClauses (-u)
      · -- the binary clause `(-u, l)` derives the negation of the removed literal
        refine .unit (hb l hm).1 (by simp) fun x hx hne => .given ?_
        have hxu : x = -u := by simpa [hne] using hx
        have hmem : -(-x) ∈ (-u :: tail').toFinset := by simp [hxu]
        exact hmem
      · have hmem : -l ∈ (-u :: tail').toFinset := by
          rw [List.mem_toFinset]
          rcases List.mem_cons.mp hl with he | hl
          · rw [he]; exact List.mem_cons_self
          · exact List.mem_cons_of_mem _ (List.mem_filter.mpr ⟨hl, by simpa using hm⟩)
        exact .given hmem

end

end ClauseMinimization

end JamSAT
