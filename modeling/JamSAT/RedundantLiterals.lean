import JamSAT.MinimizationSound

/-!
# Redundant literals

Minimization removes the literals that are redundant by definition: those on level 0, and
those with a reason whose other literals are in the clause or are redundant again. The
level filter only ends searches that would fail.
-/

namespace JamSAT

/-- An implication graph over the trail `T`: a reason is false but for the entry it has forced, on
no level above it, and above level 0 has a second literal on its level. -/
structure Provider.ImplicationGraph (p : Provider) (T : List CNFLit) : Prop extends p.Reasons T where
  level_le : ∀ l ∈ T, p.level l.var ≤ p.currentLevel
  reason_level : ∀ l ∈ T, ∀ C, p.reason l.var = some C → ∀ x ∈ C, p.level x.var ≤ p.level l.var
  second : ∀ l ∈ T, ∀ C, p.reason l.var = some C → p.level l.var ≠ 0 →
    ∃ x ∈ C, x ≠ l ∧ p.level x.var = p.level l.var

namespace ClauseMinimization

open Stamps

inductive Redundant (p : Provider) (clause : List CNFLit) : CNFLit → Prop
  | fact {l : CNFLit} (h : p.level l.var = 0) : Redundant p clause l
  | implied {l : CNFLit} {C : List CNFLit} (hC : p.reason l.var = some C)
    (h : ∀ x ∈ C, x.var ≠ l.var → x ∉ clause → Redundant p clause x) : Redundant p clause l

def Removable (p : Provider) (clause : List CNFLit) (l : CNFLit) : Prop :=
  p.level l.var ≠ p.currentLevel ∧ Redundant p clause l

variable {p : Provider} {T clause : List CNFLit}

theorem Redundant.reason {l : CNFLit} (h : Redundant p clause l) (hz : p.level l.var ≠ 0) :
    ∃ C, p.reason l.var = some C ∧ ∀ x ∈ C, x.var ≠ l.var → x ∉ clause → Redundant p clause x := by
  cases h with
  | fact h => exact absurd h hz
  | implied hC h => exact ⟨_, hC, h⟩

end ClauseMinimization

/-! ## The level filter -/

namespace OverApproximatingSet

theorem mightContain_insert_self (s : OverApproximatingSet) (i : Nat) : (s.insert i).mightContain i = true :=
  Function.update_self _ _ _

theorem mightContain_insert {s : OverApproximatingSet} {i : Nat} (h : s.mightContain i = true) (j : Nat) :
    (s.insert j).mightContain i = true := by
  unfold mightContain insert
  dsimp only
  by_cases he : Fin.ofNat 64 i = Fin.ofNat 64 j
  · rw [he, Function.update_self]
  · rw [Function.update_of_ne he]
    exact h

theorem mightContain_foldl {α : Type*} (f : α → Nat) (xs : List α) : ∀ (s : OverApproximatingSet),
    (∀ i, s.mightContain i = true → (xs.foldl (fun s x => s.insert (f x)) s).mightContain i = true) ∧
      ∀ x ∈ xs, (xs.foldl (fun s x => s.insert (f x)) s).mightContain (f x) = true := by
  induction xs with
  | nil => exact fun s => ⟨fun _ h => h, nofun⟩
  | cons y ys ih =>
    intro s
    obtain ⟨hkeep, hin⟩ := ih (s.insert (f y))
    refine ⟨fun i h => hkeep i (mightContain_insert h _), List.forall_mem_cons.mpr ⟨?_, hin⟩⟩
    exact hkeep _ (mightContain_insert_self s _)

end OverApproximatingSet

namespace ClauseMinimization

open Stamps OverApproximatingSet

variable {p : Provider} {T clause : List CNFLit}

section
variable (g : p.ImplicationGraph T)
include g

/-- A redundant literal above level 0 has a literal of the clause on its level. -/
theorem Redundant.exists_level {l : CNFLit} (h : Redundant p clause l) (hl : -l ∈ T) (hz : p.level l.var ≠ 0) :
    ∃ y ∈ clause, p.level y.var = p.level l.var := by
  induction h with
  | fact h => exact absurd h hz
  | @implied l C hC _ ih =>
    have hC' : p.reason (-l).var = some C := hC
    obtain ⟨x, hx, hne, hlevel⟩ := g.second (-l) hl C hC' hz
    obtain ⟨hxT, hxv⟩ := (g.others hl hC').2 x hx hne
    by_cases hm : x ∈ clause
    · exact ⟨x, hm, hlevel⟩
    · obtain ⟨y, hy, hyl⟩ := ih x hx hxv hm hxT (by rw [hlevel]; exact hz)
      exact ⟨y, hy, hyl.trans hlevel⟩

end

/-! ## Failing searches -/

structure Pushes (p : Provider) (levels : OverApproximatingSet) (reason : List CNFLit) (c c' : Check) : Prop where
  stamps : ∀ v, c.stamps v = true → c'.stamps v = true
  new : ∀ v, c'.stamps v = true → c.stamps v = true ∨ levels.mightContain (p.level v) = true
  work : ∀ v ∈ c'.work, v ∈ c.work ∨ c'.stamps v = true ∧ ∃ x ∈ reason, x.var = v ∧ p.level v ≠ 0 ∧ c.stamps v = false

theorem Pushes.refl (levels : OverApproximatingSet) (reason : List CNFLit) (c : Check) :
    Pushes p levels reason c c :=
  ⟨fun _ h => h, fun _ h => .inl h, fun _ h => .inl h⟩

theorem Pushes.cons {levels : OverApproximatingSet} {reason : List CNFLit} {c c' : Check}
    (h : Pushes p levels reason c c') (lit : CNFLit) : Pushes p levels (lit :: reason) c c' := by
  refine ⟨h.stamps, h.new, fun v hv => ?_⟩
  cases h.work v hv with
  | inl hv => exact .inl hv
  | inr hv =>
    obtain ⟨hs, x, hx, hr⟩ := hv
    exact .inr ⟨hs, x, List.mem_cons_of_mem _ hx, hr⟩

theorem Pushes.push {levels : OverApproximatingSet} {lit : CNFLit} {reason : List CNFLit} {c c' : Check}
    (hm : levels.mightContain (p.level lit.var) = true) (hz : p.level lit.var ≠ 0) (hs : c.stamps lit.var = false)
    (h : Pushes p levels reason ⟨c.stamps.set lit.var true, lit.var :: c.work, c.stampCleanup ++ [lit.var]⟩ c') :
    Pushes p levels (lit :: reason) c c' := by
  have hold : ∀ v, c.stamps.set lit.var true v = true → v = lit.var ∨ c.stamps v = true := by
    intro v hv
    by_cases he : v = lit.var
    · exact .inl he
    · rw [set_of_ne c.stamps he] at hv
      exact .inr hv
  refine ⟨fun v hv => h.stamps v (set_true_of_true hv), fun v hv => ?_, fun v hv => ?_⟩
  · cases h.new v hv with
    | inl hv => exact (hold v hv).elim (fun he => .inr (he ▸ hm)) .inl
    | inr hv => exact .inr hv
  · cases h.work v hv with
    | inl hv =>
      cases List.mem_cons.mp hv with
      | inl he =>
        subst he
        exact .inr ⟨h.stamps _ (set_self _ _ _), lit, List.mem_cons_self, rfl, hz, hs⟩
      | inr hv => exact .inl hv
    | inr hv =>
      obtain ⟨hv, x, hx, he, hxz, hxs⟩ := hv
      refine .inr ⟨hv, x, List.mem_cons_of_mem _ hx, he, hxz, ?_⟩
      by_contra hxs'
      exact Bool.false_ne_true (hxs.symm.trans (set_true_of_true (Bool.eq_true_of_not_eq_false hxs')))

theorem checkReason_pushes (levels : OverApproximatingSet) (reason : List CNFLit) : ∀ (c : Check),
    Pushes p levels reason c (checkReason p levels reason c).2 := by
  induction reason with
  | nil => exact fun c => .refl levels [] c
  | cons lit reason ih =>
    intro c
    unfold checkReason
    split
    · exact .refl levels _ c
    rename_i hlevel
    split
    · exact (ih c).cons lit
    rename_i hseen
    rw [not_or] at hseen
    split
    · exact (ih _).push (by simpa using hlevel) hseen.1 (Bool.eq_false_of_not_eq_true hseen.2)
    · exact .refl levels _ c

/-- The literal at which the loop over a reason has given up. -/
theorem checkReason_fails (levels : OverApproximatingSet) (reason : List CNFLit) : ∀ (c : Check),
    (checkReason p levels reason c).1 = false → ∃ x ∈ reason, levels.mightContain (p.level x.var) = false ∨
      p.level x.var ≠ 0 ∧ c.stamps x.var = false ∧ p.reason x.var = none := by
  induction reason with
  | nil => exact fun c h => absurd h.symm Bool.false_ne_true
  | cons lit reason ih =>
    intro c
    unfold checkReason
    split
    · rename_i hlevel
      exact fun _ => ⟨lit, List.mem_cons_self, .inl (by simpa using hlevel)⟩
    split
    · intro h
      obtain ⟨x, hx, h⟩ := ih c h
      exact ⟨x, List.mem_cons_of_mem _ hx, h⟩
    rename_i hseen
    rw [not_or] at hseen
    split
    · intro h
      obtain ⟨x, hx, h⟩ := ih _ h
      refine ⟨x, List.mem_cons_of_mem _ hx, h.imp_right fun hr => ⟨hr.1, ?_, hr.2.2⟩⟩
      by_contra hs'
      exact Bool.false_ne_true (hr.2.1.symm.trans (set_true_of_true (Bool.eq_true_of_not_eq_false hs')))
    · rename_i hr
      intro _
      exact ⟨lit, List.mem_cons_self, .inr ⟨hseen.1, Bool.eq_false_of_not_eq_true hseen.2, by simpa using hr⟩⟩

/-- The search for `start` asks for no more than it needs: if `start` is redundant, all that waits is. -/
structure Seeks (p : Provider) (T clause : List CNFLit) (levels : OverApproximatingSet) (start : CNFLit) (c : Check) :
    Prop where
  listed : ∀ x ∈ clause, c.stamps x.var = true
  filter : ∀ v, c.stamps v = true → levels.mightContain (p.level v) = true
  stamped : ∀ v ∈ c.work, c.stamps v = true
  needed : Redundant p clause start → ∀ v ∈ c.work, ∃ l, l.var = v ∧ -l ∈ T ∧ Redundant p clause l

section
variable (g : p.ImplicationGraph T) {levels : OverApproximatingSet} {start : CNFLit} {c : Check}
  {workItem : CNFVar} {work : List CNFVar} (hw : c.work = workItem :: work) (h : Seeks p T clause levels start c)
  {reason : List CNFLit} (hr : p.reason workItem = some reason)
include g hw h hr

/-- A literal of the work item's reason that is met for the first time. -/
theorem Seeks.reason_lit {x : CNFLit} (hx : x ∈ reason) (hz : p.level x.var ≠ 0) (hs : c.stamps x.var = false)
    (hstart : Redundant p clause start) : -x ∈ T ∧ Redundant p clause x := by
  have hitem : workItem ∈ c.work := hw ▸ List.mem_cons_self
  obtain ⟨l, rfl, hl, hred⟩ := h.needed hstart workItem hitem
  have hr' : p.reason (-l).var = some reason := hr
  have hv : x.var ≠ l.var := fun he => Bool.false_ne_true (hs.symm.trans (he ▸ h.stamped _ hitem))
  have hlz : p.level l.var ≠ 0 := by
    intro hlz
    have hle := g.reason_level (-l) hl reason hr' x hx
    rw [CNFLit.var_neg, hlz] at hle
    exact hz (Nat.le_zero.mp hle)
  obtain ⟨C, hC, hall⟩ := hred.reason hlz
  obtain rfl := Option.some.inj (hr.symm.trans hC)
  refine ⟨((g.others hl hr').2 x hx fun he => hv (he ▸ rfl)).1, hall x hx hv fun hm => ?_⟩
  exact Bool.false_ne_true (hs.symm.trans (h.listed x hm))

theorem Seeks.checkReason :
    Seeks p T clause levels start (checkReason p levels reason { c with work := work }).2 := by
  have hp := checkReason_pushes (p := p) levels reason { c with work := work }
  refine ⟨fun x hx => hp.stamps _ (h.listed x hx), fun v hv => ?_, fun v hv => ?_, fun hstart v hv => ?_⟩
  · exact (hp.new v hv).elim (h.filter v) id
  · cases hp.work v hv with
    | inl hv => exact hp.stamps v (h.stamped v (hw ▸ List.mem_cons_of_mem _ hv))
    | inr hv => exact hv.1
  · cases hp.work v hv with
    | inl hv => exact h.needed hstart v (hw ▸ List.mem_cons_of_mem _ hv)
    | inr hv =>
      obtain ⟨-, x, hx, rfl, hz, hs⟩ := hv
      obtain ⟨hxT, hxr⟩ := h.reason_lit g hw hr hx hz hs hstart
      exact ⟨x, rfl, hxT, hxr⟩

/-- A loop that gives up shows that `start` is not redundant. -/
theorem Seeks.not_redundant (h₀ : levels.mightContain 0 = true)
    (hf : (ClauseMinimization.checkReason p levels reason { c with work := work }).1 = false) :
    ¬ Redundant p clause start := by
  intro hstart
  obtain ⟨x, hx, hfail⟩ := checkReason_fails levels reason _ hf
  cases hfail with
  | inl hnot =>
    have hz : p.level x.var ≠ 0 := fun hz => Bool.false_ne_true (hnot.symm.trans (hz ▸ h₀))
    have hs : c.stamps x.var = false := by
      by_contra hs
      exact Bool.false_ne_true (hnot.symm.trans (h.filter _ (Bool.eq_true_of_not_eq_false hs)))
    obtain ⟨hxT, hxr⟩ := h.reason_lit g hw hr hx hz hs hstart
    obtain ⟨y, hy, hlevel⟩ := hxr.exists_level g hxT hz
    exact Bool.false_ne_true (hnot.symm.trans (hlevel ▸ h.filter _ (h.listed y hy)))
  | inr hnone =>
    obtain ⟨hz, hs, hnone⟩ := hnone
    obtain ⟨-, hxr⟩ := h.reason_lit g hw hr hx hz hs hstart
    obtain ⟨C, hC, -⟩ := hxr.reason hz
    cases hnone.symm.trans hC

end

section
variable (g : p.ImplicationGraph T)
include g

theorem Seeks.checkWork {levels : OverApproximatingSet} {start : CNFLit} : ∀ (fuel : Nat) (c : Check) (b : Bool)
    (c' : Check), Seeks p T clause (levels.insert 0) start c → checkWork p levels fuel c = some (b, c') →
    Seeks p T clause (levels.insert 0) start c' ∧ (b = false → ¬ Redundant p clause start) := by
  intro fuel
  induction fuel with
  | zero => exact fun _ _ _ _ h => nomatch h
  | succ fuel ih =>
    intro c b c' hs h
    unfold ClauseMinimization.checkWork at h
    split at h
    · cases h
      exact ⟨hs, fun hb => nomatch hb⟩
    rename_i workItem work hw
    split at h
    · cases h
    rename_i reason hr
    have hs₁ := hs.checkReason g hw hr
    split at h
    · rename_i c₁ he
      rw [he] at hs₁
      exact ih c₁ b c' hs₁ h
    · rename_i c₁ he
      rw [he] at hs₁
      cases h
      exact ⟨hs₁, fun _ => hs.not_redundant g hw hr (mightContain_insert_self _ _) (by rw [he])⟩

/-! ## Successful searches -/

/-- Stamps below the current level are of literals that are listed or redundant; all are in the filter. -/
structure Sound (p : Provider) (T clause : List CNFLit) (levels : OverApproximatingSet) (stamps : Stamps) : Prop where
  listed : ∀ x ∈ clause, stamps x.var = true
  filter : ∀ v, stamps v = true → levels.mightContain (p.level v) = true
  redundant : ∀ l ∈ T, p.level l.var < p.currentLevel → stamps l.var = true →
    -l ∈ clause ∨ Redundant p clause (-l)

/-- Over sound stamps, what is closed is redundant. -/
theorem Sound.redundant_of_closed {levels : OverApproximatingSet} {base stamps : Stamps}
    (h : Sound p T clause levels base) (hs : ∀ v, stamps v = true → base v = true ∨ Closed p stamps v) :
    ∀ l ∈ T, p.level l.var < p.currentLevel →
      (stamps l.var = true → -l ∈ clause ∨ Redundant p clause (-l)) ∧
        (Closed p stamps l.var → Redundant p clause (-l)) := by
  suffices hpre : ∀ pre, pre <+: T → ∀ l ∈ pre, p.level l.var < p.currentLevel →
      (stamps l.var = true → -l ∈ clause ∨ Redundant p clause (-l)) ∧
        (Closed p stamps l.var → Redundant p clause (-l)) from hpre T (List.prefix_refl T)
  intro pre
  -- along the trail: the other literals of a reason are earlier
  induction pre using List.reverseRecOn with
  | nil => exact fun _ l hl => nomatch hl
  | append_singleton pre m ih =>
    intro hp l hl hlevel
    have ih := ih ((List.prefix_append _ _).trans hp)
    cases List.mem_append.mp hl with
    | inl hl => exact ih l hl hlevel
    | inr hl =>
      obtain rfl := List.mem_singleton.mp hl
      have hlT : l ∈ T := hp.subset (List.mem_append_right _ (List.mem_singleton_self l))
      have hclosed : Closed p stamps l.var → Redundant p clause (-l) := by
        intro hc
        obtain ⟨C, hC, hall⟩ := hc
        refine .implied (C := C) hC fun x hx hv hm => ?_
        have hne : x ≠ l := fun he => hv (he ▸ rfl)
        have hxpre := (g.reason pre l hp C hC).2 x hx hne
        have hxlevel : p.level (-x).var < p.currentLevel := (g.reason_level l hlT C hC x hx).trans_lt hlevel
        cases hall x hx with
        | inl hz => exact .fact hz
        | inr hst =>
          have hor := (ih (-x) hxpre hxlevel).1 hst
          rw [neg_neg] at hor
          exact hor.resolve_left hm
      refine ⟨fun hst => ?_, hclosed⟩
      cases hs _ hst with
      | inl hb => exact h.redundant l hlT hlevel hb
      | inr hc => exact .inr (hclosed hc)

theorem isRedundant_iff {fuel : Nat} (hf : T.length + 1 < fuel) {levels : OverApproximatingSet} {stamps : Stamps}
    (h : Sound p T clause (levels.insert 0) stamps) {literal : CNFLit} (hl : literal ∈ clause) (hT : -literal ∈ T)
    (hlevel : p.level literal.var ≠ p.currentLevel) (hr : p.reason literal.var ≠ none) :
    ∃ b stamps', isRedundant p fuel levels stamps literal = some (b, stamps') ∧
      Sound p T clause (levels.insert 0) stamps' ∧ (b = true ↔ Redundant p clause literal) := by
  have hv : Searchable p T literal.var := ⟨List.mem_map.mpr ⟨-literal, hT, rfl⟩, hr⟩
  obtain ⟨b, stamps', he, hfalse, htrue⟩ := isRedundant_spec g.toReasons levels stamps hf hv
  refine ⟨b, stamps', he, ?_⟩
  have hs : Seeks p T clause (levels.insert 0) literal ⟨stamps, [literal.var], []⟩ := by
    refine ⟨h.listed, h.filter, ?_, fun hred => ?_⟩
    · exact List.forall_mem_singleton.mpr (h.listed literal hl)
    · exact List.forall_mem_singleton.mpr ⟨literal, rfl, hT, hred⟩
  unfold isRedundant at he
  rw [if_neg hlevel] at he
  split at he
  · cases he
  · rename_i c hc
    cases he
    obtain ⟨hseeks, -⟩ := hs.checkWork g fuel _ _ _ hc
    obtain ⟨-, -, hclosed, hstart⟩ := htrue rfl
    have hall := h.redundant_of_closed g hclosed
    have hlt : p.level (-literal).var < p.currentLevel := Nat.lt_of_le_of_ne (g.level_le _ hT) hlevel
    have hred := (hall (-literal) hT hlt).2 hstart
    rw [neg_neg] at hred
    exact ⟨⟨hseeks.listed, hseeks.filter, fun l hl hlev => (hall l hl hlev).1⟩, iff_of_true rfl hred⟩
  · rename_i c hc
    cases he
    rw [hfalse rfl]
    exact ⟨h, iff_of_false Bool.false_ne_true ((hs.checkWork g fuel _ _ _ hc).2 rfl)⟩

theorem eraseLoop_iff {fuel : Nat} (hf : T.length + 1 < fuel) (hpos : p.currentLevel ≠ 0)
    {levels : OverApproximatingSet} (hfalse : ∀ l ∈ clause, p.level l.var ≠ p.currentLevel → -l ∈ T) :
    ∀ (rest : List CNFLit) (stamps : Stamps), rest ⊆ clause → Sound p T clause (levels.insert 0) stamps →
      ∃ out, eraseLoop p fuel levels rest stamps = some out ∧ out.Sublist rest ∧
        (rest.Nodup → ∀ l, l ∈ out ↔ l ∈ rest ∧ ¬ Removable p clause l) := by
  intro rest
  induction rest with
  | nil => exact fun stamps _ _ => ⟨[], rfl, List.Sublist.refl _, fun _ l => by simp⟩
  | cons literal rest ih =>
    intro stamps hsub hs
    have hl : literal ∈ clause := hsub List.mem_cons_self
    have hrest : rest ⊆ clause := List.Subset.trans (List.subset_cons_self _ _) hsub
    have hkeep : ∀ st, Sound p T clause (levels.insert 0) st → ¬ Removable p clause literal →
        ∃ out, (eraseLoop p fuel levels rest st).map (literal :: ·) = some out ∧ out.Sublist (literal :: rest) ∧
          ((literal :: rest).Nodup → ∀ l, l ∈ out ↔ l ∈ literal :: rest ∧ ¬ Removable p clause l) := by
      intro st hst hn
      obtain ⟨out, he, hout, hmem⟩ := ih st hrest hst
      refine ⟨literal :: out, by rw [he]; rfl, hout.cons_cons literal, fun hd l => ?_⟩
      rw [List.mem_cons, List.mem_cons, hmem (List.nodup_cons.mp hd).2 l, or_and_right]
      exact or_congr_left ⟨fun he => ⟨he, he ▸ hn⟩, And.left⟩
    have hdrop : ∀ st, Sound p T clause (levels.insert 0) st → Removable p clause literal →
        ∃ out, eraseLoop p fuel levels rest st = some out ∧ out.Sublist (literal :: rest) ∧
          ((literal :: rest).Nodup → ∀ l, l ∈ out ↔ l ∈ literal :: rest ∧ ¬ Removable p clause l) := by
      intro st hst hr
      obtain ⟨out, he, hout, hmem⟩ := ih st hrest hst
      refine ⟨out, he, hout.cons literal, fun hd l => ?_⟩
      rw [List.mem_cons, hmem (List.nodup_cons.mp hd).2 l, or_and_right]
      exact (or_iff_right fun h => h.2 (h.1 ▸ hr)).symm
    unfold eraseLoop
    cases hr : p.reason literal.var with
    | none =>
      dsimp only
      split
      · rename_i hz
        exact hdrop stamps hs ⟨fun he => hpos (he.symm.trans hz), .fact hz⟩
      · rename_i hz
        refine hkeep stamps hs fun h => ?_
        obtain ⟨C, hC, -⟩ := h.2.reason hz
        cases hr.symm.trans hC
    | some reason =>
      by_cases hlevel : p.level literal.var = p.currentLevel
      · have he : isRedundant p fuel levels stamps literal = some (false, stamps) := by
          unfold isRedundant
          rw [if_pos hlevel]
        simp only [he]
        exact hkeep stamps hs fun h => h.1 hlevel
      · obtain ⟨b, st, he, hst, hb⟩ := isRedundant_iff g hf hs hl (hfalse literal hl hlevel) hlevel
          (by rw [hr]; exact Option.some_ne_none _)
        simp only [he]
        cases b with
        | true => exact hdrop st hst ⟨hlevel, hb.mp rfl⟩
        | false => exact hkeep st hst fun h => Bool.false_ne_true (hb.mpr h.2)

end

/-- Minimization removes the redundant literals, whatever the order of the list. -/
theorem eraseRedundantLiterals_exact {p : Provider} {T clause : List CNFLit} (g : p.ImplicationGraph T)
    (hpos : p.currentLevel ≠ 0) (hn : clause.Nodup)
    (hfalse : ∀ l ∈ clause, p.level l.var ≠ p.currentLevel → -l ∈ T) {fuel : Nat} (hf : T.length + 1 < fuel)
    {literals : List CNFLit} (hperm : literals.Perm clause) :
    ∃ out, eraseRedundantLiterals p fuel literals = some out ∧ out.Sublist literals ∧
      ∀ l, l ∈ out ↔ l ∈ literals ∧ ¬ Removable p clause l := by
  set levels :=
    literals.foldl (fun levels l => levels.insert (p.level l.var)) OverApproximatingSet.empty with hlevels
  set stamps := literals.foldl (fun stamps l => stamps.set l.var true) Stamps.empty with hstamps
  have hst : ∀ v, stamps v = true ↔ v ∈ clause.map CNFLit.var := by
    intro v
    rw [hstamps, foldl_set_apply CNFLit.var, ← (hperm.map CNFLit.var).mem_iff]
    split <;> simp_all [Stamps.empty]
  have hsound : Sound p T clause (levels.insert 0) stamps := by
    refine ⟨fun x hx => (hst _).mpr (List.mem_map_of_mem hx), fun v hv => ?_, fun l hl hlevel hv => ?_⟩
    · obtain ⟨x, hx, rfl⟩ := List.mem_map.mp ((hst v).mp hv)
      apply mightContain_insert
      exact (mightContain_foldl (fun l => p.level l.var) literals .empty).2 x (hperm.mem_iff.mpr hx)
    · obtain ⟨x, hx, he⟩ := List.mem_map.mp ((hst _).mp hv)
      have hxT := hfalse x hx (by rw [he]; exact Nat.ne_of_lt hlevel)
      have := g.eq_of_var_eq hxT hl he
      exact .inl (by rw [← this, neg_neg]; exact hx)
  obtain ⟨out, he, hsub, hmem⟩ := eraseLoop_iff g hf hpos hfalse literals stamps (fun l => hperm.mem_iff.mp) hsound
  exact ⟨out, he, hsub, hmem (hperm.nodup_iff.mpr hn)⟩

def forcedPair : Provider where
  currentLevel := 2
  level v := if v = 2 then 2 else 1
  levelAssignments := [⟨2, .positive⟩]
  reason v := if v = 1 then some [⟨1, .positive⟩, ⟨0, .negative⟩] else none

theorem forcedPair_reason {v : CNFVar} {C : List CNFLit} (hC : forcedPair.reason v = some C) :
    v = 1 ∧ C = [⟨1, .positive⟩, ⟨0, .negative⟩] := by
  by_cases hv : v = 1
  · subst hv
    cases hC
    exact ⟨rfl, rfl⟩
  · simp [forcedPair, hv] at hC

theorem forcedPair_graph : forcedPair.ImplicationGraph [⟨0, .positive⟩, ⟨1, .positive⟩, ⟨2, .positive⟩] where
  nodup_vars := by decide
  reason pre l hp C hC := by
    obtain ⟨hv, rfl⟩ := forcedPair_reason hC
    have hpre : pre = [⟨0, .positive⟩] ∧ l = ⟨1, .positive⟩ := by
      match pre, hp with
      | [], hp => simp_all
      | [_], hp => simp_all
      | [_, _], hp => simp_all
      | _ :: _ :: _ :: _, hp => simp_all
    obtain ⟨rfl, rfl⟩ := hpre
    decide
  level_le := by decide
  reason_level l _ C hC := by
    obtain ⟨hv, rfl⟩ := forcedPair_reason hC
    rw [hv]
    decide
  second l hl C hC _ := by
    obtain ⟨hv, rfl⟩ := forcedPair_reason hC
    refine ⟨⟨0, .negative⟩, by decide, fun he => ?_, by rw [hv]; decide⟩
    rw [← he] at hv
    cases hv

theorem forcedPair_exact :
    ∃ out, eraseRedundantLiterals forcedPair 5 [⟨2, .negative⟩, ⟨1, .negative⟩, ⟨0, .negative⟩] = some out ∧
      out.Sublist [⟨2, .negative⟩, ⟨1, .negative⟩, ⟨0, .negative⟩] ∧
      ∀ l, l ∈ out ↔ l ∈ [⟨2, .negative⟩, ⟨1, .negative⟩, ⟨0, .negative⟩] ∧
        ¬ Removable forcedPair [⟨0, .negative⟩, ⟨1, .negative⟩, ⟨2, .negative⟩] l :=
  eraseRedundantLiterals_exact forcedPair_graph (by decide) (by decide) (by decide) (by decide) (by decide)

end ClauseMinimization

end JamSAT
