import JamSAT.IterableClauseDBSound

/-!
# Compression of the clause database

The active regions before `swapInIndex` are full of copies, those from there to the current one
are empty, and the others are as they were. What has been copied so far ends in the spare region.
-/

namespace JamSAT

namespace IterableClauseDB

open Region CompressState

theorem forall₂_split {α β : Type} {R : α → β → Prop} {ys zs : List β} {z : β} : ∀ {xs : List α},
    List.Forall₂ R xs (ys ++ z :: zs) → ∃ as x bs, xs = as ++ x :: bs ∧ List.Forall₂ R as ys ∧ R x z ∧
      List.Forall₂ R bs zs := by
  induction ys with
  | nil =>
    intro xs h
    obtain ⟨x, bs, hx, hbs, rfl⟩ := List.forall₂_cons_right_iff.mp h
    exact ⟨[], x, bs, rfl, .nil, hx, hbs⟩
  | cons y ys ih =>
    intro xs h
    obtain ⟨a, xs, ha, hxs, rfl⟩ := List.forall₂_cons_right_iff.mp h
    obtain ⟨as, x, bs, rfl, has, hx, hbs⟩ := ih hxs
    exact ⟨a :: as, x, bs, rfl, .cons ha has, hx, hbs⟩

theorem forall₂_concat {α β : Type} {R : α → β → Prop} {xs : List α} {x : α} {ys : List β}
    (h : List.Forall₂ R (xs ++ [x]) ys) : ∃ ys' y, ys = ys' ++ [y] ∧ List.Forall₂ R xs ys' ∧ R x y := by
  rw [← List.forall₂_reverse_iff, List.reverse_append] at h
  obtain ⟨y, ys', hy, hys, he⟩ := List.forall₂_cons_left_iff.mp h
  refine ⟨ys'.reverse, y, ?_, ?_, hy⟩
  · rw [← List.reverse_reverse ys, he, List.reverse_cons]
  · rw [← List.forall₂_reverse_iff, List.reverse_reverse]
    exact hys

theorem forall₂_concat_concat {α β : Type} {R : α → β → Prop} {xs : List α} {x : α} {ys : List β} {y : β}
    (h : List.Forall₂ R (xs ++ [x]) (ys ++ [y])) : List.Forall₂ R xs ys ∧ R x y := by
  obtain ⟨ys', y', he, hys, hy⟩ := forall₂_concat h
  obtain ⟨rfl, hyy⟩ := List.append_inj' he rfl
  cases hyy
  exact ⟨hys, hy⟩

def kept (cs : List (Nat × Clause)) : List Clause :=
  ((cs.map Prod.snd).filter fun c => !c.getFlag .SCHEDULED_FOR_DELETION).map Clause.compressed

/-- `todo` are the regions that have not been cleared. -/
structure Copying (size : Nat) (todo : List Region) (outs : List (List (Nat × Clause))) (empties : Nat)
    (cur : List (Nat × Clause)) (st : CompressState) : Prop where
  front : ∃ front, st.m_activeRegions = front ++ todo ∧
    List.Forall₂ Region.Holds front (outs ++ List.replicate empties []) ∧ ∀ r ∈ front, r.m_size = size
  swapIn : st.swapInIndex = outs.length
  spare : st.currentSpare.Holds cur
  spare_size : st.currentSpare.m_size = size

variable {size empties : Nat} {todo : List Region} {outs : List (List (Nat × Clause))} {cur : List (Nat × Clause)}
  {st : CompressState} {region : Region} {p : Nat} {c : Clause}

section
variable (h : Copying size todo outs empties cur st)
include h

theorem Copying.getElem? {todo' : List Region} (ht : todo = region :: todo') :
    st.m_activeRegions[outs.length + empties]? = some region := by
  obtain ⟨front, hf, hh, -⟩ := h.front
  have hlen := hh.length_eq
  rw [List.length_append, List.length_replicate] at hlen
  rw [hf, ht, ← hlen, List.getElem?_append_right (Nat.le_refl _), Nat.sub_self]
  rfl

theorem Copying.drop : st.m_activeRegions.drop (outs.length + empties) = todo := by
  obtain ⟨front, hf, hh, -⟩ := h.front
  have hlen := hh.length_eq
  rw [List.length_append, List.length_replicate] at hlen
  rw [hf, ← hlen, List.drop_left]

theorem Copying.copyTo (hv : c.Valid) (hfit : Clause.getAllocationSize c.m_size ≤ st.currentSpare.m_free) :
    ∃ spare st' cur', st.currentSpare.allocate c.m_size default = some (st.currentSpare.m_nextFreeCell, spare) ∧
      st.copyTo c st.currentSpare.m_nextFreeCell spare = some st' ∧ Copying size todo outs empties cur' st' ∧
      clauses (outs ++ [cur']) = clauses (outs ++ [cur]) ++ [c.compressed] ∧
      st'.currentSpare.m_nextFreeCell = st.currentSpare.m_nextFreeCell + Clause.getAllocationSize c.m_size := by
  obtain ⟨spare, ha, hs, hsize, hnext⟩ := (h.spare.allocate hv.pos default).2 hfit
  obtain ⟨hm, -⟩ := Region.Holds.getNextClause hs
  obtain ⟨hv', hi⟩ := Clause.assign_constructIn hv default
  have hput := Region.Holds.put hs hv' hi
  refine ⟨spare, ⟨spare.put _ ((Clause.constructIn c.m_size default).assign c), st.m_activeRegions, st.swapInIndex⟩,
    cur ++ [(_, (Clause.constructIn c.m_size default).assign c)], ha, ?_,
    ⟨h.front, h.swapIn, hput, hsize.trans h.spare_size⟩, ?_, hnext⟩
  · unfold CompressState.copyTo
    rw [hm]
    rfl
  · unfold clauses
    simp only [List.flatten_append, List.map_append, List.flatten_cons, List.flatten_nil, List.append_nil,
      List.map_cons, List.map_nil, List.append_assoc]
    rfl

end

/-- The regions that have been emptied are swapped in one after the other. -/
theorem Copying.swap (h : Copying size todo outs (empties + 1) cur st) : ∃ swappedIn,
    st.m_activeRegions[st.swapInIndex]? = some swappedIn ∧ swappedIn.Holds [] ∧ swappedIn.m_size = size ∧
    Copying size todo (outs ++ [cur]) empties []
      ⟨swappedIn, st.m_activeRegions.set st.swapInIndex st.currentSpare, st.swapInIndex + 1⟩ := by
  obtain ⟨front, hf, hh, hsize⟩ := h.front
  rw [List.replicate_succ] at hh
  obtain ⟨as, r, bs, rfl, has, hr, hbs⟩ := forall₂_split hh
  have hlen : st.swapInIndex = as.length := h.swapIn.trans has.length_eq.symm
  have hget : st.m_activeRegions[st.swapInIndex]? = some r := by
    rw [hf, hlen, List.append_assoc, List.getElem?_append_right (Nat.le_refl _), Nat.sub_self]
    rfl
  refine ⟨r, hget, hr, hsize r (List.mem_append_right _ List.mem_cons_self),
    ⟨as ++ st.currentSpare :: bs, ?_, ?_, ?_⟩,
    ?_, hr, hsize r (List.mem_append_right _ List.mem_cons_self)⟩
  · show st.m_activeRegions.set st.swapInIndex st.currentSpare = _
    rw [hf, hlen, List.append_assoc, List.set_append_right _ _ (Nat.le_refl _), Nat.sub_self, List.append_assoc]
    rfl
  · rw [List.append_assoc]
    exact List.rel_append has (.cons h.spare hbs)
  · intro x hx
    cases List.mem_append.mp hx with
    | inl hx => exact hsize x (List.mem_append_left _ hx)
    | inr hx =>
      cases List.mem_cons.mp hx with
      | inl hx => exact hx ▸ h.spare_size
      | inr hx => exact hsize x (List.mem_append_right _ (List.mem_cons_of_mem _ hx))
  · show st.swapInIndex + 1 = _
    rw [h.swapIn, List.length_append]
    rfl

theorem clauses_snoc (css : List (List (Nat × Clause))) (cs : List (Nat × Clause)) :
    clauses (css ++ [cs]) = clauses css ++ cs.map Prod.snd := by
  unfold clauses
  rw [List.flatten_append, List.map_append, List.flatten_singleton]

/-! ## The loops -/

theorem kept_cons (x : Nat × Clause) (cs : List (Nat × Clause)) : kept (x :: cs) = kept [x] ++ kept cs := by
  unfold kept
  rw [List.map_cons, ← List.singleton_append, List.filter_append, List.map_append]
  rfl

theorem kept_singleton :
    kept [(p, c)] = if c.getFlag .SCHEDULED_FOR_DELETION = true then [] else [c.compressed] := by
  unfold kept
  rw [List.map_cons, List.map_nil, List.filter_cons, List.filter_nil]
  cases c.getFlag .SCHEDULED_FOR_DELETION with
  | true => rfl
  | false => rfl

/-- `hroom`: the copies do not reach further than what has been read, or an empty region is left. -/
theorem Copying.copyClause {pre post : List (Nat × Clause)} (h : Copying size todo outs empties cur st)
    (hr : region.Holds (pre ++ (p, c) :: post)) (hs : region.m_size = size)
    (hroom : 0 < empties ∨ st.currentSpare.m_nextFreeCell ≤ p) :
    ∃ st' outs' empties' cur', st.copyClause (outs.length + empties) c = some st' ∧
      Copying size todo outs' empties' cur' st' ∧ outs'.length + empties' = outs.length + empties ∧
      clauses (outs' ++ [cur']) = clauses (outs ++ [cur]) ++ kept [(p, c)] ∧
      (0 < empties' ∨ st'.currentSpare.m_nextFreeCell ≤ p + Clause.getAllocationSize c.initialSize) := by
  obtain ⟨-, hv, -⟩ := hr.getNextClause
  have hle := getAllocationSize_mono hv.pos hv.le
  have hend : p + Clause.getAllocationSize c.initialSize ≤ size := by
    obtain ⟨q, -, hq⟩ := hr.layout.split
    cases hq with
    | cons _ _ hq =>
      have := hq.le
      have := hr.free
      omega
  have hfree := h.spare.free
  rw [h.spare_size] at hfree
  unfold CompressState.copyClause
  by_cases hd : c.getFlag .SCHEDULED_FOR_DELETION = true
  · refine ⟨st, outs, empties, cur, if_pos hd, h, rfl, ?_,
      hroom.imp_right fun hr => hr.trans (Nat.le_add_right _ _)⟩
    rw [kept_singleton, if_pos hd, List.append_nil]
  · rw [if_neg hd, kept_singleton, if_neg hd]
    by_cases hfit : Clause.getAllocationSize c.m_size ≤ st.currentSpare.m_free
    · obtain ⟨spare, st', cur', ha, hc, h', hval, hnext⟩ := h.copyTo hv hfit
      refine ⟨st', outs, empties, cur', ?_, h', rfl, hval, hroom.imp_right fun hr => ?_⟩
      · rw [ha]
        exact hc
      · rw [hnext]
        exact Nat.add_le_add hr hle
    · -- the spare region is full
      rw [(h.spare.allocate hv.pos default).1 (Nat.lt_of_not_le hfit)]
      cases empties with
      | zero => omega
      | succ empties =>
        obtain ⟨swappedIn, hget, hempty, hsize, h'⟩ := h.swap
        have hnext : swappedIn.m_nextFreeCell = 0 := hempty.used.symm.trans (hempty.used_eq_zero.mpr rfl)
        have hfree' := hempty.free
        obtain ⟨spare, st', cur', ha, hc, h'', hval, hnext'⟩ := h'.copyTo hv (by dsimp only; omega)
        refine ⟨st', outs ++ [cur], empties, cur', ?_, h'', ?_, ?_, .inr ?_⟩
        · dsimp only
          rw [if_neg (by rw [h.swapIn]; omega), hget]
          dsimp only [Option.bind_eq_bind, Option.bind_some]
          rw [if_neg (not_not_intro (hempty.used_eq_zero.mpr rfl)), ha]
          exact hc
        · rw [List.length_append, List.length_singleton]
          omega
        · rw [hval, clauses_snoc, List.map_nil, List.append_nil]
        · rw [hnext']
          dsimp only
          omega

theorem Copying.copyRegion {todo' : List Region} (ht : todo = region :: todo') (hs : region.m_size = size) :
    ∀ {post : List (Nat × Clause)} (pre : List (Nat × Clause)) {steps q : Nat}
      {outs : List (List (Nat × Clause))} {empties : Nat}
      {cur : List (Nat × Clause)} {st : CompressState}, Copying size todo outs empties cur st →
    region.Holds (pre ++ post) → Layout region.memory q post region.m_nextFreeCell → post.length ≤ steps →
    (0 < empties ∨ st.currentSpare.m_nextFreeCell ≤ q) →
    ∃ st' outs' empties' cur',
      copyRegion (outs.length + empties) steps (post.head?.map Prod.fst) st = some st' ∧
      Copying size todo outs' empties' cur' st' ∧ outs'.length + empties' = outs.length + empties ∧
      clauses (outs' ++ [cur']) = clauses (outs ++ [cur]) ++ kept post := by
  intro post
  induction post with
  | nil =>
    intro pre steps q outs empties cur st h _ _ _ _
    refine ⟨st, outs, empties, cur, ?_, h, rfl, (List.append_nil _).symm⟩
    cases steps with
    | zero => rfl
    | succ steps => rfl
  | cons x post ih =>
    intro pre steps q outs empties cur st h hr hq hlen hroom
    cases steps with
    | zero => exact absurd hlen (Nat.not_succ_le_zero _)
    | succ steps =>
      cases hq with
      | @cons _ _ c _ hm hv hq =>
        obtain ⟨-, -, hnext⟩ := hr.getNextClause
        obtain ⟨st₁, outs₁, empties₁, cur₁, hc₁, h₁, hidx₁, hval₁, hroom₁⟩ := h.copyClause hr hs hroom
        obtain ⟨st₂, outs₂, empties₂, cur₂, hc₂, h₂, hidx₂, hval₂⟩ :=
          ih (pre ++ [(q, c)]) h₁ (by rw [List.append_assoc]; exact hr) hq (Nat.le_of_succ_le_succ hlen) hroom₁
        refine ⟨st₂, outs₂, empties₂, cur₂, ?_, h₂, hidx₂.trans hidx₁, ?_⟩
        · unfold CompressState.copyRegion
          dsimp only [List.head?_cons, Option.map_some]
          rw [h.getElem? ht]
          dsimp only [Option.bind_eq_bind, Option.bind_some]
          rw [hm]
          dsimp only [Option.bind_some]
          rw [hc₁]
          dsimp only [Option.bind_some]
          rw [← hidx₁, h₁.getElem? ht]
          dsimp only [Option.bind_some]
          rw [hnext]
          exact hc₂
        · rw [hval₂, hval₁, kept_cons (q, c) post, List.append_assoc]

theorem Copying.invariantA {cs : List (Nat × Clause)} (h : Copying size todo outs empties cur st)
    (hr : region.Holds cs)
    (hs : region.m_size = size) (hroom : 0 < empties ∨ st.currentSpare.m_nextFreeCell = 0) :
    st.InvariantA (outs.length + empties) region := by
  unfold InvariantA getFreeSize
  rw [h.swapIn, hr.used]
  have hfree := h.spare.free
  have hfree' := hr.free
  rw [h.spare_size] at hfree
  omega

theorem Copying.compressRegion {todo' : List Region} {cs : List (Nat × Clause)}
    (h : Copying size (region :: todo') outs empties cur st) (hr : region.Holds cs) (hs : region.m_size = size)
    (hroom : 0 < empties ∨ st.currentSpare.m_nextFreeCell = 0) :
    ∃ st' outs' empties' cur', st.compressRegion (outs.length + empties) = some st' ∧
      Copying size todo' outs' (empties' + 1) cur' st' ∧ outs'.length + empties' = outs.length + empties ∧
      clauses (outs' ++ [cur']) = clauses (outs ++ [cur]) ++ kept cs := by
  have hlen := hr.length_le
  unfold sizeofClause at hlen
  obtain ⟨st', outs', empties', cur', hc, h', hidx, hval⟩ :=
    Copying.copyRegion rfl hs [] h hr hr.layout (show cs.length ≤ region.m_size by omega)
      (hroom.imp_right fun h₀ => h₀.le)
  obtain ⟨cleared, hclear, hempty, hsize⟩ := hr.clear
  refine ⟨{ st' with m_activeRegions := st'.m_activeRegions.set (outs.length + empties) cleared }, outs',
    empties', cur',
    ?_, ?_, hidx, hval⟩
  · unfold CompressState.compressRegion
    rw [h.getElem? rfl]
    dsimp only [Option.bind_eq_bind, Option.bind_some]
    rw [if_pos (h.invariantA hr hs hroom), hr.getFirstClause]
    dsimp only [Option.bind_some]
    rw [hc]
    dsimp only [Option.bind_some]
    rw [← hidx, h'.getElem? rfl]
    dsimp only [Option.bind_some]
    rw [hclear]
    rfl
  · obtain ⟨front, hf, hh, hfs⟩ := h'.front
    have hflen := hh.length_eq
    rw [List.length_append, List.length_replicate, hidx] at hflen
    refine ⟨⟨front ++ [cleared], ?_, ?_, ?_⟩, h'.swapIn, h'.spare, h'.spare_size⟩
    · show st'.m_activeRegions.set (outs.length + empties) cleared = _
      rw [hf, ← hflen, List.set_append_right _ _ (Nat.le_refl _), Nat.sub_self, List.append_assoc]
      rfl
    · rw [List.replicate_succ', ← List.append_assoc]
      exact List.rel_append hh (.cons hempty .nil)
    · intro x hx
      cases List.mem_append.mp hx with
      | inl hx => exact hfs x hx
      | inr hx => exact List.mem_singleton.mp hx ▸ hsize.trans hs

theorem kept_append (cs cs' : List (Nat × Clause)) : kept (cs ++ cs') = kept cs ++ kept cs' := by
  unfold kept
  rw [List.map_append, List.filter_append, List.map_append]

theorem compressRegions_spec {regions : List Region} {css : List (List (Nat × Clause))}
    (hr : List.Forall₂ Region.Holds regions css) (hsize : ∀ r ∈ regions, r.m_size = size)
    (hspare : st.currentSpare.Holds []) (hss : st.currentSpare.m_size = size) (hst : st.m_activeRegions = regions)
    (h₀ : st.swapInIndex = 0) : ∀ {idx : Nat}, idx ≤ regions.length →
    ∃ st' outs empties cur, compressRegions st idx = some st' ∧
      Copying size (regions.drop idx) outs empties cur st' ∧
      outs.length + empties = idx ∧ clauses (outs ++ [cur]) = kept (css.take idx).flatten ∧
      (0 < empties ∨ idx = 0 ∧ st'.currentSpare.m_nextFreeCell = 0) := by
  intro idx
  induction idx with
  | zero =>
    intro _
    refine ⟨st, [], 0, [], rfl, ⟨⟨[], hst, .nil, nofun⟩, h₀, hspare, hss⟩, rfl, rfl, .inr ⟨rfl, ?_⟩⟩
    exact hspare.used.symm.trans (hspare.used_eq_zero.mpr rfl)
  | succ idx ih =>
    intro hidx
    obtain ⟨st₁, outs₁, empties₁, cur₁, hc₁, h₁, hidx₁, hval₁, hroom₁⟩ := ih (Nat.le_of_succ_le hidx)
    have hlt : idx < css.length := (Nat.lt_of_succ_le hidx).trans_eq hr.length_eq
    have hdrop := List.drop_eq_getElem_cons (Nat.lt_of_succ_le hidx)
    have hmem : regions[idx].m_size = size := hsize _ (List.getElem_mem _)
    have hholds : regions[idx].Holds css[idx] := List.Forall₂.get hr (Nat.lt_of_succ_le hidx) hlt
    rw [hdrop] at h₁
    obtain ⟨st₂, outs₂, empties₂, cur₂, hc₂, h₂, hidx₂, hval₂⟩ :=
      h₁.compressRegion hholds hmem (hroom₁.imp_right And.right)
    refine ⟨st₂, outs₂, empties₂ + 1, cur₂, ?_, h₂, by omega, ?_, .inl (Nat.succ_pos _)⟩
    · unfold compressRegions
      rw [hc₁, ← hidx₁]
      exact hc₂
    · rw [hval₂, hval₁, List.take_succ_eq_append_getElem hlt, List.flatten_append, List.flatten_singleton,
        kept_append]

/-! ## The database -/

structure Represents (db : IterableClauseDB) (css : List (List (Nat × Clause))) : Prop where
  active : List.Forall₂ Region.Holds db.m_activeRegions css
  active_size : ∀ r ∈ db.m_activeRegions, r.m_size = db.m_regionSize
  spare : ∀ r ∈ db.m_spareRegions, r.Holds [] ∧ r.m_size = db.m_regionSize
  spares : db.m_activeRegions ≠ [] → db.m_spareRegions ≠ []

theorem retireRegions_spec : ∀ {regions : List Region} (spares : List Region) {css : List (List (Nat × Clause))},
    List.Forall₂ Region.Holds regions css → (∀ r ∈ regions, r.m_size = size) →
    (∀ r ∈ spares, r.Holds [] ∧ r.m_size = size) →
    ∃ css', List.Forall₂ Region.Holds (retireRegions regions spares).1 css' ∧
      css'.reverse.flatten = css.reverse.flatten ∧
      (∀ r ∈ (retireRegions regions spares).1, r.m_size = size) ∧
      (∀ r ∈ (retireRegions regions spares).2, r.Holds [] ∧ r.m_size = size) ∧
      (spares ≠ [] → (retireRegions regions spares).2 ≠ []) := by
  intro regions
  induction regions with
  | nil => exact fun _ _ h hs hsp => ⟨_, h, rfl, hs, hsp, id⟩
  | cons region regions ih =>
    intro spares css h hs hsp
    cases regions with
    | nil => exact ⟨css, h, rfl, hs, hsp, id⟩
    | cons region' regions =>
      unfold retireRegions
      obtain ⟨cs, css, hr, hrs, rfl⟩ := List.forall₂_cons_left_iff.mp h
      by_cases hu : region.getUsedSize = 0
      · obtain rfl := hr.used_eq_zero.mp hu
        obtain ⟨hsr, hsrs⟩ := List.forall_mem_cons.mp hs
        obtain ⟨css', h₁, h₂, h₃, h₄, h₅⟩ := ih (region :: spares) hrs hsrs
          (List.forall_mem_cons.mpr ⟨⟨hr, hsr⟩, hsp⟩)
        rw [if_pos hu]
        refine ⟨css', h₁, ?_, h₃, h₄, fun _ => h₅ (List.cons_ne_nil _ _)⟩
        rw [h₂, List.reverse_cons, List.flatten_append, List.flatten_singleton, List.append_nil]
      · rw [if_neg hu]
        exact ⟨_, h, rfl, hs, hsp, id⟩

variable {db : IterableClauseDB} {css : List (List (Nat × Clause))}

theorem Represents.compressRegions (h : db.Represents css) (hne : db.m_activeRegions ≠ []) : ∃ start,
    db.compressStart = some start ∧ start.m_activeRegions = db.m_activeRegions ∧
    ∀ {idx : Nat}, idx ≤ db.m_activeRegions.length →
    ∃ st outs empties cur, IterableClauseDB.compressRegions start idx = some st ∧
      Copying db.m_regionSize (db.m_activeRegions.drop idx) outs empties cur st ∧
      outs.length + empties = idx ∧ clauses (outs ++ [cur]) = kept (css.take idx).flatten ∧
      (0 < empties ∨ idx = 0 ∧ st.currentSpare.m_nextFreeCell = 0) := by
  have hsp := h.spares hne
  obtain ⟨hempty, hsize⟩ := h.spare _ (List.getLast_mem hsp)
  refine ⟨⟨db.m_spareRegions.getLast hsp, db.m_activeRegions, 0⟩, ?_, rfl, fun hidx =>
    compressRegions_spec h.active h.active_size hempty hsize rfl rfl hidx⟩
  unfold compressStart
  rw [List.getLast?_eq_some_getLast hsp]
  exact if_pos (hempty.empty_iff.mpr rfl)

theorem Represents.compress (h : db.Represents css) : ∃ db' css', db.compress = some db' ∧ db'.Represents css' ∧
    db'.m_regionSize = db.m_regionSize ∧ clauses css' =
      ((clauses css).filter fun c => !c.getFlag .SCHEDULED_FOR_DELETION).map Clause.compressed := by
  unfold IterableClauseDB.compress
  by_cases hne : db.m_activeRegions = []
  · rw [if_pos hne]
    refine ⟨db, css, rfl, h, rfl, ?_⟩
    have hc := h.active
    rw [hne] at hc
    obtain rfl := List.forall₂_nil_left_iff.mp hc
    rfl
  · rw [if_neg hne]
    obtain ⟨start, hstart, hactive, hloop⟩ := h.compressRegions hne
    obtain ⟨st, outs, empties, cur, hst, hcopy, hidx, hval, hroom⟩ := hloop (Nat.le_refl _)
    rw [h.active.length_eq, List.take_length] at hval
    rw [hstart]
    dsimp only [Option.bind_eq_bind, Option.bind_some]
    rw [hst]
    dsimp only [Option.bind_some]
    cases empties with
    | zero =>
      have hlen := List.length_pos_of_ne_nil hne
      omega
    | succ empties =>
      rw [List.drop_length] at hcopy
      obtain ⟨swappedIn, hget, hempty, hsize, h'⟩ := hcopy.swap
      obtain ⟨cleared, hclear, hcempty, hcsize⟩ := hempty.clear
      obtain ⟨front, hf, hh, hfs⟩ := h'.front
      rw [List.append_nil] at hf
      dsimp only at hf
      have hspares :
          ∀ r ∈ cleared :: db.m_spareRegions.dropLast.reverse, r.Holds [] ∧ r.m_size = db.m_regionSize := by
        refine List.forall_mem_cons.mpr ⟨⟨hcempty, hcsize.trans hsize⟩, fun r hr => ?_⟩
        exact h.spare r (List.dropLast_subset _ (List.mem_reverse.mp hr))
      obtain ⟨css', h₁, h₂, h₃, h₄, h₅⟩ := retireRegions_spec _ (List.forall₂_reverse_iff.mpr hh)
        (fun r hr => hfs r (List.mem_reverse.mp hr)) hspares
      rw [hget]
      dsimp only [Option.bind_some]
      rw [hclear]
      dsimp only [Option.bind_some]
      rw [hf]
      refine ⟨_, css'.reverse, rfl, ⟨?_, ?_, ?_, ?_⟩, rfl, ?_⟩
      · rw [← List.forall₂_reverse_iff, List.reverse_reverse, List.reverse_reverse]
        exact h₁
      · exact fun r hr => h₃ r (List.mem_reverse.mp hr)
      · exact fun r hr => h₄ r (List.mem_reverse.mp hr)
      · intro _ hn
        exact h₅ (List.cons_ne_nil _ _) (List.reverse_eq_nil_iff.mp hn)
      · unfold clauses at hval ⊢
        rw [h₂, List.reverse_reverse, List.flatten_append, List.flatten_replicate_nil, List.append_nil, hval]
        rfl

end IterableClauseDB

end JamSAT
