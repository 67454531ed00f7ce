import JamSAT.PropagationSound

/-!
# Propagation after any calls

What a propagation keeps when nothing is known about those before it: the trail and the
watch lists stay consistent, and so does every property that survives a single forced
literal and a single move of a watch.
-/

namespace JamSAT

open VecEdit

namespace Assignment

structure Consistent (R K Z : Set ClauseRef) (s : Assignment) : Prop where
  trail : s.TrailInv
  watch : WatchInv R K Z ∅ s
  vars : ∀ c ∈ R, ∀ l ∈ (s.mem c).lits, l.var < s.size

/-- `P` survives the two things a propagation does. -/
structure Stable (R : Set ClauseRef) (P : Assignment → Prop) : Prop where
  force : ∀ s l c, s.TrailInv → P s → s.getAssignment l = .INDETERMINATE → MayExplain R s l c →
    l ∈ (s.mem c).lits → P (s.assign l (some c))
  move : ∀ s l k w i, s.TrailInv → P s → (∀ j : Fin 2, s.getAssignment ((s.mem w.clause).lit j) ≠ .TRUE) →
    P (s.moveWatch l k w i)

/-- `s` has grown out of `s₀` by `f` literals. -/
structure Lengthened (R K Z : Set ClauseRef) (P : Assignment → Prop) (s₀ s : Assignment) (f : Nat) : Prop where
  consistent : Consistent R K Z s
  holds : P s
  ext : Extends s₀ s
  count : s.trail.length = s₀.trail.length + f

structure Interrupted (R K Z : Set ClauseRef) (P : Assignment → Prop) (s₀ : Assignment) (c : ClauseRef)
    (s : Assignment) : Prop where
  consistent : Consistent R K Z s
  holds : P s
  ext : Extends s₀ s
  registered : c ∈ R
  isFalse : ∀ x ∈ (s.mem c).lits, s.getAssignment x = .FALSE

section
variable {R K Z : Set ClauseRef} {P : Assignment → Prop} {s₀ s : Assignment} {p l : CNFLit} {c : ClauseRef}
  {f n : Nat} {m : UpMode}

theorem Consistent.assign (h : Consistent R K Z s) (hl : s.getAssignment l = .INDETERMINATE)
    (hv : l.var < s.size) (r : Option ClauseRef) : Consistent R K Z (s.assign l r) where
  trail := h.trail.assign hl hv r
  watch := h.watch.congr rfl rfl rfl
  vars := h.vars

namespace Lengthened
variable (hP : Stable R P) (h : Lengthened R K Z P s₀ s f)
include h

theorem interrupted (hc : c ∈ R) (hf : ∀ x ∈ (s.mem c).lits, s.getAssignment x = .FALSE) :
    Interrupted R K Z P s₀ c s := ⟨h.consistent, h.holds, h.ext, hc, hf⟩

include hP in
theorem force (hl : s.getAssignment l = .INDETERMINATE) (hc : MayExplain R s l c) :
    Lengthened R K Z P s₀ (s.assign l (some c)) (f + 1) := by
  have hm : l ∈ (s.mem c).lits := by
    obtain ⟨i, rfl⟩ := hc.watched
    have hs := h.consistent.watch.two_le c hc.registered
    exact Clause.lit_mem (by omega)
  refine ⟨h.consistent.assign hl (h.consistent.vars c hc.registered l hm) _,
    hP.force s l c h.consistent.trail h.holds hl hc hm, h.ext.trans (.assign h.consistent.trail hl _), ?_⟩
  rw [assign_trail, List.length_append, h.count]
  rfl

include hP in
theorem move {k i : Nat} {w : Watcher} (hk : (s.watchers l)[k]? = some w) (h₂ : 2 ≤ i)
    (hi : i < (s.mem w.clause).size)
    (hn : ∀ j : Fin 2, s.getAssignment ((s.mem w.clause).lit j) ≠ .TRUE) :
    Lengthened R K Z P s₀ (s.moveWatch l k w i) f where
  consistent := by
    refine ⟨(sameTrail_moveWatch s l k w i).trailInv h.consistent.trail,
      h.consistent.watch.moveWatch hk h₂ hi, fun c hc x hx => ?_⟩
    exact h.consistent.vars c hc x ((moveWatch_lits_perm s l k w i c).mem_iff.mp hx)
  holds := hP.move s l k w i h.consistent.trail h.holds hn
  ext := h.ext.trans (.moveWatch _ _ _ _ _)
  count := h.count

theorem neg_false (hp : p ∈ s.trail) : s.getAssignment (-p) = .FALSE := by
  rw [← h.consistent.trail.neg_mem_trail, neg_neg]
  exact hp

theorem binary_others (hp : p ∈ s.trail) {w : Watcher} (hw : w ∈ s.binaryWatchers (-p)) {x : CNFLit}
    (hx : x ∈ (s.mem w.clause).lits) (hne : x ≠ w.otherWatchedLiteral) : s.getAssignment x = .FALSE := by
  have hx := (h.consistent.watch.binary _ w hw).mem_iff.mp hx
  rw [List.mem_cons, List.mem_singleton] at hx
  rw [hx.resolve_right hne]
  exact h.neg_false hp

theorem binary_explains (hp : p ∈ s.trail) {w : Watcher} (hw : w ∈ s.binaryWatchers (-p)) :
    MayExplain R s w.otherWatchedLiteral w.clause where
  registered := h.consistent.watch.registered (p := (true, -p)) hw
  watched := by
    have hperm := h.consistent.watch.binary _ w hw
    obtain ⟨j, hj, he⟩ := Clause.exists_lit_of_mem
      (hperm.mem_iff.mpr (List.mem_cons_of_mem _ List.mem_cons_self))
    rw [h.consistent.watch.binary_size hw] at hj
    exact ⟨⟨j, hj⟩, he⟩
  others _ hx hne := h.binary_others hp hw hx hne

theorem others (hp : p ∈ s.trail) {w : Watcher} (hw : w ∈ s.watchers (-p))
    (hf : ∀ j, 2 ≤ j → j < (s.mem w.clause).size → s.getAssignment ((s.mem w.clause).lit j) = .FALSE) {x : CNFLit}
    (hx : x ∈ (s.mem w.clause).lits) :
    x = (s.mem w.clause).lit (1 - w.index) ∨ s.getAssignment x = .FALSE := by
  rcases Clause.lit_cases w.index hx with rfl | rfl | ⟨j, h2, hj, rfl⟩
  · rw [(h.consistent.watch.settled hw).lit]
    exact .inr (h.neg_false hp)
  · exact .inl rfl
  · exact .inr (hf j h2 hj)

theorem explains (hp : p ∈ s.trail) {w : Watcher} (hw : w ∈ s.watchers (-p))
    (hf : ∀ j, 2 ≤ j → j < (s.mem w.clause).size → s.getAssignment ((s.mem w.clause).lit j) = .FALSE) :
    MayExplain R s ((s.mem w.clause).lit (1 - w.index)) w.clause where
  registered := h.consistent.watch.registered (p := (false, -p)) hw
  watched := ⟨1 - w.index, by rw [val_one_sub]⟩
  others _ hx hne := (h.others hp hw hf hx).resolve_left hne

theorem not_true_of_move (hp : p ∈ s.trail) {w : Watcher} (hw : w ∈ s.watchers (-p))
    (hno : s.getAssignment ((s.mem w.clause).lit (1 - w.index)) ≠ .TRUE) (j : Fin 2) :
    s.getAssignment ((s.mem w.clause).lit j) ≠ .TRUE := by
  rcases eq_or_eq_one_sub w.index j with rfl | rfl
  · rw [(h.consistent.watch.settled hw).lit, h.neg_false hp]
    exact TBool.noConfusion
  · rw [val_one_sub]
    exact hno

omit h in
include hP in
theorem propagateBinaries (h : Lengthened R K Z P s s 0) (hp : p ∈ s.trail) :
    Ends (Lengthened R K Z P s) (Interrupted R K Z P s) (propagateBinaries p (s.binaryWatchers (-p)).length 0 s 0) := by
  have hget : ∀ {n k : Nat} {t : Assignment}, n + 1 + k = (t.binaryWatchers (-p)).length →
      (t.binaryWatchers (-p)).getD k default ∈ t.binaryWatchers (-p) :=
    fun hk => List.mem_of_getElem? (getElem?_eq_some_getD (by omega) _)
  refine (propagateBinaries_rule
    (I := fun n k t f => Lengthened R K Z P s t f ∧ n + k = (t.binaryWatchers (-p)).length)
    (Q := Interrupted R K Z P s) ?_ ?_ ?_ _ 0 s 0 ⟨h, rfl⟩).imp (fun t f ⟨_, ht, _⟩ => ht) fun _ _ h => h
  · rintro n k t f ⟨ht, hk⟩ -
    exact ⟨ht, by omega⟩
  · rintro n k t f ⟨ht, hk⟩ hv
    have hw := hget hk
    refine ht.interrupted (ht.consistent.watch.registered (p := (true, -p)) hw) fun x hx => ?_
    by_cases he : x = ((t.binaryWatchers (-p)).getD k default).otherWatchedLiteral
    · rw [he]
      exact hv
    · exact ht.binary_others (ht.ext.trail.subset hp) hw hx he
  · rintro n k t f ⟨ht, hk⟩ hv
    refine ⟨ht.force hP hv (ht.binary_explains (ht.ext.trail.subset hp) (hget hk)), ?_⟩
    rw [assign_binaryWatchers]
    omega

include hP in
theorem propagateWatchers (hp : p ∈ s₀.trail) :
    Ends (Lengthened R K Z P s₀) (Interrupted R K Z P s₀) (propagateWatchers m p (s.watchers (-p)).length 0 s f) := by
  have hget : ∀ {n k : Nat} {t : Assignment}, n + 1 + k ≤ (t.watchers (-p)).length →
      (t.watchers (-p))[k]? = some ((t.watchers (-p)).getD k default) :=
    fun hk => getElem?_eq_some_getD (by omega) _
  refine (propagateWatchers_rule
    (I := fun n k t f => Lengthened R K Z P s₀ t f ∧ n + k ≤ (t.watchers (-p)).length)
    (Q := Interrupted R K Z P s₀) ?_ ?_ ?_ ?_ _ 0 s f ⟨h, Nat.le_refl _⟩).imp (fun t f ⟨_, ht, _⟩ => ht)
      fun _ _ h => h
  · rintro n k t f ⟨ht, hk⟩ -
    exact ⟨ht, by omega⟩
  · rintro n k t f i ⟨ht, hk⟩ hv
    rcases visit_cases t m ((t.watchers (-p)).getD k default) with
      ⟨h, -⟩ | ⟨j, h, h2, hj, -, hno⟩ | ⟨h, -⟩ | ⟨h, -⟩
    · rw [h] at hv; cases hv
    · obtain rfl : j = i := by rw [h] at hv; exact Visit.move.inj hv
      have hw := List.mem_of_getElem? (hget hk)
      refine ⟨ht.move hP (hget hk) h2 hj (ht.not_true_of_move (ht.ext.trail.subset hp) hw hno), ?_⟩
      have := length_watchers_moveWatch t (-p) k ((t.watchers (-p)).getD k default) j (by omega)
      omega
    · rw [h] at hv; cases hv
    · rw [h] at hv; cases hv
  · rintro n k t f ⟨ht, hk⟩ hv
    have hw := List.mem_of_getElem? (hget hk)
    refine ht.interrupted (ht.consistent.watch.registered (p := (false, -p)) hw) fun x hx => ?_
    rcases visit_cases t m ((t.watchers (-p)).getD k default) with
      ⟨h, -⟩ | ⟨i, h, -⟩ | ⟨-, ho, hf⟩ | ⟨h, -⟩
    · rw [h] at hv; cases hv
    · rw [h] at hv; cases hv
    · cases ht.others (ht.ext.trail.subset hp) hw hf hx with
      | inl he =>
        rw [he]
        exact ho
      | inr hx => exact hx
    · rw [h] at hv; cases hv
  · rintro n k t f l ⟨ht, hk⟩ hv
    have hw := List.mem_of_getElem? (hget hk)
    rcases visit_cases t m ((t.watchers (-p)).getD k default) with
      ⟨h, -⟩ | ⟨i, h, -⟩ | ⟨h, -⟩ | ⟨h, ho, hf⟩
    · rw [h] at hv; cases hv
    · rw [h] at hv; cases hv
    · rw [h] at hv; cases hv
    · obtain rfl : (t.mem ((t.watchers (-p)).getD k default).clause).lit
          (1 - ((t.watchers (-p)).getD k default).index) = l := by rw [h] at hv; exact Visit.force.inj hv
      refine ⟨ht.force hP ho (ht.explains (ht.ext.trail.subset hp) hw hf), ?_⟩
      rw [assign_watchers]
      omega

end Lengthened

theorem Stable.propagate (hP : Stable R P) (hc : Consistent R K Z s) (hs : P s) (hp : p ∈ s.trail) :
    Ends (Lengthened R K Z P s) (Interrupted R K Z P s) (s.propagate m p) :=
  propagate_rule (Lengthened.propagateBinaries hP ⟨hc, hs, .refl s, rfl⟩ hp) fun _ _ ht => ht.propagateWatchers hP hp

theorem Lengthened.propagateQueue (hP : Stable R P) (h : Lengthened R K Z P s₀ s f) {b e : Nat} (hb : b ≤ e)
    (he : e = s.trail.length) :
    EndsFixpoint (fun t => ∃ f, Lengthened R K Z P s₀ t f) (Interrupted R K Z P s₀) (propagateQueue m n b e s) := by
  refine propagateQueue_rule
    (I := fun _ b e t => (∃ f, Lengthened R K Z P s₀ t f) ∧ b ≤ e ∧ e = t.trail.length)
    (fun _ _ _ ht => ht.1) (fun _ _ _ ht => ht.1) ?_ n b e s ⟨⟨f, h⟩, hb, he⟩
  rintro n b e t ⟨⟨f, ht⟩, hb, rfl⟩ hne
  have hp : t.trail.getD b CNFLit.undefinedLiteral ∈ t.trail :=
    List.mem_of_getElem? (getElem?_eq_some_getD (Nat.lt_of_le_of_ne hb hne) _)
  refine (hP.propagate ht.consistent ht.holds hp).imp (fun u g hu => ?_) fun c u hu => ?_
  · refine ⟨⟨f + g, hu.consistent, hu.holds, ht.ext.trans hu.ext, ?_⟩, by omega, hu.count.symm⟩
    rw [hu.count, ht.count]
    omega
  · exact ⟨hu.consistent, hu.holds, ht.ext.trans hu.ext, hu.registered, hu.isFalse⟩

/-- Whatever has been propagated before, a propagation keeps what its steps keep. -/
theorem Stable.propagateUntilFixpoint (hP : Stable R P) (hc : Consistent R K Z s) (hs : P s) (hp : p ∈ s.trail)
    (hv : s.litsRequiringWatcherUpdateAsVec = []) :
    EndsFixpoint (fun t => ∃ f, Lengthened R K Z P s t f) (Interrupted R K Z P s) (s.propagateUntilFixpoint p m) :=
  propagateUntilFixpoint_rule hv (hP.propagate hc hs hp) fun _ _ ht =>
    ht.propagateQueue hP (Nat.le_add_right _ _) ht.count.symm

end

end Assignment

end JamSAT
