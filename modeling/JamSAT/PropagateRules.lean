import JamSAT.TrailSound

/-!
# Rules for the propagation loops

One rule for each loop of `propagateUntilFixpoint`. In `I n k s f`, `n` watchers
of the list under traversal are left, `k` is the position of the next one and
`f` counts the literals forced so far. `Ends I Q` says that a run ends with a
conflict satisfying `Q` or without one, satisfying `I`.
-/

namespace JamSAT

namespace Assignment

def Ends (I : Assignment → Nat → Prop) (Q : ClauseRef → Assignment → Prop) :
    Option ClauseRef × Assignment × Nat → Prop
  | (none, s, f) => I s f
  | (some c, s, _) => Q c s

theorem Ends.imp {I J : Assignment → Nat → Prop} {Q Q' : ClauseRef → Assignment → Prop}
    {r : Option ClauseRef × Assignment × Nat} (h : Ends I Q r) (hI : ∀ s f, I s f → J s f)
    (hQ : ∀ c s, Q c s → Q' c s) : Ends J Q' r := by
  obtain ⟨_ | c, s, f⟩ := r
  · exact hI s f h
  · exact hQ c s h

def EndsFixpoint (I : Assignment → Prop) (Q : ClauseRef → Assignment → Prop) :
    Option ClauseRef × Assignment → Prop
  | (none, s) => I s
  | (some c, s) => Q c s

theorem EndsFixpoint.imp {I J : Assignment → Prop} {Q Q' : ClauseRef → Assignment → Prop}
    {e : Option ClauseRef × Assignment} (h : EndsFixpoint I Q e) (hI : ∀ s, I s → J s)
    (hQ : ∀ c s, Q c s → Q' c s) : EndsFixpoint J Q' e := by
  obtain ⟨_ | c, s⟩ := e
  · exact hI s h
  · exact hQ c s h

theorem EndsFixpoint.both {I P : Assignment → Prop} {Q : ClauseRef → Assignment → Prop}
    {e : Option ClauseRef × Assignment} (h : EndsFixpoint I Q e) (hI : ∀ s, I s → P s) (hQ : ∀ c s, Q c s → P s) :
    P e.2 := by
  obtain ⟨_ | c, s⟩ := e
  · exact hI s h
  · exact hQ c s h

/-! ## Visiting a watcher -/

theorem findUnfalsified_some {s : Assignment} {c : Clause} {i : Nat} (h : s.findUnfalsified c = some i) :
    2 ≤ i ∧ i < c.size ∧ s.getAssignment (c.lit i) ≠ .FALSE := by
  obtain ⟨j, hj, rfl⟩ := Option.map_eq_some_iff.mp h
  obtain ⟨hlt, hp, -⟩ := List.findIdx?_eq_some_iff_getElem.mp hj
  simp only [List.length_drop] at hlt
  have hs : j + 2 < c.size := by unfold Clause.size; omega
  refine ⟨by omega, hs, ?_⟩
  have hl : c.lit (j + 2) = (c.lits.drop 2)[j] := by
    rw [Clause.lit, List.getD_eq_getElem _ _ hs, List.getElem_drop]; congr 1; omega
  have hf : (s.getAssignment (c.lits.drop 2)[j]).isFalse = false := by simpa using hp
  rw [hl]
  intro he
  rw [he] at hf
  exact absurd hf (by decide)

theorem findUnfalsified_none {s : Assignment} {c : Clause} (h : s.findUnfalsified c = none) {j : Nat}
    (h₂ : 2 ≤ j) (hj : j < c.size) : s.getAssignment (c.lit j) = .FALSE := by
  have h' := List.findIdx?_eq_none_iff.mp (Option.map_eq_none_iff.mp h) (c.lit j)
  have hm : c.lit j ∈ c.lits.drop 2 := by
    obtain ⟨k, rfl⟩ := Nat.exists_eq_add_of_le h₂
    refine List.mem_of_getElem? (i := k) ?_
    rw [List.getElem?_drop, Clause.lit_eq hj]
  simpa using h' hm

theorem visit_cases (s : Assignment) (mode : UpMode) (w : Watcher) :
    (s.visit mode w = .skip ∧ (mode = .excludeLemmas ∧ w.isRedundant = true ∨
      s.getAssignment w.otherWatchedLiteral = .TRUE ∨
      s.getAssignment ((s.mem w.clause).lit (1 - w.index)) = .TRUE)) ∨
    (∃ i, s.visit mode w = .move i ∧ 2 ≤ i ∧ i < (s.mem w.clause).size ∧
      s.getAssignment ((s.mem w.clause).lit i) ≠ .FALSE ∧
      s.getAssignment ((s.mem w.clause).lit (1 - w.index)) ≠ .TRUE) ∨
    (s.visit mode w = .conflict ∧ s.getAssignment ((s.mem w.clause).lit (1 - w.index)) = .FALSE ∧
      ∀ j, 2 ≤ j → j < (s.mem w.clause).size → s.getAssignment ((s.mem w.clause).lit j) = .FALSE) ∨
    (s.visit mode w = .force ((s.mem w.clause).lit (1 - w.index)) ∧
      s.getAssignment ((s.mem w.clause).lit (1 - w.index)) = .INDETERMINATE ∧
      ∀ j, 2 ≤ j → j < (s.mem w.clause).size → s.getAssignment ((s.mem w.clause).lit j) = .FALSE) := by
  unfold visit
  by_cases hx : mode = .excludeLemmas ∧ w.isRedundant
  · rw [if_pos hx]; exact .inl ⟨rfl, .inl hx⟩
  by_cases hb : (s.getAssignment w.otherWatchedLiteral).isTrue
  · rw [if_neg hx, if_pos hb]; exact .inl ⟨rfl, .inr (.inl (TBool.isTrue_iff.mp hb))⟩
  rw [if_neg hx, if_neg hb]
  dsimp only
  by_cases ho : (s.getAssignment ((s.mem w.clause).lit (1 - w.index))).isTrue
  · rw [if_pos ho]; exact .inl ⟨rfl, .inr (.inr (TBool.isTrue_iff.mp ho))⟩
  rw [if_neg ho]
  cases hf : s.findUnfalsified (s.mem w.clause) with
  | some i =>
    obtain ⟨h₂, hi, hn⟩ := findUnfalsified_some hf
    exact .inr (.inl ⟨i, rfl, h₂, hi, hn, fun ht => ho (TBool.isTrue_iff.mpr ht)⟩)
  | none =>
    dsimp only
    by_cases hc : (s.getAssignment ((s.mem w.clause).lit (1 - w.index))).isFalse
    · rw [if_pos hc]
      exact .inr (.inr (.inl ⟨rfl, TBool.isFalse_iff.mp hc, fun j h₂ hj => findUnfalsified_none hf h₂ hj⟩))
    · rw [if_neg hc]
      refine .inr (.inr (.inr ⟨rfl, ?_, fun j h₂ hj => findUnfalsified_none hf h₂ hj⟩))
      rw [TBool.isTrue_iff] at ho
      rw [TBool.isFalse_iff] at hc
      cases h : s.getAssignment ((s.mem w.clause).lit (1 - w.index)) with
      | FALSE => exact absurd h hc
      | TRUE => exact absurd h ho
      | INDETERMINATE => rfl

/-! ## The traversals -/

section
variable {mode : UpMode} {p : CNFLit} {I : Nat → Nat → Assignment → Nat → Prop}
  {Q : ClauseRef → Assignment → Prop}

theorem propagateWatchers_rule
    (hskip : ∀ n k s f, I (n + 1) k s f →
      s.visit mode ((s.watchers (-p)).getD k default) = .skip → I n (k + 1) s f)
    (hmove : ∀ n k s f i, I (n + 1) k s f → s.visit mode ((s.watchers (-p)).getD k default) = .move i →
      I n k (s.moveWatch (-p) k ((s.watchers (-p)).getD k default) i) f)
    (hconflict : ∀ n k s f, I (n + 1) k s f →
      s.visit mode ((s.watchers (-p)).getD k default) = .conflict →
      Q ((s.watchers (-p)).getD k default).clause s)
    (hforce : ∀ n k s f l, I (n + 1) k s f → s.visit mode ((s.watchers (-p)).getD k default) = .force l →
      I n (k + 1) (s.assign l (some ((s.watchers (-p)).getD k default).clause)) (f + 1)) :
    ∀ n k s f, I n k s f →
      Ends (fun s f => ∃ k, I 0 k s f) Q (propagateWatchers mode p n k s f) := by
  intro n
  induction n with
  | zero => intro k s f h; exact ⟨k, h⟩
  | succ n ih =>
    intro k s f h
    unfold propagateWatchers
    dsimp only
    cases hv : s.visit mode ((s.watchers (-p)).getD k default) with
    | skip => exact ih _ _ _ (hskip n k s f h hv)
    | move i => exact ih _ _ _ (hmove n k s f i h hv)
    | conflict => exact hconflict n k s f h hv
    | force l => exact ih _ _ _ (hforce n k s f l h hv)

theorem propagateBinaries_rule
    (htrue : ∀ n k s f, I (n + 1) k s f →
      s.getAssignment ((s.binaryWatchers (-p)).getD k default).otherWatchedLiteral = .TRUE →
      I n (k + 1) s f)
    (hconflict : ∀ n k s f, I (n + 1) k s f →
      s.getAssignment ((s.binaryWatchers (-p)).getD k default).otherWatchedLiteral = .FALSE →
      Q ((s.binaryWatchers (-p)).getD k default).clause s)
    (hforce : ∀ n k s f, I (n + 1) k s f →
      s.getAssignment ((s.binaryWatchers (-p)).getD k default).otherWatchedLiteral = .INDETERMINATE →
      I n (k + 1) (s.assign ((s.binaryWatchers (-p)).getD k default).otherWatchedLiteral
        (some ((s.binaryWatchers (-p)).getD k default).clause)) (f + 1)) :
    ∀ n k s f, I n k s f →
      Ends (fun s f => ∃ k, I 0 k s f) Q (propagateBinaries p n k s f) := by
  intro n
  induction n with
  | zero => intro k s f h; exact ⟨k, h⟩
  | succ n ih =>
    intro k s f h
    unfold propagateBinaries
    dsimp only
    cases hv : s.getAssignment ((s.binaryWatchers (-p)).getD k default).otherWatchedLiteral with
    | FALSE => exact hconflict n k s f h hv
    | TRUE => exact ih _ _ _ (htrue n k s f h hv)
    | INDETERMINATE => exact ih _ _ _ (hforce n k s f h hv)

end

section
variable {mode : UpMode} {I : Assignment → Nat → Prop} {Q : ClauseRef → Assignment → Prop}

theorem propagate_rule {J : Assignment → Nat → Prop} {s : Assignment} {p : CNFLit}
    (hb : Ends I Q (propagateBinaries p (s.binaryWatchers (-p)).length 0 s 0))
    (hw : ∀ t f, I t f → Ends J Q (propagateWatchers mode p (t.watchers (-p)).length 0 t f)) :
    Ends J Q (s.propagate mode p) := by
  unfold propagate
  revert hb
  generalize propagateBinaries p (s.binaryWatchers (-p)).length 0 s 0 = r
  obtain ⟨_ | c, t, f⟩ := r
  · exact fun h => hw t f h
  · exact fun h => h

end

section
variable {mode : UpMode} {I : Nat → Nat → Nat → Assignment → Prop} {Q : ClauseRef → Assignment → Prop}

/-- In `I n b e s`, `n` is the fuel and `[b, e)` the queue. -/
theorem propagateQueue_rule {J : Assignment → Prop} (hfuel : ∀ b e s, I 0 b e s → J s)
    (hdone : ∀ n b s, I (n + 1) b b s → J s)
    (hstep : ∀ n b e s, I (n + 1) b e s → b ≠ e →
      Ends (fun t f => I n (b + 1) (e + f) t) Q
        (s.propagate mode (s.trail.getD b CNFLit.undefinedLiteral))) :
    ∀ n b e s, I n b e s → EndsFixpoint J Q (propagateQueue mode n b e s) := by
  intro n
  induction n with
  | zero => intro b e s h; exact hfuel b e s h
  | succ n ih =>
    intro b e s h
    unfold propagateQueue
    by_cases hbe : b = e
    · subst hbe; rw [if_pos rfl]; exact hdone n b s h
    · rw [if_neg hbe]
      have hs := hstep n b e s h hbe
      revert hs
      generalize s.propagate mode (s.trail.getD b CNFLit.undefinedLiteral) = r
      obtain ⟨_ | c, t, f⟩ := r
      · exact fun hs => ih _ _ _ hs
      · exact fun hs => hs

end

section
variable {mode : UpMode} {I : Assignment → Prop} {Q : ClauseRef → Assignment → Prop}

theorem propagateUntilFixpoint_rule {J : Assignment → Nat → Prop} {s : Assignment} {p : CNFLit}
    (hv : s.litsRequiringWatcherUpdateAsVec = []) (hp : Ends J Q (s.propagate mode p))
    (hq : ∀ t f, J t f → EndsFixpoint I Q
      (propagateQueue mode t.size s.trail.length (s.trail.length + f) t)) :
    EndsFixpoint I Q (s.propagateUntilFixpoint p mode) := by
  simp only [propagateUntilFixpoint, isWatcherCleanupRequired, hv, List.isEmpty_nil, Bool.not_true,
    Bool.false_eq_true, if_false]
  revert hp
  generalize s.propagate mode p = r
  obtain ⟨_ | c, t, f⟩ := r
  · exact fun hp => hq t f hp
  · exact fun hp => hp

/-- A pending cleanup comes first. -/
theorem propagateUntilFixpoint_cleanup {s : Assignment} (p : CNFLit)
    (hv : s.litsRequiringWatcherUpdateAsVec ≠ []) :
    s.propagateUntilFixpoint p mode = s.cleanupWatchers.propagateUntilFixpoint p mode := by
  have h₁ : s.isWatcherCleanupRequired = true := by simpa [isWatcherCleanupRequired] using hv
  have h₂ : s.cleanupWatchers.isWatcherCleanupRequired = false := rfl
  simp only [propagateUntilFixpoint, h₁, h₂, if_true, Bool.false_eq_true, if_false]

end

end Assignment

end JamSAT
