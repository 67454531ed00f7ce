import JamSAT.StampingMachine
import JamSAT.RedundantLiterals
import JamSAT.AssignmentAnalysisSound

/-!
# The stamp map under the algorithms

On a stamp map that is large enough, the algorithms give the results that they give with plain
sets of stamped variables. Each has its own context and leaves the map without one.
-/

namespace JamSAT

open FallibleState

namespace Stamping

variable {n : Nat} {stamp : Stamp} {marked : Nat → Bool} {m : SolverStamps}

structure Clean (n : Nat) (m : SolverStamps) : Prop where
  inv : ∃ events : List (StampEvent StampKey.Obj),
    StampClient.Inv StampKey.getIndex events (⟨m, none⟩ : StampClient _)
  length : m.stamps.length = n

/-- In the context with the stamp, the indices that are `marked` are stamped. -/
structure InContext (n : Nat) (stamp : Stamp) (marked : Nat → Bool) (m : SolverStamps) : Prop where
  inv : ∃ events : List (StampEvent StampKey.Obj),
    StampClient.Inv StampKey.getIndex events (⟨m, some stamp⟩ : StampClient _) ∧
      ∀ index, StampClient.lastSet StampKey.getIndex events index = marked index
  length : m.stamps.length = n

/-! ## The operations -/

theorem Clean.createContext (h : Clean n m) :
    ∃ stamp, Yields createContext m stamp (InContext n stamp fun _ => false) := by
  obtain ⟨events, hinv⟩ := h.inv
  obtain ⟨c', hc, hinv'⟩ := hinv.createContext rfl
  obtain ⟨r, hr, rfl⟩ := Option.map_eq_some_iff.mp hc
  refine ⟨r.1, r.2, hr, ⟨_, hinv', fun _ => rfl⟩, ?_⟩
  unfold StampMap.createContext at hr
  split at hr
  · cases hr
  · cases hr
    exact h.length

theorem InContext.endContext (h : InContext n stamp marked m) : Yields endContext m () (Clean n) := by
  obtain ⟨events, hinv, -⟩ := h.inv
  refine ⟨m.clear, rfl, ⟨_, hinv.endContext⟩, ?_⟩
  unfold StampMap.clear
  split
  · simpa using h.length
  · exact h.length

theorem InContext.setStamped (h : InContext n stamp marked m) {i : StampKey} {obj : i.Obj} (b : Bool)
    (hlt : i.getIndex obj < n) :
    Yields (setStamped i obj stamp b) m () (InContext n stamp (Function.update marked (i.getIndex obj) b)) := by
  obtain ⟨events, hinv, hmarked⟩ := h.inv
  rw [← h.length] at hlt
  obtain ⟨c', hc, hinv'⟩ := hinv.setStamped (b := b) rfl hlt
  obtain ⟨m', hm, rfl⟩ := Option.map_eq_some_iff.mp hc
  refine ⟨m', Option.map_eq_some_iff.mpr ⟨m', hm, rfl⟩, ⟨_, hinv', fun index => ?_⟩, ?_⟩
  · rw [StampClient.lastSet, hmarked, Function.update_apply]
    exact if_congr eq_comm rfl rfl
  · unfold StampMap.setStamped at hm
    split at hm
    · cases hm
      simpa using h.length
    · cases hm

theorem InContext.isStamped (h : InContext n stamp marked m) {i : StampKey} {obj : i.Obj}
    (hlt : i.getIndex obj < n) :
    Yields (isStamped i obj stamp) m (marked (i.getIndex obj)) (InContext n stamp marked) := by
  obtain ⟨events, hinv, hmarked⟩ := h.inv
  rw [← h.length] at hlt
  have hget := hinv.isStamped obj rfl hlt
  rw [hmarked] at hget
  exact ⟨m, Option.map_eq_some_iff.mpr ⟨_, hget, rfl⟩, h⟩

theorem Clean.increaseSizeTo (h : Clean n m) {maxIdx : Nat} (hle : n ≤ maxIdx + 1) :
    Yields (increaseSizeTo maxIdx) m () (Clean (maxIdx + 1)) := by
  obtain ⟨events, hinv⟩ := h.inv
  rw [← h.length] at hle
  obtain ⟨c', hc, hinv'⟩ := hinv.increaseSizeTo hle
  obtain ⟨m', hm, rfl⟩ := Option.map_eq_some_iff.mp hc
  refine ⟨m', Option.map_eq_some_iff.mpr ⟨m', hm, rfl⟩, ⟨_, hinv'⟩, ?_⟩
  unfold StampMap.increaseSizeTo at hm
  rw [if_pos hle] at hm
  cases hm
  rw [List.length_append, List.length_replicate]
  exact Nat.add_sub_cancel' hle

def Within (n : Nat) (stamp : Stamp) (m : SolverStamps) : Prop := ∃ marked, InContext n stamp marked m

theorem Clean.inContext {α : Type} {body : Stamp → Stamping α} {a : α} (h : Clean n m)
    (hbody : ∀ stamp m, InContext n stamp (fun _ => false) m → Yields (body stamp) m a (Within n stamp)) :
    Yields (inContext body) m a (Clean n) := by
  obtain ⟨stamp, hcreate⟩ := h.createContext
  refine hcreate.bind fun t ht => ?_
  refine (hbody stamp t ht).bind fun u hu => ?_
  obtain ⟨marked, hu⟩ := hu
  exact hu.endContext.bind fun v hv => .pure hv

theorem InContext.setAll {i : StampKey} {objs : List i.Obj} {b : Bool} (h : InContext n stamp marked m)
    (hlt : ∀ obj ∈ objs, i.getIndex obj < n) : Yields (setAll i stamp b objs) m ()
      (InContext n stamp (objs.foldl (fun marked obj => Function.update marked (i.getIndex obj) b) marked)) := by
  induction objs generalizing marked m with
  | nil => exact .pure h
  | cons obj objs ih =>
    obtain ⟨hobj, hobjs⟩ := List.forall_mem_cons.mp hlt
    exact (h.setStamped b hobj).bind fun t ht => ih ht hobjs

/-! ## Literal block distances -/

def newLevels (level : CNFVar → Nat) (marked : Nat → Bool) (literals : List CNFLit) : Finset Nat :=
  (literals.map fun l => level l.var).toFinset.filter fun k => marked k = false

section
variable {level : CNFVar → Nat} {literal : CNFLit} {literals : List CNFLit}

theorem newLevels_of_marked (h : marked (level literal.var) = true) :
    newLevels level marked (literal :: literals) = newLevels level marked literals := by
  unfold newLevels
  rw [List.map_cons, List.toFinset_cons, Finset.filter_insert, if_neg]
  rw [h]
  exact Bool.noConfusion

theorem card_newLevels_of_new (h : marked (level literal.var) = false) :
    (newLevels level marked (literal :: literals)).card =
      (newLevels level (Function.update marked (level literal.var) true) literals).card + 1 := by
  have hnew : newLevels level marked (literal :: literals) = insert (level literal.var)
      (newLevels level (Function.update marked (level literal.var) true) literals) := by
    ext k
    by_cases hk : k = level literal.var
    · simp [newLevels, hk, h]
    · simp [newLevels, hk]
  rw [hnew, Finset.card_insert_of_notMem]
  simp [newLevels]

theorem InContext.countLevels {r : Nat} (h : InContext n stamp marked m)
    (hlt : ∀ l ∈ literals, level l.var < n) : Yields (countLevels level stamp literals r) m
      (r + (newLevels level marked literals).card) (Within n stamp) := by
  induction literals generalizing marked m r with
  | nil => exact .pure ⟨marked, h⟩
  | cons literal literals ih =>
    obtain ⟨hl, hls⟩ := List.forall_mem_cons.mp hlt
    refine (h.isStamped (i := StampKey.level) hl).bind fun t ht => ?_
    show Yields (if marked (level literal.var) then _ else _) t _ _
    cases hm : marked (level literal.var) with
    | true =>
      rw [newLevels_of_marked hm]
      exact ih ht hls
    | false =>
      rw [card_newLevels_of_new hm, ← Nat.add_assoc, Nat.add_right_comm]
      exact (ht.setStamped (i := .level) true hl).bind fun u hu => ih hu hls

theorem Clean.getLBD (h : Clean n m) (hlt : ∀ l ∈ literals, level l.var < n) :
    Yields (getLBD level literals) m (literals.map fun l => level l.var).toFinset.card (Clean n) := by
  refine h.inContext fun stamp m hm => ?_
  have hcount := hm.countLevels (r := 0) hlt
  rw [Nat.zero_add, newLevels, Finset.filter_true_of_mem fun _ _ => rfl] at hcount
  exact hcount

end

theorem Clean.updateReasonClauseLBDs {s : Assignment} {lits : List CNFLit} {updated : Nat} (h : Clean n m)
    (hlt : ∀ l ∈ lits, ∀ c, s.getReason l.var = some c → ∀ x ∈ (s.mem c).lits, s.getLevel x.var < n) :
    Yields (updateReasonClauseLBDs s lits updated) m () (Clean n) := by
  induction lits generalizing m updated with
  | nil => exact .pure h
  | cons lit lits ih =>
    obtain ⟨hl, hls⟩ := List.forall_mem_cons.mp hlt
    unfold Stamping.updateReasonClauseLBDs
    cases hr : s.getReason lit.var with
    | none => exact ih h hls
    | some c =>
      refine (h.getLBD (hl c hr)).bind fun t ht => ?_
      by_cases hu : updated + 1 = maxLBDUpdatesOnBacktrack
      · rw [if_pos hu]
        exact .pure ht
      · rw [if_neg hu]
        exact ih ht hls

/-! ## Minimization -/

structure Scope (p : Provider) (n : Nat) (V : Set CNFVar) : Prop where
  lt : ∀ v ∈ V, v < n
  closed : ∀ v ∈ V, ∀ C, p.reason v = some C → ∀ x ∈ C, x.var ∈ V

structure Known (V : Set CNFVar) (c : ClauseMinimization.Check) : Prop where
  work : ∀ v ∈ c.work, v ∈ V
  stampCleanup : ∀ v ∈ c.stampCleanup, v ∈ V

section
variable {p : Provider} {V : Set CNFVar} {c c' : ClauseMinimization.Check} {levels : OverApproximatingSet}
  {b : Bool} {fuel : Nat} {literal : CNFLit} {reason literals : List CNFLit}

theorem Known.push (h : Known V c) {v : CNFVar} (hv : v ∈ V) (stamps : Stamps) :
    Known V ⟨stamps, v :: c.work, c.stampCleanup ++ [v]⟩ where
  work := List.forall_mem_cons.mpr ⟨hv, h.work⟩
  stampCleanup := by
    intro w hw
    cases List.mem_append.mp hw with
    | inl hw => exact h.stampCleanup w hw
    | inr hw =>
      rw [List.mem_singleton.mp hw]
      exact hv

theorem Known.checkReason (h : Known V c) (hr : ∀ x ∈ reason, x.var ∈ V) (levels : OverApproximatingSet) :
    Known V (ClauseMinimization.checkReason p levels reason c).2 := by
  induction reason generalizing c with
  | nil => exact h
  | cons lit reason ih =>
    obtain ⟨hl, hls⟩ := List.forall_mem_cons.mp hr
    unfold ClauseMinimization.checkReason
    split
    · exact h
    · split
      · exact ih h hls
      · split
        · exact ih (h.push hl _) hls
        · exact h

theorem InContext.checkReason (hs : Scope p n V) (h : InContext n stamp c.stamps m) (hr : ∀ x ∈ reason, x.var ∈ V)
    (levels : OverApproximatingSet) :
    Yields (checkReason p levels stamp reason c.work c.stampCleanup) m
      ((ClauseMinimization.checkReason p levels reason c).1,
        (ClauseMinimization.checkReason p levels reason c).2.work,
        (ClauseMinimization.checkReason p levels reason c).2.stampCleanup)
      (InContext n stamp (ClauseMinimization.checkReason p levels reason c).2.stamps) := by
  induction reason generalizing c m with
  | nil => exact .pure h
  | cons lit reason ih =>
    obtain ⟨hl, hls⟩ := List.forall_mem_cons.mp hr
    have hlt := hs.lt lit.var hl
    unfold Stamping.checkReason ClauseMinimization.checkReason
    by_cases hlevel : (!levels.mightContain (p.level lit.var)) = true
    · rw [if_pos hlevel, if_pos hlevel]
      exact .pure h
    rw [if_neg hlevel, if_neg hlevel]
    by_cases hzero : p.level lit.var = 0
    · rw [if_pos hzero, if_pos (.inl hzero)]
      exact ih h hls
    rw [if_neg hzero]
    refine (h.isStamped (i := StampKey.variable) hlt).bind fun t ht => ?_
    show Yields (if c.stamps lit.var then _ else _) t _ _
    by_cases hstamped : c.stamps lit.var = true
    · rw [if_pos hstamped, if_pos (.inr hstamped)]
      exact ih ht hls
    rw [if_neg hstamped, if_neg (not_or.mpr ⟨hzero, hstamped⟩)]
    by_cases hreason : (p.reason lit.var).isSome = true
    · rw [if_pos hreason, if_pos hreason]
      refine (ht.setStamped (i := StampKey.variable) true hlt).bind fun u hu => ?_
      exact ih (c := ⟨c.stamps.set lit.var true, lit.var :: c.work, c.stampCleanup ++ [lit.var]⟩) hu hls
    · rw [if_neg hreason, if_neg hreason]
      exact .pure ht

theorem InContext.checkWork (hs : Scope p n V) (h : InContext n stamp c.stamps m) (hk : Known V c)
    (hc : ClauseMinimization.checkWork p levels fuel c = some (b, c')) :
    Known V c' ∧ Yields (checkWork p levels stamp fuel c.work c.stampCleanup) m (b, c'.stampCleanup)
      (InContext n stamp c'.stamps) := by
  induction fuel generalizing c m with
  | zero => cases hc
  | succ fuel ih =>
    obtain ⟨stamps, work, stampCleanup⟩ := c
    unfold ClauseMinimization.checkWork at hc
    cases work with
    | nil =>
      cases hc
      exact ⟨hk, .pure h⟩
    | cons workItem work =>
      obtain ⟨hw, hws⟩ := List.forall_mem_cons.mp hk.work
      dsimp only at hc ⊢
      unfold Stamping.checkWork
      cases hreason : p.reason workItem with
      | none =>
        rw [hreason] at hc
        cases hc
      | some reason =>
        rw [hreason] at hc
        have hr := hs.closed workItem hw reason hreason
        have hk' : Known V ⟨stamps, work, stampCleanup⟩ := ⟨hws, hk.stampCleanup⟩
        have hread : Yields (Stamping.checkReason p (levels.insert 0) stamp reason work stampCleanup) m _ _ :=
          InContext.checkReason (c := ⟨stamps, work, stampCleanup⟩) hs h hr (levels.insert 0)
        have hknown := hk'.checkReason (p := p) hr (levels.insert 0)
        obtain ⟨r, he⟩ : ∃ r, ClauseMinimization.checkReason p (levels.insert 0) reason
          ⟨stamps, work, stampCleanup⟩ = r := ⟨_, rfl⟩
        obtain ⟨b', d⟩ := r
        simp only [he] at hc hread hknown
        cases b' with
        | true =>
          obtain ⟨t, -, ht⟩ := id hread
          refine ⟨(ih ht hknown hc).1, hread.bind fun t ht => ?_⟩
          exact (ih ht hknown hc).2
        | false =>
          cases hc
          exact ⟨hknown, hread.bind fun t ht => .pure ht⟩

theorem InContext.isRedundant (hs : Scope p n V) {stamps stamps' : Stamps} (h : InContext n stamp stamps m)
    (hl : literal.var ∈ V) (hc : ClauseMinimization.isRedundant p fuel levels stamps literal = some (b, stamps')) :
    Yields (isRedundant p fuel levels stamp literal) m b (InContext n stamp stamps') := by
  unfold ClauseMinimization.isRedundant at hc
  unfold Stamping.isRedundant
  by_cases hlevel : p.level literal.var = p.currentLevel
  · rw [if_pos hlevel] at hc ⊢
    cases hc
    exact .pure h
  rw [if_neg hlevel] at hc ⊢
  cases hw : ClauseMinimization.checkWork p levels fuel ⟨stamps, [literal.var], []⟩ with
  | none =>
    rw [hw] at hc
    cases hc
  | some r =>
    obtain ⟨b', d⟩ := r
    rw [hw] at hc
    have hk : Known V ⟨stamps, [literal.var], []⟩ :=
      ⟨List.forall_mem_singleton.mpr hl, fun v hv => absurd hv List.not_mem_nil⟩
    obtain ⟨hknown, hyields⟩ := InContext.checkWork (c := ⟨stamps, [literal.var], []⟩) hs h hk hw
    refine hyields.bind fun t ht => ?_
    cases b' with
    | true =>
      cases hc
      exact .pure ht
    | false =>
      cases hc
      refine (ht.setAll (i := StampKey.variable) (b := false) fun v hv => ?_).bind fun u hu => .pure hu
      exact hs.lt v (hknown.stampCleanup v hv)

theorem InContext.eraseLoop (hs : Scope p n V) {stamps : Stamps} {out : List CNFLit}
    (h : InContext n stamp stamps m) (hl : ∀ l ∈ literals, l.var ∈ V)
    (hc : ClauseMinimization.eraseLoop p fuel levels literals stamps = some out) :
    Yields (eraseLoop p fuel levels stamp literals) m out (Within n stamp) := by
  induction literals generalizing stamps m out with
  | nil =>
    cases hc
    exact .pure ⟨stamps, h⟩
  | cons literal rest ih =>
    obtain ⟨hlit, hrest⟩ := List.forall_mem_cons.mp hl
    unfold ClauseMinimization.eraseLoop at hc
    unfold Stamping.eraseLoop
    cases hr : p.reason literal.var with
    | none =>
      rw [hr] at hc
      dsimp only at hc ⊢
      by_cases hzero : p.level literal.var = 0
      · rw [if_pos hzero] at hc
        exact (ih h hrest hc).bind fun t ht => by rw [if_pos hzero]; exact .pure ht
      · rw [if_neg hzero] at hc
        obtain ⟨kept, hkept, rfl⟩ := Option.map_eq_some_iff.mp hc
        exact (ih h hrest hkept).bind fun t ht => by rw [if_neg hzero]; exact .pure ht
    | some C =>
      rw [hr] at hc
      dsimp only at hc ⊢
      cases hred : ClauseMinimization.isRedundant p fuel levels stamps literal with
      | none =>
        rw [hred] at hc
        cases hc
      | some r =>
        obtain ⟨b, stamps'⟩ := r
        rw [hred] at hc
        refine (InContext.isRedundant hs h hlit hred).bind fun t ht => ?_
        cases b with
        | true => exact (ih ht hrest hc).bind fun u hu => .pure hu
        | false =>
          obtain ⟨kept, hkept, rfl⟩ := Option.map_eq_some_iff.mp hc
          exact (ih ht hrest hkept).bind fun u hu => .pure hu

theorem Clean.eraseRedundantLiterals (h : Clean n m) (hs : Scope p n V) {out : List CNFLit}
    (hl : ∀ l ∈ literals, l.var ∈ V) (hc : ClauseMinimization.eraseRedundantLiterals p fuel literals = some out) :
    Yields (eraseRedundantLiterals p fuel literals) m out (Clean n) := by
  refine h.inContext fun stamp m hm => ?_
  have hlt : ∀ v ∈ literals.map CNFLit.var, v < n := by
    intro v hv
    obtain ⟨l, hmem, rfl⟩ := List.mem_map.mp hv
    exact hs.lt l.var (hl l hmem)
  refine (hm.setAll (i := StampKey.variable) (b := true) hlt).bind fun t ht => ?_
  unfold ClauseMinimization.eraseRedundantLiterals at hc
  rw [← List.foldl_map (f := CNFLit.var) (g := fun (stamps : Stamps) v => stamps.set v true)] at hc
  exact InContext.eraseLoop hs ht hl hc

theorem InContext.eraseStamped (h : InContext n stamp marked m) {f : CNFLit → Bool}
    (hf : ∀ l, marked (CNFLit.rawValue l) = f l) (hlt : ∀ l ∈ literals, CNFLit.rawValue (-l) < n) :
    Yields (eraseStamped stamp literals) m (literals.filter fun l => !f (-l)) (InContext n stamp marked) := by
  induction literals generalizing m with
  | nil => exact .pure h
  | cons literal literals ih =>
    obtain ⟨hl, hls⟩ := List.forall_mem_cons.mp hlt
    refine (h.isStamped (i := StampKey.literal) hl).bind fun t ht => ?_
    refine (ih ht hls).bind fun u hu => ?_
    show Yields (pure (if marked (CNFLit.rawValue (-literal)) then _ else _)) u _ _
    rw [hf]
    cases hm : f (-literal) with
    | true =>
      rw [List.filter_cons_of_neg (by simp [hm])]
      exact .pure hu
    | false =>
      rw [List.filter_cons_of_pos (by simp [hm])]
      exact .pure hu

theorem foldl_update_rawValue (lits : List CNFLit) (marked : Nat → Bool) (l : CNFLit) :
    lits.foldl (fun marked l => Function.update marked (CNFLit.rawValue l) true) marked (CNFLit.rawValue l) =
      (decide (l ∈ lits) || marked (CNFLit.rawValue l)) := by
  induction lits generalizing marked with
  | nil => simp
  | cons a lits ih =>
    rw [List.foldl_cons, ih]
    by_cases he : l = a
    · simp [he]
    · have hne : CNFLit.rawValue l ≠ CNFLit.rawValue a := fun h => he (CNFLit.rawValue_injective h)
      simp [he, hne]

theorem Clean.resolveWithBinaries {binaryClauses : CNFLit → List CNFLit} {resolveAt : CNFLit} (h : Clean n m)
    (hb : ∀ l ∈ binaryClauses resolveAt, CNFLit.rawValue l < n) (hl : ∀ l ∈ literals, CNFLit.rawValue (-l) < n) :
    Yields (resolveWithBinaries binaryClauses resolveAt literals) m
      (ClauseMinimization.resolveWithBinaries binaryClauses resolveAt literals) (Clean n) := by
  unfold ClauseMinimization.resolveWithBinaries
  refine h.inContext fun stamp m hm => ?_
  by_cases hnil : binaryClauses resolveAt = []
  · rw [if_pos hnil, if_pos hnil]
    exact .pure ⟨_, hm⟩
  · rw [if_neg hnil, if_neg hnil]
    refine (hm.setAll (i := StampKey.literal) (b := true) hb).bind fun t ht => ?_
    have herase := ht.eraseStamped (f := fun l => decide (l ∈ binaryClauses resolveAt))
      (fun l => (foldl_update_rawValue _ _ l).trans (Bool.or_false _)) hl
    simp only [decide_not]
    exact herase.mono fun u hu => ⟨_, hu⟩

end

/-! ## Assumptions behind an assignment -/

section
variable {p : Provider} {V : Set CNFVar} {fuel : Nat} {reason : List CNFLit} {σ : AssignmentAnalysis.State}

abbrev visited (p : Provider) (reason : List CNFLit) (σ : AssignmentAnalysis.State) : AssignmentAnalysis.State :=
  reason.foldl (AssignmentAnalysis.visitLit p) σ

theorem toAnalyze_visited (h : ∀ v ∈ σ.toAnalyze, v ∈ V) (hr : ∀ x ∈ reason, x.var ∈ V) :
    ∀ v ∈ (visited p reason σ).toAnalyze, v ∈ V := by
  induction reason generalizing σ with
  | nil => exact h
  | cons lit reason ih =>
    obtain ⟨hl, hls⟩ := List.forall_mem_cons.mp hr
    refine ih (σ := AssignmentAnalysis.visitLit p σ lit) ?_ hls
    unfold AssignmentAnalysis.visitLit
    split
    · exact h
    · dsimp only
      split
      · split
        · exact List.forall_mem_cons.mpr ⟨hl, h⟩
        · exact h
      · exact h

theorem InContext.visitLits (hs : Scope p n V) (h : InContext n stamp σ.stamps m) (hr : ∀ x ∈ reason, x.var ∈ V) :
    Yields (visitLits p stamp reason σ.toAnalyze σ.result) m
      ((visited p reason σ).toAnalyze, (visited p reason σ).result)
      (InContext n stamp (visited p reason σ).stamps) := by
  induction reason generalizing σ m with
  | nil => exact .pure h
  | cons lit reason ih =>
    obtain ⟨hl, hls⟩ := List.forall_mem_cons.mp hr
    have hlt := hs.lt lit.var hl
    unfold visited
    rw [List.foldl_cons]
    unfold Stamping.visitLits AssignmentAnalysis.visitLit
    refine (h.isStamped (i := StampKey.variable) hlt).bind fun t ht => ?_
    show Yields (if σ.stamps lit.var then _ else _) t _ _
    by_cases hstamped : σ.stamps lit.var = true
    · rw [if_pos hstamped, if_pos hstamped]
      exact ih ht hls
    rw [if_neg hstamped, if_neg hstamped]
    refine (ht.setStamped (i := StampKey.variable) true hlt).bind fun u hu => ?_
    dsimp only
    by_cases hlevel : p.level lit.var = p.currentLevel
    · rw [if_pos hlevel, if_pos hlevel]
      by_cases hreason : (p.reason lit.var).isSome = true
      · rw [if_pos hreason, if_pos hreason]
        exact ih (σ := ⟨σ.stamps.set lit.var true, lit.var :: σ.toAnalyze, σ.result⟩) hu hls
      · rw [if_neg hreason, if_neg hreason]
        exact ih (σ := ⟨σ.stamps.set lit.var true, σ.toAnalyze, σ.result ++ [-lit]⟩) hu hls
    · rw [if_neg hlevel, if_neg hlevel]
      exact ih (σ := ⟨σ.stamps.set lit.var true, σ.toAnalyze, σ.result⟩) hu hls

theorem InContext.analyze (hs : Scope p n V) (h : InContext n stamp σ.stamps m) (hk : ∀ v ∈ σ.toAnalyze, v ∈ V)
    {out : List CNFLit} (hc : AssignmentAnalysis.analyze p fuel σ = some out) :
    Yields (analyze p stamp fuel σ.toAnalyze σ.result) m out (Within n stamp) := by
  induction fuel generalizing σ m with
  | zero => cases hc
  | succ fuel ih =>
    obtain ⟨stamps, toAnalyze, result⟩ := σ
    unfold AssignmentAnalysis.analyze at hc
    cases toAnalyze with
    | nil =>
      cases hc
      exact .pure ⟨stamps, h⟩
    | cons currentVar toAnalyze =>
      obtain ⟨hv, hvs⟩ := List.forall_mem_cons.mp hk
      dsimp only at hc ⊢
      unfold Stamping.analyze
      cases hreason : p.reason currentVar with
      | none =>
        rw [hreason] at hc
        cases hc
      | some reason =>
        rw [hreason] at hc
        have hr := hs.closed currentVar hv reason hreason
        refine (h.setStamped (i := StampKey.variable) true (hs.lt currentVar hv)).bind fun t ht => ?_
        have hvisit := InContext.visitLits (σ := ⟨stamps.set currentVar true, toAnalyze, result⟩) hs ht hr
        have hknown := toAnalyze_visited (p := p) (σ := ⟨stamps.set currentVar true, toAnalyze, result⟩) hvs hr
        exact hvisit.bind fun u hu => ih hu hknown hc

theorem Clean.analyzeAssignment (h : Clean n m) (hs : Scope p n V) {query : CNFLit} (hq : query.var ∈ V)
    {out : List CNFLit} (hc : AssignmentAnalysis.analyzeAssignment p fuel query = some out) :
    Yields (analyzeAssignment p fuel query) m out (Clean n) := by
  unfold AssignmentAnalysis.analyzeAssignment at hc
  refine h.inContext fun stamp m hm => ?_
  by_cases hreason : p.reason query.var = none
  · rw [if_pos hreason] at hc ⊢
    cases hc
    exact .pure ⟨_, hm⟩
  · rw [if_neg hreason] at hc ⊢
    exact InContext.analyze (σ := ⟨.empty, [query.var], [query]⟩) hs hm (List.forall_mem_singleton.mpr hq) hc

end

end Stamping

end JamSAT
