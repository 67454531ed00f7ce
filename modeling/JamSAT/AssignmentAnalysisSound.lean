import JamSAT.ConflictAnalysisSound

/-!
# The assumptions behind an assignment

`analyzeAssignment` searches the implication graph from the query's variable
through the reasons of the current level. It collects the entries without a
reason that it reaches there, each of them once. Together with the levels below
they entail what the reasons have forced.
-/

namespace JamSAT

open UnitLogic

namespace AssignmentAnalysis

open Stamps

variable {p : Provider} {Φ : Set (Finset CNFLit)} {T : List CNFLit} {query : CNFLit} {st st' : State}
  {unfinished : Set CNFVar}

inductive Reaches (p : Provider) (start : CNFVar) : CNFVar → Prop
  | start : Reaches p start start
  | step {v : CNFVar} {reason : List CNFLit} {x : CNFLit} : Reaches p start v → p.reason v = some reason →
    x ∈ reason → p.level x.var = p.currentLevel → Reaches p start x.var

/-- The reasons of the variables in `unfinished` have been taken from the worklist
but not read to the end. -/
structure Search (p : Provider) (T : List CNFLit) (query : CNFLit) (unfinished : Set CNFVar) (st : State) : Prop where
  head : st.result = query :: st.result.tail
  collected : ∀ l, l ∈ st.result.tail ↔
    l ∈ T ∧ st.stamps l.var = true ∧ p.level l.var = p.currentLevel ∧ p.reason l.var = none
  nodup : st.result.tail.Nodup
  reached : ∀ v, st.stamps v = true → p.level v = p.currentLevel → Reaches p query.var v
  waiting : ∀ v ∈ st.toAnalyze, v ∈ T.map CNFLit.var ∧ p.reason v ≠ none ∧ Reaches p query.var v
  followed : ∀ v reason, v = query.var ∨ st.stamps v = true ∧ p.level v = p.currentLevel →
    p.reason v = some reason → v ∈ st.toAnalyze ∨ v ∈ unfinished ∨ ∀ x ∈ reason, st.stamps x.var = true

structure Visited (T : List CNFLit) (st st' : State) : Prop where
  stamps : ∀ v, st.stamps v = true → st'.stamps v = true
  size : st'.toAnalyze.length + st.stamps.count T ≤ st.toAnalyze.length + st'.stamps.count T

theorem Visited.refl (T : List CNFLit) (st : State) : Visited T st st := ⟨fun _ h => h, Nat.le_refl _⟩

theorem Visited.trans {st'' : State} (h : Visited T st st') (h' : Visited T st' st'') : Visited T st st'' := by
  refine ⟨fun v hv => h'.stamps v (h.stamps v hv), ?_⟩
  have := h.size
  have := h'.size
  omega

theorem stamped_cases {stamps : Stamps} {v w : CNFVar} (h : stamps.set v true w = true) :
    w = v ∨ stamps w = true := by
  by_cases he : w = v
  · exact .inl he
  · rw [set_of_ne stamps he] at h
    exact .inr h

theorem Search.followed_set (h : Search p T query unfinished st) {x : CNFLit} {toAnalyze : List CNFVar}
    (hsub : st.toAnalyze ⊆ toAnalyze)
    (hnew : p.level x.var = p.currentLevel → p.reason x.var = none ∨ x.var ∈ toAnalyze) :
    ∀ v reason, v = query.var ∨ st.stamps.set x.var true v = true ∧ p.level v = p.currentLevel →
      p.reason v = some reason →
      v ∈ toAnalyze ∨ v ∈ unfinished ∨ ∀ y ∈ reason, st.stamps.set x.var true y.var = true := by
  intro v reason hv hr
  have hold : (v = query.var ∨ st.stamps v = true ∧ p.level v = p.currentLevel) →
      v ∈ toAnalyze ∨ v ∈ unfinished ∨ ∀ y ∈ reason, st.stamps.set x.var true y.var = true := by
    intro hv
    rcases h.followed v reason hv hr with hw | hu | hall
    · exact .inl (hsub hw)
    · exact .inr (.inl hu)
    · exact .inr (.inr fun y hy => set_true_of_true (hall y hy))
  cases hv with
  | inl hv => exact hold (.inl hv)
  | inr hv =>
    cases stamped_cases hv.1 with
    | inl he =>
      subst he
      cases hnew hv.2 with
      | inl hn =>
        rw [hn] at hr
        cases hr
      | inr hw => exact .inl hw
    | inr hst => exact hold (.inr ⟨hst, hv.2⟩)

theorem Search.below (h : Search p T query unfinished st) {x : CNFLit} (hl : p.level x.var ≠ p.currentLevel) :
    Search p T query unfinished { st with stamps := st.stamps.set x.var true } := by
  refine ⟨h.head, fun l => ?_, h.nodup, fun v hv hlv => ?_, h.waiting,
    h.followed_set (List.Subset.refl _) fun he => absurd he hl⟩
  · rw [h.collected]
    refine and_congr_right fun _ => and_congr_left fun hlv => ⟨fun hst => set_true_of_true hst, fun hst => ?_⟩
    cases stamped_cases hst with
    | inl he => exact absurd (he ▸ hlv.1) hl
    | inr hst => exact hst
  · cases stamped_cases hv with
    | inl he => exact absurd (he ▸ hlv) hl
    | inr hst => exact h.reached v hst hlv

/-- The literal's variable has a reason, which is to be read. -/
theorem Search.enqueue (h : Search p T query unfinished st) {x : CNFLit} (hx : -x ∈ T)
    (hr : p.reason x.var ≠ none) (hreach : Reaches p query.var x.var) :
    Search p T query unfinished
      { st with stamps := st.stamps.set x.var true, toAnalyze := x.var :: st.toAnalyze } := by
  refine ⟨h.head, fun l => ?_, h.nodup, fun v hv hlv => ?_, ?_,
    h.followed_set (List.subset_cons_self _ _) fun _ => .inr List.mem_cons_self⟩
  · rw [h.collected]
    refine and_congr_right fun _ => and_congr_left fun hlv => ⟨fun hst => set_true_of_true hst, fun hst => ?_⟩
    cases stamped_cases hst with
    | inl he => exact absurd (he ▸ hlv.2) hr
    | inr hst => exact hst
  · cases stamped_cases hv with
    | inl he => exact he ▸ hreach
    | inr hst => exact h.reached v hst hlv
  · have hv : x.var ∈ T.map CNFLit.var := List.mem_map.mpr ⟨-x, hx, rfl⟩
    exact List.forall_mem_cons.mpr ⟨⟨hv, hr, hreach⟩, h.waiting⟩

theorem Search.pop (h : Search p T query ∅ st) {v : CNFVar} {toAnalyze : List CNFVar}
    (hw : st.toAnalyze = v :: toAnalyze) :
    Search p T query {v} { st with toAnalyze := toAnalyze, stamps := st.stamps.set v true } := by
  obtain ⟨hv, hr, hreach⟩ := h.waiting v (hw ▸ List.mem_cons_self)
  refine ⟨h.head, fun l => ?_, h.nodup, fun w hst hlw => ?_,
    fun w hm => h.waiting w (hw ▸ List.mem_cons_of_mem _ hm), fun w reason hw' hrw => ?_⟩
  · rw [h.collected]
    refine and_congr_right fun _ => and_congr_left fun hlv => ⟨fun hst => set_true_of_true hst, fun hst => ?_⟩
    cases stamped_cases hst with
    | inl he => exact absurd (he ▸ hlv.2) hr
    | inr hst => exact hst
  · cases stamped_cases hst with
    | inl he => exact he ▸ hreach
    | inr hst => exact h.reached w hst hlw
  · by_cases he : w = v
    · exact .inr (.inl he)
    · have hold : w = query.var ∨ st.stamps w = true ∧ p.level w = p.currentLevel := by
        refine hw'.imp_right fun hst => ⟨?_, hst.2⟩
        exact (stamped_cases hst.1).resolve_left he
      rcases h.followed w reason hold hrw with hm | hu | hall
      · rw [hw] at hm
        exact .inl ((List.mem_cons.mp hm).resolve_left he)
      · exact hu.elim
      · exact .inr (.inr fun x hx => set_true_of_true (hall x hx))

theorem Search.close {v : CNFVar} {reason : List CNFLit}
    (h : Search p T query {v} st) (hr : p.reason v = some reason)
    (hall : ∀ x ∈ reason, st.stamps x.var = true) : Search p T query ∅ st := by
  refine ⟨h.head, h.collected, h.nodup, h.reached, h.waiting, fun w C hw hC => ?_⟩
  rcases h.followed w C hw hC with hm | he | hst
  · exact .inl hm
  · obtain rfl : w = v := he
    obtain rfl := Option.some.inj (hr.symm.trans hC)
    exact .inr (.inr hall)
  · exact .inr (.inr hst)

theorem Search.stamped (h : Search p T query ∅ st) (hw : st.toAnalyze = []) {v : CNFVar}
    (hv : Reaches p query.var v) : v = query.var ∨ st.stamps v = true ∧ p.level v = p.currentLevel := by
  induction hv with
  | start => exact .inl rfl
  | step _ hr hx hl ih =>
    rcases h.followed _ _ ih hr with hm | hu | hall
    · rw [hw] at hm
      cases hm
    · exact hu.elim
    · exact .inr ⟨hall _ hx, hl⟩

section
variable (g : p.Reasons T)
include g

/-- The negation of the literal is on the trail without a reason. -/
theorem Search.collect (h : Search p T query unfinished st) {x : CNFLit} (hs : st.stamps x.var = false)
    (hx : -x ∈ T) (hl : p.level x.var = p.currentLevel) (hr : p.reason x.var = none)
    (hreach : Reaches p query.var x.var) :
    Search p T query unfinished
      { st with stamps := st.stamps.set x.var true, result := st.result ++ [-x] } := by
  have htail : (st.result ++ [-x]).tail = st.result.tail ++ [-x] := by
    conv_lhs => rw [h.head]
    rfl
  refine ⟨?_, fun l => ?_, ?_, fun v hv hlv => ?_, h.waiting,
    h.followed_set (List.Subset.refl _) fun _ => .inl hr⟩
  · show st.result ++ [-x] = query :: (st.result ++ [-x]).tail
    rw [htail, ← List.cons_append, ← h.head]
  · show l ∈ (st.result ++ [-x]).tail ↔ _
    rw [htail, List.mem_append, h.collected, List.mem_singleton]
    constructor
    · intro hm
      cases hm with
      | inl hm => exact ⟨hm.1, set_true_of_true hm.2.1, hm.2.2⟩
      | inr hm =>
        subst hm
        exact ⟨hx, set_self _ _ _, hl, hr⟩
    · intro hm
      obtain ⟨hlT, hst, hlr⟩ := hm
      cases stamped_cases hst with
      | inl he => exact .inr (g.eq_of_var_eq hlT hx he)
      | inr hst => exact .inl ⟨hlT, hst, hlr⟩
  · show (st.result ++ [-x]).tail.Nodup
    rw [htail]
    apply List.nodup_append.mpr
    refine ⟨h.nodup, List.nodup_singleton _, fun a ha b hb hab => ?_⟩
    have hst : st.stamps x.var = true := by
      rw [hab, List.mem_singleton.mp hb] at ha
      exact ((h.collected _).mp ha).2.1
    exact Bool.false_ne_true (hs.symm.trans hst)
  · cases stamped_cases hv with
    | inl he => exact he ▸ hreach
    | inr hst => exact h.reached v hst hlv

theorem Search.visitLit (h : Search p T query unfinished st) {v : CNFVar} {reason : List CNFLit} {x : CNFLit}
    (hreach : Reaches p query.var v) (hr : p.reason v = some reason) (hxr : x ∈ reason)
    (hx : st.stamps x.var = true ∨ -x ∈ T) :
    Search p T query unfinished (visitLit p st x) ∧ Visited T st (visitLit p st x) ∧
      (visitLit p st x).stamps x.var = true := by
  unfold AssignmentAnalysis.visitLit
  split
  · rename_i hs
    exact ⟨h, .refl T st, hs⟩
  · rename_i hs
    have hT : -x ∈ T := hx.resolve_left hs
    have hs := Bool.eq_false_of_not_eq_true hs
    have hv : x.var ∈ T.map CNFLit.var := List.mem_map.mpr ⟨-x, hT, rfl⟩
    have hcount := count_set_true g.nodup_vars hv hs
    dsimp only
    split
    · rename_i hl
      have hreach := Reaches.step hreach hr hxr hl
      split
      · rename_i hsome
        refine ⟨h.enqueue hT (Option.isSome_iff_ne_none.mp hsome) hreach,
          ⟨fun w hw => set_true_of_true hw, ?_⟩, set_self _ _ _⟩
        show (x.var :: st.toAnalyze).length + _ ≤ _ + (st.stamps.set x.var true).count T
        rw [hcount, List.length_cons]
        omega
      · rename_i hnone
        refine ⟨h.collect g hs hT hl (Option.not_isSome_iff_eq_none.mp hnone) hreach,
          ⟨fun w hw => set_true_of_true hw, ?_⟩, set_self _ _ _⟩
        show st.toAnalyze.length + st.stamps.count T ≤ st.toAnalyze.length + (st.stamps.set x.var true).count T
        rw [hcount]
        omega
    · rename_i hl
      refine ⟨h.below hl, ⟨fun w hw => set_true_of_true hw, ?_⟩, set_self _ _ _⟩
      show st.toAnalyze.length + st.stamps.count T ≤ st.toAnalyze.length + (st.stamps.set x.var true).count T
      rw [hcount]
      omega

theorem Search.foldl_visitLit {v : CNFVar} {reason : List CNFLit} (hreach : Reaches p query.var v)
    (hr : p.reason v = some reason) (lits : List CNFLit) (hlits : lits ⊆ reason) :
    ∀ {st : State}, Search p T query unfinished st → (∀ x ∈ lits, st.stamps x.var = true ∨ -x ∈ T) →
      Search p T query unfinished (lits.foldl (AssignmentAnalysis.visitLit p) st) ∧
      Visited T st (lits.foldl (AssignmentAnalysis.visitLit p) st) ∧
      ∀ x ∈ lits, (lits.foldl (AssignmentAnalysis.visitLit p) st).stamps x.var = true := by
  induction lits with
  | nil => exact fun {st} h _ => ⟨h, .refl T st, fun _ hx => absurd hx List.not_mem_nil⟩
  | cons x lits ih =>
    intro st h hx
    obtain ⟨hx, hrest⟩ := List.forall_mem_cons.mp hx
    obtain ⟨hxr, hlits⟩ := List.cons_subset.mp hlits
    obtain ⟨h₁, v₁, s₁⟩ := h.visitLit g hreach hr hxr hx
    obtain ⟨h₂, v₂, s₂⟩ := ih hlits h₁ fun y hy => (hrest y hy).imp_left (v₁.stamps _)
    exact ⟨h₂, v₁.trans v₂, List.forall_mem_cons.mpr ⟨v₂.stamps _ s₁, s₂⟩⟩

theorem analyze_spec : ∀ (fuel : Nat) (st : State), Search p T query ∅ st →
    st.toAnalyze.length + (T.length - st.stamps.count T) < fuel →
    ∃ st', analyze p fuel st = some st'.result ∧ Search p T query ∅ st' ∧ st'.toAnalyze = [] := by
  intro fuel
  induction fuel with
  | zero => exact fun st _ hf => absurd hf (Nat.not_lt_zero _)
  | succ fuel ih =>
    intro st h hf
    unfold analyze
    cases hw : st.toAnalyze with
    | nil => exact ⟨st, rfl, h, hw⟩
    | cons currentVar toAnalyze =>
      obtain ⟨hv, hne, hreach⟩ := h.waiting currentVar (hw ▸ List.mem_cons_self)
      obtain ⟨reason, hr⟩ := Option.ne_none_iff_exists'.mp hne
      obtain ⟨l, hl, rfl⟩ := List.mem_map.mp hv
      have hpop := h.pop hw
      have hlits : ∀ x ∈ reason, st.stamps.set l.var true x.var = true ∨ -x ∈ T := by
        intro x hx
        by_cases hxl : x = l
        · rw [hxl]
          exact .inl (set_self _ _ _)
        · exact .inr ((g.others hl hr).2 x hx hxl).1
      obtain ⟨hsearch, hvisited, hall⟩ := hpop.foldl_visitLit g hreach hr reason (List.Subset.refl _) hlits
      simp only [hr]
      apply ih _ (hsearch.close hr hall)
      have hsize := hvisited.size
      have hlen : st.toAnalyze.length = toAnalyze.length + 1 := by rw [hw, List.length_cons]
      have hmono : st.stamps.count T ≤ (st.stamps.set l.var true).count T :=
        List.countP_mono_left fun y _ hy => set_true_of_true hy
      have hle := (reason.foldl (AssignmentAnalysis.visitLit p)
        { st with toAnalyze := toAnalyze, stamps := st.stamps.set l.var true }).stamps.count_le T
      dsimp only at hsize hle
      omega

/-- The query, and then exactly the entries without a reason on the current level
that are reached from it. -/
theorem analyzeAssignment_exact {fuel : Nat} (hf : T.length + 1 < fuel) (hq : query.var ∈ T.map CNFLit.var) :
    ∃ tail, analyzeAssignment p fuel query = some (query :: tail) ∧ (query :: tail).Nodup ∧
      (∀ l, l ∈ tail ↔ l ∈ T ∧ p.level l.var = p.currentLevel ∧ p.reason l.var = none ∧
        p.reason query.var ≠ none ∧ Reaches p query.var l.var) := by
  unfold analyzeAssignment
  split
  · rename_i hr
    refine ⟨[], rfl, List.nodup_singleton _, fun l => ⟨fun hl => absurd hl List.not_mem_nil, fun hl => ?_⟩⟩
    exact absurd hr hl.2.2.2.1
  · rename_i hr
    have hstart : Search p T query ∅ ⟨.empty, [query.var], [query]⟩ := by
      refine ⟨rfl, fun l => ⟨fun hl => absurd hl List.not_mem_nil, fun hl => absurd hl.2.1 Bool.false_ne_true⟩,
        List.nodup_nil, fun v hv => absurd hv Bool.false_ne_true, ?_, fun v reason hv _ => .inl ?_⟩
      · exact List.forall_mem_singleton.mpr ⟨hq, hr, .start⟩
      · rw [hv.resolve_right fun hst => absurd hst.1 Bool.false_ne_true]
        exact List.mem_singleton_self _
    obtain ⟨st, he, h, hw⟩ := analyze_spec g fuel _ hstart (by
      show 1 + _ < fuel
      omega)
    refine ⟨st.result.tail, ?_, ?_, fun l => ?_⟩
    · rw [he, ← h.head]
    · refine List.nodup_cons.mpr ⟨fun hm => ?_, h.nodup⟩
      exact hr ((h.collected query).mp hm).2.2.2
    · rw [h.collected]
      constructor
      · intro hl
        obtain ⟨hlT, hst, hlv, hn⟩ := hl
        exact ⟨hlT, hlv, hn, hr, h.reached _ hst hlv⟩
      · intro hl
        obtain ⟨hlT, hlv, hn, -, hreach⟩ := hl
        refine ⟨hlT, ?_, hlv, hn⟩
        cases h.stamped hw hreach with
        | inl he => exact absurd (he ▸ hn) hr
        | inr hst => exact hst.1

theorem analyzeAssignment_isSome {fuel : Nat} (hf : T.length + 1 < fuel) (hq : query.var ∈ T.map CNFLit.var) :
    (analyzeAssignment p fuel query).isSome = true := by
  obtain ⟨tail, he, -⟩ := analyzeAssignment_exact g hf hq
  rw [he]
  rfl

/-- What the reasons have forced follows by unit propagation from the levels below and
the collected entries. -/
theorem analyzeAssignment_derives (hΦ : ∀ l ∈ T, ∀ reason, p.reason l.var = some reason → reason.toFinset ∈ Φ)
    {fuel : Nat} (hf : T.length + 1 < fuel) (hq : -query ∈ T) (hr : p.reason query.var ≠ none) {tail : List CNFLit}
    (he : analyzeAssignment p fuel query = some (query :: tail)) :
    Derives Φ {l | l ∈ T ∧ p.level l.var ≠ p.currentLevel ∨ l ∈ tail} (-query) := by
  have hv : query.var ∈ T.map CNFLit.var := List.mem_map.mpr ⟨-query, hq, rfl⟩
  obtain ⟨tail', he', -, htail⟩ := analyzeAssignment_exact g hf hv
  obtain rfl : tail = tail' := (List.cons.inj (Option.some.inj (he.symm.trans he'))).2
  refine derives_of_closed (W := {l | p.level l.var ≠ p.currentLevel ∨ Reaches p query.var l.var}) ?_ _ hq
    (.inr .start)
  intro pre l hp hW
  have hl : l ∈ T := hp.subset (List.mem_append_right _ (List.mem_singleton_self l))
  by_cases hlv : p.level l.var ≠ p.currentLevel
  · exact .inl (.given (.inl ⟨hl, hlv⟩))
  · have hreach : Reaches p query.var l.var := hW.resolve_left hlv
    cases hreason : p.reason l.var with
    | none => exact .inl (.given (.inr ((htail l).mpr ⟨hl, not_not.mp hlv, hreason, hr, hreach⟩)))
    | some reason =>
      obtain ⟨hlr, ho⟩ := g.reason pre l hp reason hreason
      refine .inr ⟨reason.toFinset, hΦ l hl reason hreason, List.mem_toFinset.mpr hlr, fun x hx hne => ?_⟩
      have hx := List.mem_toFinset.mp hx
      refine ⟨ho x hx hne, ?_⟩
      by_cases hxl : p.level x.var = p.currentLevel
      · exact .inr (show Reaches p query.var x.var from .step hreach hreason hx hxl)
      · exact .inl hxl

end

end AssignmentAnalysis

end JamSAT
