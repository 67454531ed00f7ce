import JamSAT.ClausalProof
import JamSAT.CNFProblemSound
import JamSAT.JustifiedTrail
import JamSAT.OnlineDRATChecker
import JamSAT.SolverData

/-!
# What the proof checker accepts

In the states that matter the trail of the checker holds consequences of the problem
and of the lemmas accepted so far, so a conflict is one of unit propagation.
-/

namespace JamSAT

open UnitLogic Assignment

namespace OnlineDRATChecker

structure Database (Φ : Set (Finset CNFLit)) (c : OnlineDRATChecker) : Prop where
  justified : c.m_assignment.Justified Φ ∅ {r | r < c.m_clauses.length}
  size : c.m_assignment.size = c.m_maxVar + 1
  level : c.m_assignment.currentLevel = 0

structure Added (Φ : Set (Finset CNFLit)) (c c' : OnlineDRATChecker) : Prop where
  database : Database Φ c'
  maxVar : c.m_maxVar ≤ c'.m_maxVar
  state : c'.m_currentState = c.m_currentState ∨ c'.m_currentState = .VALIDATED_UNSAT ∧ Conflict Φ ∅

section
variable {Φ : Set (Finset CNFLit)} {c c' : OnlineDRATChecker} {clause : List CNFLit} {lit : CNFLit}
  {assignment : Assignment}

theorem Database.added (h : Database Φ c) : Added Φ c c := ⟨h, Nat.le_refl _, .inl rfl⟩

theorem Database.state (h : Database Φ c) (s : State) : Database Φ { c with m_currentState := s } :=
  ⟨h.justified, h.size, h.level⟩

theorem Database.mono {Ψ : Set (Finset CNFLit)} (h : Database Φ c) (hs : Φ ⊆ Ψ) : Database Ψ c :=
  ⟨h.justified.mono hs (Set.Subset.refl _), h.size, h.level⟩

theorem Added.trans {c'' : OnlineDRATChecker} (h : Added Φ c c') (h' : Added Φ c' c'') : Added Φ c c'' where
  database := h'.database
  maxVar := h.maxVar.trans h'.maxVar
  state := by
    cases h'.state with
    | inl he => rw [he]; exact h.state
    | inr hc => exact .inr hc

theorem Database.addUnaryClause (h : Database Φ c) (hΦ : {lit} ∈ Φ) (hv : lit.var ≤ c.m_maxVar) :
    Added Φ c (c.addUnaryClause lit) := by
  have hd : Derives Φ ∅ lit := .of_unit hΦ
  unfold OnlineDRATChecker.addUnaryClause
  dsimp only
  rw [if_neg (Nat.not_lt.mpr hv)]
  by_cases hdet : (c.m_assignment.getAssignment lit).isDeterminate = true
  · rw [if_pos hdet]
    by_cases hf : (c.m_assignment.getAssignment lit).isFalse = true
    · rw [if_pos hf]
      refine ⟨h.state _, Nat.le_refl _, .inr ⟨rfl, .inr ⟨lit, hd, ?_⟩⟩⟩
      exact h.justified.neg_derived (TBool.isFalse_iff.mp hf)
    · rw [if_neg hf]
      exact h.added
  · rw [if_neg hdet]
    have hindet : c.m_assignment.getAssignment lit = .INDETERMINATE := not_not.mp fun hne =>
      hdet (TBool.isDeterminate_iff.mpr hne)
    have happend := h.justified.append (m := .includeLemmas) hindet (by rw [h.size]; omega) hd
    generalize c.m_assignment.append lit .includeLemmas = result at happend
    obtain ⟨conflicting, assignment⟩ := result
    cases conflicting with
    | none =>
      obtain ⟨hj, hext⟩ := happend
      exact ⟨⟨hj, hext.size.trans h.size, hext.currentLevel.trans h.level⟩, Nat.le_refl _, .inl rfl⟩
    | some conflicting =>
      obtain ⟨⟨hj, hext⟩, hconflict⟩ := happend
      exact ⟨⟨hj, hext.size.trans h.size, hext.currentLevel.trans h.level⟩, Nat.le_refl _, .inr ⟨rfl, hconflict⟩⟩

/-- The loop that raises the maximum variable makes room for all literals. -/
theorem foldl_raiseMaxVar {R : Set ClauseRef} (lits : List CNFLit) (hj : c.m_assignment.Justified Φ ∅ R)
    (hs : c.m_assignment.size = c.m_maxVar + 1) (hl : c.m_assignment.currentLevel = 0) :
    ∃ a maxVar, lits.foldl raiseMaxVar c = { c with m_maxVar := maxVar, m_assignment := a } ∧
      a.Justified Φ ∅ R ∧ a.size = maxVar + 1 ∧ a.currentLevel = 0 ∧ a.mem = c.m_assignment.mem ∧
      c.m_maxVar ≤ maxVar ∧ ∀ l ∈ lits, l.var ≤ maxVar := by
  induction lits generalizing c with
  | nil => exact ⟨_, _, rfl, hj, hs, hl, rfl, Nat.le_refl _, List.forall_mem_nil _⟩
  | cons lit lits ih =>
    rw [List.foldl_cons]
    have hstep : ∃ a maxVar, c.raiseMaxVar lit = { c with m_maxVar := maxVar, m_assignment := a } ∧
        a.Justified Φ ∅ R ∧ a.size = maxVar + 1 ∧ a.currentLevel = 0 ∧ a.mem = c.m_assignment.mem ∧
        c.m_maxVar ≤ maxVar ∧ lit.var ≤ maxVar := by
      unfold raiseMaxVar
      split
      next hlt =>
        refine ⟨_, lit.var, rfl, hj.increaseMaxVar _, ?_, ?_, increaseMaxVar_mem _, hlt.le, Nat.le_refl _⟩
        · unfold Assignment.increaseMaxVar
          rw [if_neg (by omega)]
        · rw [increaseMaxVar_currentLevel]
          exact hl
      next hle => exact ⟨_, _, rfl, hj, hs, hl, rfl, Nat.le_refl _, Nat.le_of_not_lt hle⟩
    obtain ⟨a, maxVar, he, hj', hs', hl', hm, hle, hlit⟩ := hstep
    rw [he]
    obtain ⟨a', maxVar', he', hj', hs', hl', hm', hle', hlits⟩ :=
      ih (c := { c with m_maxVar := maxVar, m_assignment := a }) hj' hs' hl'
    exact ⟨a', maxVar', he', hj', hs', hl', hm'.trans hm, hle.trans hle',
      List.forall_mem_cons.mpr ⟨hlit.trans hle', hlits⟩⟩

theorem Database.addNonUnaryClause (h : Database Φ c) (hΦ : clause.toFinset ∈ Φ) (hlen : 2 ≤ clause.length) :
    Added Φ c (c.addNonUnaryClause clause) := by
  unfold OnlineDRATChecker.addNonUnaryClause
  dsimp only
  let sorted := clause.insertionSort fun a b => a.rawValue ≤ b.rawValue
  have hperm : sorted.Perm clause := List.perm_insertionSort _ clause
  have hfresh : c.m_clauses.length ∉ {r | r < c.m_clauses.length} := Nat.lt_irrefl _
  obtain ⟨a, maxVar, he, hj, hs, hl, hm, hle, hlits⟩ := foldl_raiseMaxVar clause
    (c := { c with
      m_clauses := c.m_clauses ++ [c.m_clauses.length]
      m_assignment := c.m_assignment.writeClause c.m_clauses.length (.ofLits sorted) })
    (h.justified.writeClause hfresh _) h.size h.level
  have hclause : a.mem c.m_clauses.length = .ofLits sorted := by
    rw [hm]
    exact writeClause_mem_self _ _ _
  have hsame := sameTrail_registerClause a c.m_clauses.length
  rw [he]
  refine ⟨⟨?_, hsame.size.trans hs, hsame.currentLevel.trans hl⟩, hle, .inl rfl⟩
  have hregister : (a.registerClause c.m_clauses.length).Justified Φ ∅
      (insert c.m_clauses.length {r | r < c.m_clauses.length}) := by
    refine hj.registerClause hfresh ?_ ?_ ?_ ?_ <;> rw [hclause]
    · show 2 ≤ sorted.length
      rwa [hperm.length_eq]
    · rfl
    · intro l hl
      rw [hs]
      exact Nat.lt_succ_of_le (hlits l (hperm.mem_iff.mp hl))
    · have hset : (Clause.ofLits sorted).litSet = clause.toFinset := by
        ext x
        rw [Clause.mem_litSet, List.mem_toFinset]
        exact hperm.mem_iff
      rw [hset]
      exact hΦ
  have hset : insert c.m_clauses.length {r | r < c.m_clauses.length} =
      {r | r < (c.m_clauses ++ [c.m_clauses.length]).length} := by
    ext r
    rw [List.length_append, List.length_singleton, Set.mem_insert_iff]
    exact (Nat.lt_succ_iff_lt_or_eq.trans or_comm).symm
  rw [← hset]
  exact hregister

theorem Database.addClause (h : Database Φ c) (hΦ : clause.toFinset ∈ Φ)
    (hv : ∀ lit, clause = [lit] → lit.var ≤ c.m_maxVar) : Added Φ c (c.addClause clause) := by
  match clause with
  | [] => exact h.added
  | [newFact] => exact h.addUnaryClause (by simpa using hΦ) (hv newFact rfl)
  | a :: b :: lits => exact h.addNonUnaryClause hΦ (by simp)

/-! ## The problem -/

def Units (Φ : Set (Finset CNFLit)) (c : OnlineDRATChecker) (facts : List CNFLit) : Prop :=
  ∀ lit ∈ facts, {lit} ∈ Φ ∧ lit.var ≤ c.m_maxVar

theorem Database.addClauses {clauses : List CNFClause} {facts : List CNFLit} (h : Database Φ c)
    (hΦ : ∀ clause ∈ clauses, clause.toFinset ∈ Φ) (hv : ∀ clause ∈ clauses, ∀ l ∈ clause, l.var ≤ c.m_maxVar)
    (hf : Units Φ c facts) :
    Added Φ c (addClauses clauses c facts).1 ∧ Units Φ (addClauses clauses c facts).1 (addClauses clauses c facts).2 := by
  induction clauses generalizing c facts with
  | nil => exact ⟨h.added, hf⟩
  | cons rawClause clauses ih =>
    obtain ⟨hraw, hΦ⟩ := List.forall_mem_cons.mp hΦ
    obtain ⟨hrawv, hv⟩ := List.forall_mem_cons.mp hv
    have hset : (withoutRedundancies rawClause).toFinset = rawClause.toFinset := by
      ext x
      rw [List.mem_toFinset, List.mem_toFinset, mem_withoutRedundancies]
    have hvars : ∀ l ∈ withoutRedundancies rawClause, l.var ≤ c.m_maxVar :=
      fun l hl => hrawv l (mem_withoutRedundancies.mp hl)
    rw [← hset] at hraw
    unfold OnlineDRATChecker.addClauses
    generalize withoutRedundancies rawClause = lits at hraw hvars
    match lits with
    | [] => exact ⟨⟨h.state _, Nat.le_refl _, .inr ⟨rfl, .inl ⟨∅, hraw, fun x hx => absurd hx (Finset.notMem_empty x)⟩⟩⟩, hf⟩
    | [fact] =>
      refine ih h hΦ hv fun lit hl => ?_
      cases List.mem_append.mp hl with
      | inl hl => exact hf lit hl
      | inr hl =>
        obtain rfl := List.mem_singleton.mp hl
        exact ⟨by simpa using hraw, hvars _ (List.mem_singleton_self _)⟩
    | a :: b :: lits =>
      dsimp only
      split
      · exact ih h hΦ hv hf
      · have hadd := h.addClause hraw fun lit he => by cases he
        obtain ⟨hrest, hfacts⟩ := ih hadd.database hΦ (fun clause hc l hl => (hv clause hc l hl).trans hadd.maxVar)
          fun lit hl => ⟨(hf lit hl).1, (hf lit hl).2.trans hadd.maxVar⟩
        exact ⟨hadd.trans hrest, hfacts⟩

theorem Database.addFacts {facts : List CNFLit} (h : Database Φ c) (hf : Units Φ c facts) :
    Added Φ c (facts.foldl (fun c lit => c.addClause [lit]) c) := by
  induction facts generalizing c with
  | nil => exact h.added
  | cons lit facts ih =>
    obtain ⟨hlit, hf⟩ := List.forall_mem_cons.mp hf
    have hadd : Added Φ c (c.addClause [lit]) := h.addUnaryClause hlit.1 hlit.2
    rw [List.foldl_cons]
    exact hadd.trans (ih hadd.database fun l hl => ⟨(hf l hl).1, (hf l hl).2.trans hadd.maxVar⟩)

/-! ## The check -/

/-- What the check of a lemma whose negation is `A` leaves. -/
theorem findConflict_spec {A : Set CNFLit} {R : Set ClauseRef} {s t : Assignment} {b : Bool} (h : s.Justified Φ A R)
    (hA : ∀ l ∈ clause, -l ∈ A) (hf : findConflict clause s = some (b, t)) :
    t.Justified Φ A R ∧ Extends s t ∧ (b = true → Conflict Φ A) := by
  induction clause generalizing s with
  | nil =>
    cases hf
    exact ⟨h, .refl _, fun he => by cases he⟩
  | cons assignLit clause ih =>
    obtain ⟨hlit, hA⟩ := List.forall_mem_cons.mp hA
    have hd : Derives Φ A (-assignLit) := .given hlit
    unfold findConflict at hf
    split at hf
    · cases hf
    next hsize =>
      dsimp only at hf
      split at hf
      next hdet =>
        split at hf
        next hfalse =>
          cases hf
          exact ⟨h, .refl _, fun _ => .inr ⟨_, hd, h.neg_derived (TBool.isFalse_iff.mp hfalse)⟩⟩
        next => exact ih h hA hf
      next hdet =>
        have hindet : s.getAssignment (-assignLit) = .INDETERMINATE := not_not.mp fun hne =>
          hdet (TBool.isDeterminate_iff.mpr hne)
        have hassign : Extends s (s.assign (-assignLit) none) := .assign h.trail hindet none
        have happend := h.append (m := .includeLemmas) hindet (by rw [CNFLit.var_neg]; omega) hd
        generalize s.append (-assignLit) .includeLemmas = result at happend hf
        obtain ⟨conflicting, u⟩ := result
        cases conflicting with
        | some conflicting =>
          cases hf
          exact ⟨happend.1.1, hassign.trans happend.1.2, fun _ => happend.2⟩
        | none =>
          obtain ⟨hu, huext⟩ := happend
          obtain ⟨ht, hext, hb⟩ := ih hu hA hf
          exact ⟨ht, (hassign.trans huext).trans hext, hb⟩

theorem findConflict_isSome {A : Set CNFLit} {R : Set ClauseRef} {s : Assignment} (h : s.Justified Φ A R)
    (hA : ∀ l ∈ clause, -l ∈ A) (hv : ∀ l ∈ clause, l.var < s.size) : (findConflict clause s).isSome = true := by
  induction clause generalizing s with
  | nil => rfl
  | cons assignLit clause ih =>
    obtain ⟨hlit, hA⟩ := List.forall_mem_cons.mp hA
    obtain ⟨hvlit, hv⟩ := List.forall_mem_cons.mp hv
    unfold findConflict
    rw [if_neg (Nat.not_le.mpr hvlit)]
    dsimp only
    split
    · split
      · rfl
      · exact ih h hA hv
    next hdet =>
      have hindet : s.getAssignment (-assignLit) = .INDETERMINATE := not_not.mp fun hne =>
        hdet (TBool.isDeterminate_iff.mpr hne)
      have happend := h.append (m := .includeLemmas) hindet (by rw [CNFLit.var_neg]; exact hvlit) (.given hlit)
      generalize s.append (-assignLit) .includeLemmas = result at happend
      obtain ⟨conflicting, u⟩ := result
      cases conflicting with
      | some conflicting => rfl
      | none =>
        obtain ⟨hu, huext⟩ := happend
        exact ih hu hA fun l hl => (hv l hl).trans_eq huext.size.symm

theorem Database.isATClause {b : Bool} (h : Database Φ c) (hc : c.isATClause clause = some (b, c')) :
    (∃ a, c' = { c with m_assignment := a } ∧ a.trail = c.m_assignment.trail) ∧ Database Φ c' ∧
      (b = true → RUP Φ clause.toFinset) := by
  obtain ⟨⟨b, t⟩, hf, he⟩ := Option.map_eq_some_iff.mp hc
  cases he
  have hnew : c.m_assignment.newLevel.Justified Φ {l | -l ∈ clause.toFinset} {r | r < c.m_clauses.length} :=
    (h.justified.mono (Set.Subset.refl Φ) (Set.empty_subset _)).newLevel
  obtain ⟨ht, hext, hb⟩ := findConflict_spec hnew (fun l hl => by simpa using hl) hf
  have hlevel : t.currentLevel = c.m_assignment.currentLevel + 1 := hext.currentLevel
  have hlimit : c.m_assignment.newLevel.levelLimit (c.m_assignment.currentLevel + 1) =
      c.m_assignment.newLevel.trail.length := by
    unfold levelLimit Assignment.newLevel
    dsimp only
    rw [← h.justified.trail.limits_length, List.getD_append_right _ _ _ _ (Nat.le_refl _), Nat.sub_self]
    rfl
  obtain ⟨hundo, htrail⟩ := ht.undoToLevel hext h.justified.newLevel (by rw [hlevel]; exact Nat.lt_succ_self _) hlimit
  refine ⟨⟨_, rfl, htrail⟩, ⟨hundo, ?_, ?_⟩, hb⟩
  · rw [undoToLevel_size]
    exact hext.size.trans h.size
  · rw [undoToLevel_currentLevel]
    exact h.level

theorem Database.isATClause_isSome (h : Database Φ c) (hv : ∀ l ∈ clause, l.var ≤ c.m_maxVar) :
    (c.isATClause clause).isSome = true := by
  have hnew : c.m_assignment.newLevel.Justified Φ {l | -l ∈ clause} {r | r < c.m_clauses.length} :=
    (h.justified.mono (Set.Subset.refl Φ) (Set.empty_subset _)).newLevel
  unfold OnlineDRATChecker.isATClause
  dsimp only
  rw [Option.isSome_map]
  refine findConflict_isSome hnew (fun l hl => ?_) fun l hl => ?_
  · show - -l ∈ clause
    rwa [neg_neg]
  · have hs : c.m_assignment.newLevel.size = c.m_maxVar + 1 := h.size
    have := hv l hl
    omega

theorem var_le_of_isATClause {b : Bool} (h : Database Φ c) (hc : c.isATClause [lit] = some (b, c')) :
    lit.var ≤ c.m_maxVar := by
  obtain ⟨r, hf, -⟩ := Option.map_eq_some_iff.mp hc
  unfold findConflict at hf
  split at hf
  · cases hf
  next hsize =>
    have hs : c.m_assignment.newLevel.size = c.m_maxVar + 1 := h.size
    omega

theorem addNonUnaryClause_state (c : OnlineDRATChecker) (clause : List CNFLit) :
    (c.addNonUnaryClause clause).m_currentState = c.m_currentState := by
  have hfold : ∀ lits : List CNFLit, ∀ c : OnlineDRATChecker, (lits.foldl raiseMaxVar c).m_currentState = c.m_currentState := by
    intro lits
    induction lits with
    | nil => exact fun c => rfl
    | cons lit lits ih =>
      intro c
      rw [List.foldl_cons, ih]
      unfold raiseMaxVar
      split <;> rfl
  exact hfold clause _

end

/-! ## Runs -/

/-- A lemma of one literal fails its check. It is added nevertheless, and if it then
contradicts a fact the checker believes to have seen the end of a proof. -/
def RejectsUnit (c : OnlineDRATChecker) (call : Call) : Prop :=
  c.m_currentState = .NORMAL ∧ ∃ lit c', call.added = some [lit] ∧ c.isATClause [lit] = some (false, c')

def satisfiable : List CNFClause := [[⟨0, .positive⟩, ⟨1, .positive⟩], [⟨0, .negative⟩]]

example : ([Call.addATClause [⟨1, .negative⟩], .addATClause []].foldlM call
    (createOnlineDRATChecker (.ofClauses satisfiable))).map hasValidatedUnsat = some true := by decide +kernel

/-- The checker after calls that hand over `lemmas`, no unit among them failing its check. -/
inductive Checked (problem : CNFProblem) : List (List CNFLit) → OnlineDRATChecker → Prop
  | create : Checked problem [] (createOnlineDRATChecker problem)
  | call {lemmas : List (List CNFLit)} {c c' : OnlineDRATChecker} {call : Call} : Checked problem lemmas c →
      ¬ c.RejectsUnit call → c.call call = some c' → Checked problem (lemmas ++ call.added.toList) c'

def premises (clauses : List CNFClause) : Multiset (Finset CNFLit) := ↑(clauses.map List.toFinset)

def proofLines (lemmas : List (List CNFLit)) : List (ProofLine CNFLit) := lemmas.map fun clause => .add clause.toFinset

def sets (P : Multiset (Finset CNFLit)) (lemmas : List (List CNFLit)) : Set (Finset CNFLit) :=
  {C | C ∈ clausesAfter P (proofLines lemmas)}

structure Standing (P : Multiset (Finset CNFLit)) (lemmas : List (List CNFLit)) (c : OnlineDRATChecker) : Prop where
  normal : c.m_currentState = .NORMAL → Database (sets P lemmas) c ∧ ValidProof P (proofLines lemmas)
  validated : c.m_currentState = .VALIDATED_UNSAT → Conflict (sets P lemmas) ∅ ∧ ValidProof P (proofLines lemmas)
  finalized : c.m_currentState = .FINALIZED_PROOF → Refutes P (proofLines lemmas)

section
variable {P : Multiset (Finset CNFLit)} {lemmas : List (List CNFLit)} {c c' : OnlineDRATChecker} {clause : List CNFLit}
  {clauses : List CNFClause}

theorem proofLines_append (lemmas : List (List CNFLit)) (clause : List CNFLit) :
    proofLines (lemmas ++ [clause]) = proofLines lemmas ++ [.add clause.toFinset] := by
  unfold proofLines
  rw [List.map_append]
  rfl

theorem mem_sets_append {C : Finset CNFLit} :
    C ∈ sets P (lemmas ++ [clause]) ↔ C = clause.toFinset ∨ C ∈ sets P lemmas := by
  unfold sets
  rw [proofLines_append, clausesAfter_append]
  exact Multiset.mem_cons

/-- The states in which nothing is claimed. -/
theorem Standing.of_detected
    (h : c.m_currentState = .DETECTED_INVALID_LEMMA ∨ c.m_currentState = .DETECTED_UNSUPPORTED_LEMMA) :
    Standing P lemmas c := by
  refine ⟨fun he => ?_, fun he => ?_, fun he => ?_⟩ <;> rw [he] at h <;> cases h <;> contradiction

theorem Standing.of_finalized (hs : c.m_currentState = .FINALIZED_PROOF) (h : Refutes P (proofLines lemmas)) :
    Standing P lemmas c := by
  refine ⟨fun he => ?_, fun he => ?_, fun _ => h⟩ <;> rw [he] at hs <;> cases hs

theorem Added.standing (h : Added (sets P lemmas) c c') (hs : c.m_currentState = .NORMAL)
    (hp : ValidProof P (proofLines lemmas)) : Standing P lemmas c' := by
  cases h.state with
  | inl hs' =>
    rw [hs] at hs'
    refine ⟨fun _ => ⟨h.database, hp⟩, fun he => ?_, fun he => ?_⟩ <;> rw [he] at hs' <;> cases hs'
  | inr hc =>
    refine ⟨fun he => ?_, fun _ => ⟨hc.2, hp⟩, fun he => ?_⟩ <;> rw [hc.1] at he <;> cases he

/-- A lemma that has passed the check is added. -/
theorem Database.addLemma (h : Database (sets P lemmas) c) (hs : c.m_currentState = .NORMAL)
    (hp : ValidProof P (proofLines lemmas)) (hr : RUP (sets P lemmas) clause.toFinset)
    (hv : ∀ lit, clause = [lit] → lit.var ≤ c.m_maxVar) : Standing P (lemmas ++ [clause]) (c.addClause clause) := by
  have hvalid : ValidProof P (proofLines (lemmas ++ [clause])) := by
    rw [proofLines_append]
    exact validProof_append.mpr ⟨hp, hr, trivial⟩
  have hadd := (h.mono fun C hC => mem_sets_append.mpr (.inr hC)).addClause (mem_sets_append.mpr (.inl rfl)) hv
  exact hadd.standing hs hvalid

/-- A lemma that has failed the check is added, too. -/
theorem Standing.of_failed (hs : c.m_currentState = .DETECTED_INVALID_LEMMA) (hn : ∀ lit, clause ≠ [lit]) :
    Standing P lemmas (c.addClause clause) := by
  match clause with
  | [] => exact .of_detected (.inl hs)
  | [lit] => exact absurd rfl (hn lit)
  | a :: b :: lits => exact .of_detected (.inl ((addNonUnaryClause_state c _).trans hs))

theorem Standing.create (hr : ∀ clause ∈ clauses, ∀ l ∈ clause, l.var < CNFVar.undefinedVariable) :
    Standing (premises clauses) [] (createOnlineDRATChecker (.ofClauses clauses)) := by
  have hclauses : (CNFProblem.ofClauses clauses).clauses = clauses := by rw [CNFProblem.ofClauses_eq]
  have hvars : ∀ clause ∈ clauses, ∀ l ∈ clause, l.var ≤ (CNFProblem.ofClauses clauses).getMaxVar := by
    intro clause hc l hl
    have hmem : l ∈ clauses.flatten := List.mem_flatten.mpr ⟨clause, hc, hl⟩
    unfold CNFProblem.getMaxVar CNFProblem.isEmpty
    rw [CNFProblem.ofClauses_eq]
    rw [if_neg (by rw [List.isEmpty_iff]; exact List.ne_nil_of_mem hc)]
    exact (CNFProblem.foldl_raiseMaxVar (CNFProblem.var_regular hr) (List.ne_nil_of_mem hmem) le_rfl).1 l hmem
  let start : OnlineDRATChecker := ⟨.NORMAL, [], (CNFProblem.ofClauses clauses).getMaxVar, [],
    .new default (CNFProblem.ofClauses clauses).getMaxVar⟩
  have hstart : Database (sets (premises clauses) []) start := by
    refine ⟨?_, rfl, rfl⟩
    have hempty : {r | r < start.m_clauses.length} = (∅ : Set ClauseRef) := by
      ext r
      exact ⟨fun hr => absurd hr (Nat.not_lt_zero r), fun hr => absurd hr (Set.notMem_empty r)⟩
    rw [hempty]
    exact .new _ _
  have hset : ∀ clause ∈ clauses, clause.toFinset ∈ sets (premises clauses) [] :=
    fun clause hc => Multiset.mem_coe.mpr (List.mem_map_of_mem hc)
  obtain ⟨hadd, hfacts⟩ := hstart.addClauses hset hvars (List.forall_mem_nil _)
  have hall := hadd.trans (hadd.database.addFacts hfacts)
  unfold createOnlineDRATChecker addProblem
  rw [hclauses]
  exact hall.standing rfl trivial

theorem State.detected {s : State} (h : s ≠ .NORMAL) (h' : ¬ (s = .FINALIZED_PROOF ∨ s = .VALIDATED_UNSAT)) :
    s = .DETECTED_INVALID_LEMMA ∨ s = .DETECTED_UNSUPPORTED_LEMMA := by
  cases s with
  | NORMAL => exact absurd rfl h
  | VALIDATED_UNSAT => exact absurd (.inr rfl) h'
  | FINALIZED_PROOF => exact absurd (.inl rfl) h'
  | DETECTED_INVALID_LEMMA => exact .inl rfl
  | DETECTED_UNSUPPORTED_LEMMA => exact .inr rfl

theorem Standing.checked (h : Standing P lemmas c) (hs : c.m_currentState = .NORMAL)
    (hc : c.isATClause clause = some (true, c')) : Standing P (lemmas ++ [clause]) (c'.addClause clause) := by
  obtain ⟨hdb, hp⟩ := h.normal hs
  obtain ⟨⟨a, rfl, -⟩, hdb', hr⟩ := hdb.isATClause hc
  refine hdb'.addLemma hs hp (hr rfl) fun lit he => ?_
  have hle : lit.var ≤ c.m_maxVar := var_le_of_isATClause hdb (he ▸ hc)
  exact hle

theorem ne_unit {call : Call} (hn : ¬ c.RejectsUnit call) (hs : c.m_currentState = .NORMAL)
    (ha : call.added = some clause) (hc : c.isATClause clause = some (false, c')) (lit : CNFLit) : clause ≠ [lit] :=
  fun he => hn ⟨hs, lit, c', he ▸ ha, he ▸ hc⟩

theorem Standing.addATClause (h : Standing P lemmas c) (hn : ¬ c.RejectsUnit (.addATClause clause))
    (hc : c.addATClause clause = some c') : Standing P (lemmas ++ [clause]) c' := by
  unfold OnlineDRATChecker.addATClause at hc
  by_cases hs : c.m_currentState = .NORMAL
  · rw [if_neg (not_not.mpr hs)] at hc
    by_cases he : clause.isEmpty = true
    · rw [if_pos he] at hc
      cases hc
      exact .of_detected (.inl rfl)
    · rw [if_neg he] at hc
      obtain ⟨⟨hasATProperty, c₁⟩, hcheck, rfl⟩ := Option.map_eq_some_iff.mp hc
      cases hasATProperty with
      | true => exact h.checked hs hcheck
      | false => exact .of_failed rfl (ne_unit hn hs rfl hcheck)
  · rw [if_pos hs] at hc
    by_cases hv : c.m_currentState = .VALIDATED_UNSAT ∧ clause.isEmpty
    · rw [if_pos hv] at hc
      cases hc
      obtain ⟨hv, he⟩ := hv
      obtain ⟨hconflict, hvalid⟩ := h.validated hv
      refine .of_finalized rfl ?_
      rw [proofLines_append, List.isEmpty_iff.mp he]
      exact refutes_of_conflict hvalid hconflict
    · rw [if_neg hv] at hc
      by_cases hd : c.m_currentState = .FINALIZED_PROOF ∨ c.m_currentState = .VALIDATED_UNSAT
      · rw [if_pos hd] at hc
        cases hc
        exact .of_detected (.inr rfl)
      · rw [if_neg hd] at hc
        cases hc
        exact .of_detected (State.detected hs hd)

theorem Standing.addRATClause {pivotIdx : Nat} (h : Standing P lemmas c)
    (hn : ¬ c.RejectsUnit (.addRATClause clause pivotIdx)) (hc : c.addRATClause clause = some c') :
    Standing P (lemmas ++ [clause]) c' := by
  unfold OnlineDRATChecker.addRATClause at hc
  by_cases he : clause.isEmpty = true
  · rw [if_pos he] at hc
    cases hc
    exact .of_detected (.inl rfl)
  · rw [if_neg he] at hc
    by_cases hs : c.m_currentState = .NORMAL
    · rw [if_neg (not_not.mpr hs)] at hc
      obtain ⟨⟨hasRATProperty, c₂⟩, hrat, rfl⟩ := Option.map_eq_some_iff.mp hc
      obtain ⟨⟨hasATProperty, c₁⟩, hcheck, he⟩ := Option.map_eq_some_iff.mp hrat
      cases hasATProperty with
      | true =>
        cases he
        exact h.checked hs hcheck
      | false =>
        cases he
        exact .of_failed rfl (ne_unit hn hs rfl hcheck)
    · rw [if_pos hs] at hc
      by_cases hd : c.m_currentState = .FINALIZED_PROOF ∨ c.m_currentState = .VALIDATED_UNSAT
      · rw [if_pos hd] at hc
        cases hc
        exact .of_detected (.inr rfl)
      · rw [if_neg hd] at hc
        cases hc
        exact .of_detected (State.detected hs hd)

theorem Checked.standing (hr : ∀ clause ∈ clauses, ∀ l ∈ clause, l.var < CNFVar.undefinedVariable)
    (h : Checked (.ofClauses clauses) lemmas c) : Standing (premises clauses) lemmas c := by
  induction h with
  | create => exact .create hr
  | @call lemmas c c' call _ hn hc ih =>
    cases call with
    | addATClause clause => exact ih.addATClause hn hc
    | addRATClause clause pivotIdx => exact ih.addRATClause hn hc
    | deleteClause clause =>
      cases hc
      rw [Call.added, Option.toList_none, List.append_nil]
      exact ih
    | flush =>
      cases hc
      rw [Call.added, Option.toList_none, List.append_nil]
      exact ih

theorem models_premises {σ : Valuation CNFLit} (hσ : σ.Models (addedSets clauses)) :
    σ.Models {C | C ∈ premises clauses} := by
  intro C hC
  obtain ⟨clause, hclause, rfl⟩ := List.mem_map.mp (Multiset.mem_coe.mp hC)
  exact hσ _ ⟨clause, hclause, rfl⟩

/-- What has been validated is a refutation by reverse unit propagation, so the problem
has no model. -/
theorem validated_refutes (hr : ∀ clause ∈ clauses, ∀ l ∈ clause, l.var < CNFVar.undefinedVariable)
    (h : Checked (.ofClauses clauses) lemmas c) (hv : c.hasValidatedUnsat = true) :
    Refutes (premises clauses) (proofLines lemmas) ∧ Unsat (addedSets clauses) := by
  have hrefutes := (h.standing hr).finalized (by simpa [hasValidatedUnsat] using hv)
  exact ⟨hrefutes, fun σ hσ => hrefutes.unsat σ (models_premises hσ)⟩

def contradiction : List CNFClause :=
  [[⟨0, .positive⟩, ⟨1, .positive⟩], [⟨0, .negative⟩, ⟨1, .positive⟩], [⟨0, .positive⟩, ⟨1, .negative⟩],
    [⟨0, .negative⟩, ⟨1, .negative⟩]]

theorem contradiction_checked : ∃ c, Checked (.ofClauses contradiction) [[⟨1, .positive⟩], []] c ∧
    c.hasValidatedUnsat = true := by
  have hrun : ([Call.addATClause [⟨1, .positive⟩], .addATClause []].foldlM call
      (createOnlineDRATChecker (.ofClauses contradiction))).map hasValidatedUnsat = some true := by decide +kernel
  have hpass : ((createOnlineDRATChecker (.ofClauses contradiction)).isATClause [⟨1, .positive⟩]).map Prod.fst =
      some true := by decide +kernel
  obtain ⟨c, hc, hv⟩ := Option.map_eq_some_iff.mp hrun
  rw [List.foldlM_cons] at hc
  obtain ⟨c₁, hc₁, hc⟩ := Option.bind_eq_some_iff.mp hc
  rw [List.foldlM_cons] at hc
  obtain ⟨c₂, hc₂, hc⟩ := Option.bind_eq_some_iff.mp hc
  cases hc
  have hfirst : Checked (.ofClauses contradiction) [[⟨1, .positive⟩]] c₁ := by
    refine Checked.create.call (fun hn => ?_) hc₁
    obtain ⟨-, lit, c', ha, hc⟩ := hn
    cases ha
    rw [hc] at hpass
    cases hpass
  refine ⟨_, hfirst.call (fun hn => ?_) hc₂, hv⟩
  obtain ⟨-, lit, c', ha, -⟩ := hn
  cases ha

theorem contradiction_refuted :
    Refutes (premises contradiction) (proofLines [[⟨1, .positive⟩], []]) ∧ Unsat (addedSets contradiction) := by
  obtain ⟨c, hc, hv⟩ := contradiction_checked
  exact validated_refutes (by decide) hc hv

/-- Every lemma over the variables of the checker can be handed over, and while no lemma has
been rejected the facts of the checker follow from the problem. -/
theorem call_defined (hr : ∀ clause ∈ clauses, ∀ l ∈ clause, l.var < CNFVar.undefinedVariable)
    (h : Checked (.ofClauses clauses) lemmas c) :
    (∀ call : Call, (∀ clause, call.added = some clause → ∀ l ∈ clause, l.var ≤ c.m_maxVar) →
      (c.call call).isSome = true) ∧
    (c.m_currentState = .NORMAL → c.m_assignment.currentLevel = 0 ∧
      ∀ l ∈ c.m_assignment.trail, Entails (addedSets clauses) {l}) := by
  have hstanding := h.standing hr
  refine ⟨fun call hv => ?_, fun hs => ?_⟩
  · by_cases hs : c.m_currentState = .NORMAL
    · obtain ⟨hdb, -⟩ := hstanding.normal hs
      cases call with
      | addATClause clause =>
        show (c.addATClause clause).isSome = true
        unfold OnlineDRATChecker.addATClause
        rw [if_neg (not_not.mpr hs)]
        split
        · rfl
        · rw [Option.isSome_map]
          exact hdb.isATClause_isSome (hv clause rfl)
      | addRATClause clause pivotIdx =>
        show (c.addRATClause clause).isSome = true
        unfold OnlineDRATChecker.addRATClause isRATClause
        rw [if_neg (not_not.mpr hs)]
        split
        · rfl
        · rw [Option.isSome_map, Option.isSome_map]
          exact hdb.isATClause_isSome (hv clause rfl)
      | deleteClause clause => rfl
      | flush => rfl
    · cases call with
      | addATClause clause =>
        show (c.addATClause clause).isSome = true
        unfold OnlineDRATChecker.addATClause
        rw [if_pos hs]
        split_ifs <;> rfl
      | addRATClause clause pivotIdx =>
        show (c.addRATClause clause).isSome = true
        unfold OnlineDRATChecker.addRATClause
        rw [if_pos hs]
        split_ifs <;> rfl
      | deleteClause clause => rfl
      | flush => rfl
  · obtain ⟨hdb, hp⟩ := hstanding.normal hs
    refine ⟨hdb.level, fun l hl σ hσ => ⟨l, Finset.mem_singleton_self l, ?_⟩⟩
    exact (hdb.justified.derived l hl).holds (hp.models (models_premises hσ)) fun a ha => ha.elim

theorem contradiction_defined :
    ((createOnlineDRATChecker (.ofClauses contradiction)).call (.addATClause [⟨1, .positive⟩])).isSome = true ∧
    (createOnlineDRATChecker (.ofClauses contradiction)).m_assignment.currentLevel = 0 ∧
    ∀ l ∈ (createOnlineDRATChecker (.ofClauses contradiction)).m_assignment.trail,
      Entails (addedSets contradiction) {l} := by
  have hcreated : Checked (.ofClauses contradiction) [] (createOnlineDRATChecker (.ofClauses contradiction)) := .create
  obtain ⟨hdefined, hnormal⟩ := call_defined (by decide) hcreated
  refine ⟨hdefined _ fun clause he l hl => ?_, hnormal (by decide +kernel)⟩
  cases he
  rw [List.mem_singleton.mp hl]
  decide +kernel

end

end OnlineDRATChecker

end JamSAT
