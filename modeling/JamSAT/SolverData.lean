import JamSAT.FactCleanerSound
import JamSAT.CDCLSatSolver

/-!
# The formula kept by the solver

For the clauses `Φ` that have been added, the facts and the clause database are
implied by `Φ`. Conversely the facts and those clauses that are neither
redundant nor scheduled for deletion imply `Φ`.
-/

namespace JamSAT

open UnitLogic Assignment VecEdit

/-! ## Compressed clauses -/

theorem mem_destutter' {lits : List CNFLit} : ∀ {a x : CNFLit}, x ∈ a :: lits → x ∈ lits.destutter' (· ≠ ·) a := by
  induction lits with
  | nil => exact fun h => h
  | cons b lits ih =>
    intro a x hx
    by_cases he : a ≠ b
    · rw [List.destutter'_cons_pos _ he]
      rcases List.mem_cons.mp hx with rfl | hx
      · exact List.mem_cons_self
      · exact List.mem_cons_of_mem _ (ih hx)
    · rw [List.destutter'_cons_neg _ he]
      rw [not_not.mp he] at hx ⊢
      apply ih
      rcases List.mem_cons.mp hx with rfl | hx
      · exact List.mem_cons_self
      · exact hx

theorem mem_withoutRedundancies {lits : List CNFLit} {x : CNFLit} : x ∈ withoutRedundancies lits ↔ x ∈ lits := by
  rw [withoutRedundancies, ← List.mem_insertionSort (fun a b : CNFLit => a.rawValue ≤ b.rawValue) (l := lits)]
  generalize lits.insertionSort (fun a b => a.rawValue ≤ b.rawValue) = sorted
  cases sorted with
  | nil => exact Iff.rfl
  | cons a sorted =>
    exact ⟨fun hx => (List.destutter_sublist _ _).subset hx, fun hx => mem_destutter' hx⟩

theorem withoutRedundancies_isChain (lits : List CNFLit) :
    (withoutRedundancies lits).IsChain fun a b => a.rawValue < b.rawValue := by
  have hsorted : (withoutRedundancies lits).Pairwise fun a b => a.rawValue ≤ b.rawValue :=
    (List.pairwise_insertionSort (fun a b : CNFLit => a.rawValue ≤ b.rawValue) lits).sublist
      (List.destutter_sublist _ _)
  have hne : (withoutRedundancies lits).IsChain (· ≠ ·) := List.isChain_destutter _ _
  have hle : (withoutRedundancies lits).IsChain fun a b => a.rawValue ≤ b.rawValue := hsorted.isChain
  generalize withoutRedundancies lits = xs at hne hle
  induction xs with
  | nil => exact .nil
  | cons a xs ih =>
    cases xs with
    | nil => exact .singleton a
    | cons b xs =>
      rw [List.isChain_cons_cons] at hne hle ⊢
      refine ⟨lt_of_le_of_ne hle.1 fun he => hne.1 (CNFLit.rawValue_injective he), ih hne.2 hle.2⟩

theorem var_lt_of_rawValue_lt {a b : CNFLit} (h : a.rawValue < b.rawValue) (hn : a ≠ -b) : a.var < b.var := by
  by_contra hv
  have hab : a.var = b.var := by
    cases ha : a.sign <;> cases hb : b.sign <;> simp [CNFLit.rawValue, CNFSign.rawValue, ha, hb] at h <;> omega
  rcases CNFLit.eq_or_eq_neg_of_var_eq hab with he | he
  · exact absurd (he ▸ h) (lt_irrefl _)
  · exact hn he

theorem nodup_vars_of_sorted {lits : List CNFLit} (hs : lits.IsChain fun a b => a.rawValue < b.rawValue)
    (hc : hasComplementaryNeighbours lits = false) : (lits.map CNFLit.var).Nodup := by
  have hlt : lits.IsChain fun a b => a.var < b.var := by
    induction lits with
    | nil => exact .nil
    | cons a lits ih =>
      cases lits with
      | nil => exact .singleton a
      | cons b lits =>
        rw [List.isChain_cons_cons] at hs ⊢
        simp only [hasComplementaryNeighbours, Bool.or_eq_false_iff, beq_eq_false_iff_ne] at hc
        exact ⟨var_lt_of_rawValue_lt hs.1 hc.1, ih hs.2 hc.2⟩
  have hpair : (lits.map CNFLit.var).Pairwise (· < ·) := by
    rw [List.pairwise_map]
    have : IsTrans CNFLit fun a b => a.var < b.var := ⟨fun _ _ _ => lt_trans⟩
    exact List.isChain_iff_pairwise.mp hlt
  exact hpair.imp ne_of_lt

theorem exists_complementary {lits : List CNFLit} (h : hasComplementaryNeighbours lits = true) :
    ∃ l ∈ lits, -l ∈ lits := by
  induction lits with
  | nil => cases h
  | cons a lits ih =>
    cases lits with
    | nil => cases h
    | cons b lits =>
      simp only [hasComplementaryNeighbours, Bool.or_eq_true, beq_iff_eq] at h
      rcases h with rfl | h
      · exact ⟨b, by simp, by simp⟩
      · obtain ⟨l, hl, hn⟩ := ih h
        exact ⟨l, List.mem_cons_of_mem _ hl, List.mem_cons_of_mem _ hn⟩

theorem compressClause_some {clause lits : List CNFLit} (h : compressClause clause = some lits) :
    (∀ x, x ∈ lits ↔ x ∈ clause) ∧ (lits.map CNFLit.var).Nodup := by
  unfold compressClause at h
  split at h
  · cases h
  · rename_i hc
    cases h
    exact ⟨fun x => mem_withoutRedundancies,
      nodup_vars_of_sorted (withoutRedundancies_isChain clause) (Bool.eq_false_of_not_eq_true hc)⟩

theorem compressClause_none {clause : List CNFLit} (h : compressClause clause = none) (σ : Valuation CNFLit) :
    σ.Satisfies clause.toFinset := by
  unfold compressClause at h
  split at h
  · rename_i hc
    obtain ⟨l, hl, hn⟩ := exists_complementary hc
    by_cases hσ : σ.holds l
    · exact ⟨l, List.mem_toFinset.mpr (mem_withoutRedundancies.mp hl), hσ⟩
    · exact ⟨-l, List.mem_toFinset.mpr (mem_withoutRedundancies.mp hn), (σ.holds_neg l).mpr hσ⟩
  · cases h

/-- Only neighbours are compared, which finds every complementary pair of a clause. -/
theorem hasComplementaryNeighbours_withoutRedundancies {clause : List CNFLit} :
    hasComplementaryNeighbours (withoutRedundancies clause) = true ↔ ∃ l ∈ clause, -l ∈ clause := by
  constructor
  · intro h
    obtain ⟨l, hl, hn⟩ := exists_complementary h
    exact ⟨l, mem_withoutRedundancies.mp hl, mem_withoutRedundancies.mp hn⟩
  · intro ⟨l, hl, hn⟩
    by_contra hc
    have hnodup := nodup_vars_of_sorted (withoutRedundancies_isChain clause) (Bool.eq_false_of_not_eq_true hc)
    have he : -l = l :=
      List.inj_on_of_nodup_map hnodup (mem_withoutRedundancies.mpr hn) (mem_withoutRedundancies.mpr hl) l.var_neg
    exact l.neg_ne_self he

theorem withoutRedundancies_pairwise (lits : List CNFLit) :
    (withoutRedundancies lits).Pairwise fun a b => a.rawValue < b.rawValue := by
  have : IsTrans CNFLit fun a b => a.rawValue < b.rawValue := ⟨fun _ _ _ => lt_trans⟩
  exact List.isChain_iff_pairwise.mp (withoutRedundancies_isChain lits)

/-- Tautologies are left out, and every other clause becomes the increasing list of its literals. -/
theorem compressClause_correct (clause : List CNFLit) :
    (compressClause clause = none ↔ ∃ l ∈ clause, -l ∈ clause) ∧
    ∀ lits, compressClause clause = some lits →
      (lits.Pairwise fun a b => a.rawValue < b.rawValue) ∧ ∀ l, l ∈ lits ↔ l ∈ clause := by
  constructor
  · rw [← hasComplementaryNeighbours_withoutRedundancies]
    unfold compressClause
    split
    · simp [*]
    · simp [*]
  · intro lits h
    unfold compressClause at h
    split at h
    · cases h
    · cases h
      exact ⟨withoutRedundancies_pairwise clause, fun l => mem_withoutRedundancies⟩

/-! ## The invariant of the database -/

def addedSets (added : List (List CNFLit)) : Set (Finset CNFLit) := {C | ∃ clause ∈ added, C = clause.toFinset}

namespace CDCLSatSolver

/-- All facts and all clauses, the ones scheduled for deletion included. -/
def database (s : CDCLSatSolver) : Set (Finset CNFLit) :=
  units {l | l ∈ s.facts} ∪ clauseSets s.mem {c | c ∈ s.clauseDB}

def formula (s : CDCLSatSolver) : Set (Finset CNFLit) := formulaOf s.facts s.mem s.clauseDB

/-- The facts and the clauses that are never deleted for being redundant. -/
def kernel (s : CDCLSatSolver) : Set (Finset CNFLit) :=
  units {l | l ∈ s.facts} ∪ clauseSets s.mem {c | c ∈ s.clauseDB ∧
    (s.mem c).scheduledForDeletion = false ∧ (s.mem c).redundant = false}

structure Data (Φ : Set (Finset CNFLit)) (s : CDCLSatSolver) : Prop where
  nodup : s.clauseDB.Nodup
  fresh : ∀ c ∈ s.clauseDB, c < s.nextClause
  wf : ∀ c ∈ s.clauseDB, (s.mem c).WellFormed
  vars : ∀ c ∈ s.clauseDB, ∀ l ∈ (s.mem c).lits, l.var ≤ s.maxVar
  fact_vars : ∀ l ∈ s.facts, l.var ≤ s.maxVar
  regular : s.maxVar < CNFVar.undefinedVariable
  implied : ∀ σ : Valuation CNFLit, σ.Models Φ → σ.Models s.database
  complete : s.detectedUNSAT = false → ∀ σ : Valuation CNFLit, σ.Models s.kernel → σ.Models Φ
  detected : s.detectedUNSAT = true → ∅ ∈ Φ
  satisfied : ∀ c ∈ s.clauseDB, (s.mem c).scheduledForDeletion = true → ∃ x ∈ (s.mem c).lits, x ∈ s.facts
  lemmas_redundant : ∀ c ∈ s.lemmas, c ∈ s.clauseDB ∧ (s.mem c).redundant = true

structure Similar (s t : CDCLSatSolver) : Prop where
  clauseDB : t.clauseDB = s.clauseDB
  nextClause : t.nextClause = s.nextClause
  facts : t.facts = s.facts
  lemmas_eq : t.lemmas = s.lemmas
  maxVar : t.maxVar = s.maxVar
  detectedUNSAT : t.detectedUNSAT = s.detectedUNSAT
  lits : ∀ c, (t.mem c).lits.Perm (s.mem c).lits
  redundant : ∀ c, (t.mem c).redundant = (s.mem c).redundant
  scheduledForDeletion : ∀ c, (t.mem c).scheduledForDeletion = (s.mem c).scheduledForDeletion

theorem Similar.of_mem {s t : CDCLSatSolver} (hm : t.mem = s.mem) (hdb : t.clauseDB = s.clauseDB)
    (hn : t.nextClause = s.nextClause) (hf : t.facts = s.facts) (hl : t.lemmas = s.lemmas)
    (hv : t.maxVar = s.maxVar)
    (hd : t.detectedUNSAT = s.detectedUNSAT) : Similar s t :=
  ⟨hdb, hn, hf, hl, hv, hd, fun c => .of_eq (by rw [hm]), fun c => by rw [hm], fun c => by rw [hm]⟩

theorem Similar.trans {s t u : CDCLSatSolver} (h : Similar s t) (h' : Similar t u) : Similar s u where
  clauseDB := h'.clauseDB.trans h.clauseDB
  nextClause := h'.nextClause.trans h.nextClause
  facts := h'.facts.trans h.facts
  lemmas_eq := h'.lemmas_eq.trans h.lemmas_eq
  maxVar := h'.maxVar.trans h.maxVar
  detectedUNSAT := h'.detectedUNSAT.trans h.detectedUNSAT
  lits c := (h'.lits c).trans (h.lits c)
  redundant c := (h'.redundant c).trans (h.redundant c)
  scheduledForDeletion c := (h'.scheduledForDeletion c).trans (h.scheduledForDeletion c)

variable {Φ : Set (Finset CNFLit)} {s t : CDCLSatSolver}

theorem Similar.database (h : Similar s t) : t.database = s.database := by
  unfold CDCLSatSolver.database
  rw [h.facts, h.clauseDB, clauseSets_congr h.lits]

theorem Similar.kernel (h : Similar s t) : t.kernel = s.kernel := by
  unfold CDCLSatSolver.kernel
  simp only [h.facts, h.clauseDB, h.redundant, h.scheduledForDeletion]
  rw [clauseSets_congr h.lits]

theorem Data.congr (h : Data Φ s) (hs : Similar s t) : Data Φ t where
  nodup := hs.clauseDB ▸ h.nodup
  fresh := by
    rw [hs.clauseDB, hs.nextClause]
    exact h.fresh
  wf c hc := (h.wf c (hs.clauseDB ▸ hc)).of_perm (hs.lits c)
  vars c hc l hl := (h.vars c (hs.clauseDB ▸ hc) l ((hs.lits c).mem_iff.mp hl)).trans_eq hs.maxVar.symm
  fact_vars := by
    rw [hs.facts, hs.maxVar]
    exact h.fact_vars
  regular := hs.maxVar ▸ h.regular
  implied := hs.database ▸ h.implied
  complete := by
    rw [hs.kernel, hs.detectedUNSAT]
    exact h.complete
  detected := hs.detectedUNSAT ▸ h.detected
  satisfied c hc hd := by
    obtain ⟨x, hx, hf⟩ := h.satisfied c (hs.clauseDB ▸ hc) ((hs.scheduledForDeletion c).symm.trans hd)
    exact ⟨x, (hs.lits c).mem_iff.mpr hx, hs.facts ▸ hf⟩
  lemmas_redundant c hc := by
    rw [hs.clauseDB, hs.redundant]
    exact h.lemmas_redundant c (hs.lemmas_eq ▸ hc)

theorem Data.new : Data ∅ new where
  nodup := .nil
  fresh _ hc := absurd hc List.not_mem_nil
  wf _ hc := absurd hc List.not_mem_nil
  vars _ hc := absurd hc List.not_mem_nil
  fact_vars _ hl := absurd hl List.not_mem_nil
  regular := by decide
  implied σ _ := by
    rintro C (⟨l, hl, -⟩ | ⟨c, hc, -⟩)
    · exact absurd hl List.not_mem_nil
    · exact absurd hc List.not_mem_nil
  complete _ _ _ _ hC := hC.elim
  detected h := absurd h Bool.false_ne_true
  satisfied _ hc := absurd hc List.not_mem_nil
  lemmas_redundant _ hc := absurd hc List.not_mem_nil

theorem Data.facts_hold (h : Data Φ s) {σ : Valuation CNFLit} (hσ : σ.Models Φ) : ∀ l ∈ s.facts, σ.holds l :=
  models_units.mp (models_union.mp (h.implied σ hσ)).1

theorem Data.clause_holds (h : Data Φ s) {σ : Valuation CNFLit} (hσ : σ.Models Φ) {c : ClauseRef}
    (hc : c ∈ s.clauseDB) : σ.Satisfies (s.mem c).litSet :=
  (models_union.mp (h.implied σ hσ)).2 _ (mem_clauseSets hc)

theorem Data.setFacts (h : Data Φ s) {F : List CNFLit} (hs : s.facts ⊆ F) (hv : ∀ l ∈ F, l.var ≤ s.maxVar)
    (hi : ∀ σ : Valuation CNFLit, σ.Models Φ → ∀ l ∈ F, σ.holds l) : Data Φ { s with facts := F } where
  nodup := h.nodup
  fresh := h.fresh
  wf := h.wf
  vars := h.vars
  fact_vars := hv
  regular := h.regular
  implied σ hσ := models_union.mpr ⟨models_units.mpr (hi σ hσ), (models_union.mp (h.implied σ hσ)).2⟩
  complete hd σ hσ := by
    obtain ⟨hf, hc⟩ := models_union.mp hσ
    exact h.complete hd σ (models_union.mpr ⟨models_units.mpr fun l hl => models_units.mp hf l (hs hl), hc⟩)
  detected := h.detected
  satisfied c hc hd := by
    obtain ⟨x, hx, hf⟩ := h.satisfied c hc hd
    exact ⟨x, hx, hs hf⟩
  lemmas_redundant := h.lemmas_redundant

theorem Data.setMaxVar (h : Data Φ s) {v : CNFVar} (hv : s.maxVar ≤ v) (hr : v < CNFVar.undefinedVariable) :
    Data Φ { s with maxVar := v } where
  nodup := h.nodup
  fresh := h.fresh
  wf := h.wf
  vars c hc l hl := (h.vars c hc l hl).trans hv
  fact_vars l hl := (h.fact_vars l hl).trans hv
  regular := hr
  implied := h.implied
  complete := h.complete
  detected := h.detected
  satisfied := h.satisfied
  lemmas_redundant := h.lemmas_redundant

theorem foldl_max (lits : List CNFLit) : ∀ v : CNFVar,
    v ≤ lits.foldl (fun maxVar lit => max maxVar lit.var) v ∧
    (∀ l ∈ lits, l.var ≤ lits.foldl (fun maxVar lit => max maxVar lit.var) v) ∧
    ∀ b, v < b → (∀ l ∈ lits, l.var < b) → lits.foldl (fun maxVar lit => max maxVar lit.var) v < b := by
  induction lits with
  | nil => exact fun v => ⟨le_rfl, fun l hl => absurd hl List.not_mem_nil, fun b hb _ => hb⟩
  | cons a lits ih =>
    intro v
    obtain ⟨hle, hall, hlt⟩ := ih (max v a.var)
    refine ⟨(le_max_left _ _).trans hle, fun l hl => ?_, fun b hb hl => ?_⟩
    · rcases List.mem_cons.mp hl with rfl | hl
      · exact (le_max_right _ _).trans hle
      · exact hall l hl
    · exact hlt b (max_lt hb (hl a List.mem_cons_self)) fun l hl' => hl l (List.mem_cons_of_mem _ hl')

theorem Data.raiseMaxVar (h : Data Φ s) {lits : List CNFLit} (hr : ∀ l ∈ lits, l.var < CNFVar.undefinedVariable) :
    Data Φ (s.raiseMaxVar lits) :=
  h.setMaxVar (foldl_max lits s.maxVar).1 ((foldl_max lits s.maxVar).2.2 _ h.regular hr)

theorem createClause_mem_self (s : CDCLSatSolver) (C : Clause) : (s.createClause C).mem s.nextClause = C :=
  writeClause_mem_self _ _ _

theorem createClause_mem_of_ne (s : CDCLSatSolver) (C : Clause) {c : ClauseRef} (h : c ≠ s.nextClause) :
    (s.createClause C).mem c = s.mem c := writeClause_mem_of_ne h

theorem Data.ne_nextClause (h : Data Φ s) {c : ClauseRef} (hc : c ∈ s.clauseDB) : c ≠ s.nextClause :=
  (h.fresh c hc).ne

theorem Data.createClause_mem (h : Data Φ s) (C : Clause) {c : ClauseRef} (hc : c ∈ s.clauseDB) :
    (s.createClause C).mem c = s.mem c := createClause_mem_of_ne s C (h.ne_nextClause hc)

theorem mem_createClause {C : Clause} {c : ClauseRef} :
    c ∈ (s.createClause C).clauseDB ↔ c ∈ s.clauseDB ∨ c = s.nextClause := by
  rw [createClause, List.mem_append, List.mem_singleton]

theorem Data.createClause {Φ' : Set (Finset CNFLit)} (h : Data Φ s) {C : Clause}
    (ha : C.scheduledForDeletion = false) (hwf : C.WellFormed) (hv : ∀ l ∈ C.lits, l.var ≤ s.maxVar)
    (hΦ : Φ ⊆ Φ') (hi : Entails Φ' C.litSet)
    (hc : ∀ σ : Valuation CNFLit, σ.Models Φ → (C.redundant = false → σ.Satisfies C.litSet) → σ.Models Φ') :
    Data Φ' (s.createClause C) := by
  have hself := createClause_mem_self s C
  have hold : ∀ {c}, c ∈ s.clauseDB → (s.createClause C).mem c = s.mem c := fun hc => h.createClause_mem C hc
  refine ⟨?_, fun c hc => ?_, fun c hc => ?_, fun c hc => ?_, h.fact_vars, h.regular, fun σ hσ => ?_,
    fun hd σ hσ => ?_, fun hd => hΦ (h.detected hd), fun c hc hd => ?_, fun c hc => ?_⟩
  · apply List.nodup_append.mpr
    refine ⟨h.nodup, List.nodup_singleton _, fun c hc d hd => ?_⟩
    rw [List.mem_singleton.mp hd]
    exact h.ne_nextClause hc
  · rcases mem_createClause.mp hc with hc | rfl
    · exact (h.fresh c hc).trans (Nat.lt_succ_self _)
    · exact Nat.lt_succ_self _
  · rcases mem_createClause.mp hc with hc | rfl
    · rw [hold hc]
      exact h.wf c hc
    · rwa [hself]
  · rcases mem_createClause.mp hc with hc | rfl
    · rw [hold hc]
      exact h.vars c hc
    · rwa [hself]
  · refine models_union.mpr ⟨models_units.mpr (h.facts_hold (hσ.mono hΦ)), ?_⟩
    rintro _ ⟨c, hc, rfl⟩
    rcases mem_createClause.mp hc with hc | rfl
    · rw [hold hc]
      exact h.clause_holds (hσ.mono hΦ) hc
    · rw [hself]
      exact hi σ hσ
  · obtain ⟨hf, hcl⟩ := models_union.mp hσ
    apply hc σ
    · apply h.complete hd
      refine models_union.mpr ⟨hf, ?_⟩
      rintro _ ⟨c, ⟨hc, hk⟩, rfl⟩
      rw [← hold hc] at hk ⊢
      exact hcl _ (mem_clauseSets ⟨mem_createClause.mpr (.inl hc), hk⟩)
    · intro hred
      rw [← hself] at ha hred ⊢
      exact hcl _ (mem_clauseSets ⟨mem_createClause.mpr (.inr rfl), ha, hred⟩)
  · rcases mem_createClause.mp hc with hc | rfl
    · rw [hold hc] at hd ⊢
      exact h.satisfied c hc hd
    · rw [hself, ha] at hd
      exact absurd hd Bool.false_ne_true
  · obtain ⟨hdb, hr⟩ := h.lemmas_redundant c hc
    exact ⟨mem_createClause.mpr (.inl hdb), by rwa [hold hdb]⟩

theorem Data.setLemmas (h : Data Φ s) {L : List ClauseRef}
    (hl : ∀ c ∈ L, c ∈ s.clauseDB ∧ (s.mem c).redundant = true) : Data Φ { s with lemmas := L } where
  nodup := h.nodup
  fresh := h.fresh
  wf := h.wf
  vars := h.vars
  fact_vars := h.fact_vars
  regular := h.regular
  implied := h.implied
  complete := h.complete
  detected := h.detected
  satisfied := h.satisfied
  lemmas_redundant := hl

/-! ## Added clauses -/

theorem addedSets_append (added : List (List CNFLit)) (clause : List CNFLit) :
    addedSets (added ++ [clause]) = insert clause.toFinset (addedSets added) := by
  ext C
  simp only [addedSets, List.mem_append, List.mem_singleton, Set.mem_ofPred_eq, Set.mem_insert_iff]
  constructor
  · rintro ⟨c, hc | rfl, rfl⟩
    · exact .inr ⟨c, hc, rfl⟩
    · exact .inl rfl
  · rintro (rfl | ⟨c, hc, rfl⟩)
    · exact ⟨clause, .inr rfl, rfl⟩
    · exact ⟨c, .inl hc, rfl⟩

theorem models_insert {σ : Valuation CNFLit} {C : Finset CNFLit} :
    σ.Models (insert C Φ) ↔ σ.Satisfies C ∧ σ.Models Φ :=
  ⟨fun h => ⟨h C (.inl rfl), fun D hD => h D (.inr hD)⟩, fun h D hD => hD.elim (fun he => he ▸ h.1) (h.2 D)⟩

/-- A clause that every valuation satisfies changes nothing. -/
theorem Data.insert_valid (h : Data Φ s) {C : Finset CNFLit} (hC : ∀ σ : Valuation CNFLit, σ.Satisfies C) :
    Data (insert C Φ) s :=
  { h with
    implied := fun σ hσ => h.implied σ (models_insert.mp hσ).2
    complete := fun hd σ hσ => models_insert.mpr ⟨hC σ, h.complete hd σ hσ⟩
    detected := fun hd => .inr (h.detected hd) }

theorem Data.insert_fact (h : Data Φ s) {l : CNFLit} (hv : l.var ≤ s.maxVar) :
    Data (insert {l} Φ) { s with facts := s.facts ++ [l] } where
  nodup := h.nodup
  fresh := h.fresh
  wf := h.wf
  vars := h.vars
  fact_vars x hx := by
    rcases List.mem_append.mp hx with hx | hx
    · exact h.fact_vars x hx
    · exact List.mem_singleton.mp hx ▸ hv
  regular := h.regular
  implied σ hσ := by
    obtain ⟨⟨y, hy, hl⟩, hσ⟩ := models_insert.mp hσ
    refine models_union.mpr ⟨models_units.mpr fun x hx => ?_, (models_union.mp (h.implied σ hσ)).2⟩
    rcases List.mem_append.mp hx with hx | hx
    · exact h.facts_hold hσ x hx
    · rw [List.mem_singleton.mp hx, ← Finset.mem_singleton.mp hy]
      exact hl
  complete hd σ hσ := by
    obtain ⟨hf, hc⟩ := models_union.mp hσ
    have hf := models_units.mp hf
    refine models_insert.mpr
      ⟨⟨l, Finset.mem_singleton_self l, hf l (List.mem_append_right _ List.mem_cons_self)⟩, ?_⟩
    exact h.complete hd σ (models_union.mpr ⟨models_units.mpr fun x hx => hf x (List.mem_append_left _ hx), hc⟩)
  detected hd := .inr (h.detected hd)
  satisfied c hc hd := by
    obtain ⟨x, hx, hf⟩ := h.satisfied c hc hd
    exact ⟨x, hx, List.mem_append_left _ hf⟩
  lemmas_redundant := h.lemmas_redundant

theorem Data.addClause (h : Data Φ s) {clause : List CNFLit}
    (hr : ∀ l ∈ clause, l.var < CNFVar.undefinedVariable) :
    Data (insert clause.toFinset Φ) (s.addClause clause) := by
  unfold CDCLSatSolver.addClause
  split
  · rename_i he
    subst he
    exact { h with
      implied := fun σ hσ => h.implied σ (models_insert.mp hσ).2
      complete := fun hd => absurd hd.symm Bool.false_ne_true
      detected := fun _ => .inl rfl }
  · rename_i hne
    cases hcomp : compressClause clause with
    | none => exact h.insert_valid (compressClause_none hcomp)
    | some compressed =>
      obtain ⟨hmem, hnodup⟩ := compressClause_some hcomp
      have hset : clause.toFinset = compressed.toFinset := by
        ext x
        rw [List.mem_toFinset, List.mem_toFinset, hmem]
      have hraise : Data Φ (s.raiseMaxVar compressed) := h.raiseMaxVar fun l hl => hr l ((hmem l).mp hl)
      have hvars : ∀ l ∈ compressed, l.var ≤ (s.raiseMaxVar compressed).maxVar :=
        (foldl_max compressed s.maxVar).2.1
      rw [hset]
      match compressed, hmem, hnodup, hraise, hvars with
      | [], hmem, _, _, _ =>
        obtain ⟨x, hx⟩ := List.exists_mem_of_ne_nil clause hne
        exact absurd ((hmem x).mpr hx) List.not_mem_nil
      | [fact], _, _, hraise, hvars => exact hraise.insert_fact (hvars fact List.mem_cons_self)
      | a :: b :: lits, _, hnodup, hraise, hvars =>
        refine hraise.createClause (C := .ofLits (a :: b :: lits)) rfl
          ⟨by simp [Clause.ofLits, Clause.size], hnodup⟩
          hvars (Set.subset_insert _ _) (.of_mem (.inl rfl)) fun σ hσ hs => models_insert.mpr ⟨hs rfl, hσ⟩

theorem Data.addProblem {clauses : List (List CNFLit)} : ∀ {added : List (List CNFLit)} {s : CDCLSatSolver},
    Data (addedSets added) s → (∀ clause ∈ clauses, ∀ l ∈ clause, l.var < CNFVar.undefinedVariable) →
    Data (addedSets (added ++ clauses)) (s.addProblem clauses) := by
  induction clauses with
  | nil =>
    intro added s h _
    rwa [List.append_nil]
  | cons clause clauses ih =>
    intro added s h hr
    have hadd : Data (addedSets (added ++ [clause])) (s.addClause clause) := by
      rw [addedSets_append]
      exact h.addClause (hr clause List.mem_cons_self)
    have hall := ih hadd fun c hc => hr c (List.mem_cons_of_mem _ hc)
    rwa [List.append_assoc] at hall

end CDCLSatSolver

end JamSAT
