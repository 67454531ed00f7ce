import JamSAT.ClausalProof
import JamSAT.SolverRuns

/-!
# The proof that is emitted

The clauses of the proof are those of the database and others, which the solver
has dropped without a word. The facts follow from them by unit propagation. Only
the fact cleaner may lose that: it deletes the clauses by which it has found new
facts and does not emit these.
-/

namespace JamSAT

open UnitLogic Assignment

def ProofStep.line : ProofStep → ProofLine CNFLit
  | .addATClause clause => .add clause.toFinset
  | .deleteClause clause => .delete clause.toFinset

namespace Certificate

def lines (cert : Certificate) : List (ProofLine CNFLit) := (cert.getD []).map ProofStep.line

/-- What has been written leads from the clauses `P₀` to `P`. -/
structure Proves (cert : Certificate) (P₀ P : Multiset (Finset CNFLit)) : Prop where
  isSome : cert.isSome = true
  valid : ValidProof P₀ cert.lines
  clauses : clausesAfter P₀ cert.lines = P

theorem Proves.write {cert : Certificate} {P₀ P : Multiset (Finset CNFLit)} (h : cert.Proves P₀ P)
    {steps : List ProofStep} (hv : ValidProof P (steps.map ProofStep.line)) :
    (cert.write steps).Proves P₀ (clausesAfter P (steps.map ProofStep.line)) := by
  obtain ⟨written, rfl⟩ := Option.isSome_iff_exists.mp h.isSome
  have hlines : (Certificate.write (some written) steps).lines =
      Certificate.lines (some written) ++ steps.map ProofStep.line := List.map_append
  refine ⟨rfl, ?_, ?_⟩
  · rw [hlines]
    exact validProof_append.mpr ⟨h.valid, h.clauses ▸ hv⟩
  · rw [hlines, clausesAfter_append, h.clauses]

theorem Proves.add {cert : Certificate} {P₀ P : Multiset (Finset CNFLit)} (h : cert.Proves P₀ P)
    {clause : List CNFLit} (hr : RUP {C | C ∈ P} clause.toFinset) :
    (cert.write [.addATClause clause]).Proves P₀ (clause.toFinset ::ₘ P) := by
  have hvalid : ValidProof P ([ProofStep.addATClause clause].map ProofStep.line) := ⟨hr, trivial⟩
  exact h.write hvalid

theorem Proves.delete {cert : Certificate} {P₀ P : Multiset (Finset CNFLit)} {clause : List CNFLit}
    (h : cert.Proves P₀ (clause.toFinset ::ₘ P)) : (cert.write [.deleteClause clause]).Proves P₀ P := by
  have hvalid : ValidProof (clause.toFinset ::ₘ P) ([ProofStep.deleteClause clause].map ProofStep.line) :=
    ⟨Multiset.mem_cons_self _ _, trivial⟩
  have hafter : clausesAfter (clause.toFinset ::ₘ P) ([ProofStep.deleteClause clause].map ProofStep.line) = P :=
    Multiset.erase_cons_head _ _
  rw [← hafter]
  exact h.write hvalid

theorem Proves.replace {cert : Certificate} {P₀ P : Multiset (Finset CNFLit)} {clause clause' : List CNFLit}
    (h : cert.Proves P₀ (clause.toFinset ::ₘ P)) (hr : RUP {C | C ∈ clause.toFinset ::ₘ P} clause'.toFinset) :
    (cert.write [.addATClause clause', .deleteClause clause]).Proves P₀ (clause'.toFinset ::ₘ P) := by
  have hwrite : cert.write [.addATClause clause', .deleteClause clause] =
      (cert.write [.addATClause clause']).write [.deleteClause clause] := by
    obtain ⟨steps, rfl⟩ := Option.isSome_iff_exists.mp h.isSome
    exact congrArg some (List.append_assoc steps [_] [_]).symm
  have hadd := h.add hr
  rw [Multiset.cons_swap] at hadd
  rw [hwrite]
  exact hadd.delete

end Certificate

/-! ## The clauses that are not scheduled for deletion -/

def liveSets (mem : Memory) (db : List ClauseRef) : Multiset (Finset CNFLit) :=
  ↑((db.filter fun c => !(mem c).scheduledForDeletion).map fun c => (mem c).litSet)

section
variable {mem mem' : Memory} {db : List ClauseRef} {c : ClauseRef}

theorem mem_liveSets {C : Finset CNFLit} :
    C ∈ liveSets mem db ↔ ∃ c ∈ db, (mem c).scheduledForDeletion = false ∧ C = (mem c).litSet := by
  unfold liveSets
  rw [Multiset.mem_coe, List.mem_map]
  constructor
  · intro h
    obtain ⟨c, hc, rfl⟩ := h
    obtain ⟨hc, ha⟩ := List.mem_filter.mp hc
    exact ⟨c, hc, Bool.not_eq_true' _ ▸ ha, rfl⟩
  · intro h
    obtain ⟨c, hc, ha, rfl⟩ := h
    exact ⟨c, List.mem_filter.mpr ⟨hc, by rw [ha]; rfl⟩, rfl⟩

theorem liveSets_congr (hd : ∀ c ∈ db, (mem' c).scheduledForDeletion = (mem c).scheduledForDeletion)
    (hl : ∀ c ∈ db, (mem' c).litSet = (mem c).litSet) : liveSets mem' db = liveSets mem db := by
  unfold liveSets
  have hf :
    db.filter (fun c => !(mem' c).scheduledForDeletion) = db.filter fun c => !(mem c).scheduledForDeletion :=
    List.filter_congr fun c hc => congrArg Bool.not (hd c hc)
  rw [hf]
  exact congrArg _ (List.map_congr_left fun c hc => hl c (List.mem_of_mem_filter hc))

theorem liveSets_cons (ha : (mem c).scheduledForDeletion = false) :
    liveSets mem (c :: db) = (mem c).litSet ::ₘ liveSets mem db := by
  unfold liveSets
  rw [List.filter_cons_of_pos (by rw [ha]; rfl)]
  rfl

theorem liveSets_cons_of_scheduled (ha : (mem c).scheduledForDeletion = true) :
    liveSets mem (c :: db) = liveSets mem db := by
  unfold liveSets
  rw [List.filter_cons_of_neg (by rw [ha]; exact Bool.false_ne_true)]

theorem liveSets_perm {db' : List ClauseRef} (h : db.Perm db') : liveSets mem db = liveSets mem db' :=
  Multiset.coe_eq_coe.mpr ((h.filter _).map _)

theorem liveSets_update (hn : db.Nodup) (hc : c ∈ db) (C : Clause) : ∃ others,
    ((mem c).scheduledForDeletion = false → liveSets mem db = (mem c).litSet ::ₘ others) ∧
    (C.scheduledForDeletion = false → liveSets (Function.update mem c C) db = C.litSet ::ₘ others) ∧
    (C.scheduledForDeletion = true → liveSets (Function.update mem c C) db = others) := by
  have hp := List.perm_cons_erase hc
  have hothers : liveSets (Function.update mem c C) (db.erase c) = liveSets mem (db.erase c) := by
    have hne : ∀ d ∈ db.erase c, Function.update mem c C d = mem d := fun d hd =>
      Function.update_of_ne (fun he => hn.not_mem_erase (he ▸ hd)) C mem
    exact liveSets_congr (fun d hd => by rw [hne d hd]) fun d hd => by rw [hne d hd]
  refine ⟨liveSets mem (db.erase c), fun ha => ?_, fun ha => ?_, fun ha => ?_⟩
  · rw [liveSets_perm hp, liveSets_cons ha]
  · rw [liveSets_perm hp, liveSets_cons (by rw [Function.update_self, ha]), Function.update_self, hothers]
  · rw [liveSets_perm hp, liveSets_cons_of_scheduled (by rw [Function.update_self, ha]), hothers]

theorem liveSets_le {db' : List ClauseRef} (hs : db'.Sublist db)
    (hm : ∀ c ∈ db', (mem' c).scheduledForDeletion = false → mem' c = mem c) :
    liveSets mem' db' ≤ liveSets mem db := by
  have halive : ∀ c ∈ db'.filter (fun c => !(mem' c).scheduledForDeletion), mem' c = mem c := by
    intro c hc
    obtain ⟨hc, ha⟩ := List.mem_filter.mp hc
    exact hm c hc ((Bool.not_eq_true' _).mp ha)
  have hfilter : (db'.filter fun c => !(mem' c).scheduledForDeletion).Sublist
      (db.filter fun c => !(mem c).scheduledForDeletion) := by
    have hself :
      (db'.filter fun c => !(mem' c).scheduledForDeletion).filter (fun c => !(mem c).scheduledForDeletion) =
        db'.filter fun c => !(mem' c).scheduledForDeletion := by
      refine List.filter_eq_self.mpr fun c hc => ?_
      rw [← halive c hc]
      exact (List.mem_filter.mp hc).2
    rw [← hself]
    exact (List.filter_sublist.trans hs).filter _
  have hmap : (db'.filter fun c => !(mem' c).scheduledForDeletion).map (fun c => (mem' c).litSet) =
      (db'.filter fun c => !(mem' c).scheduledForDeletion).map fun c => (mem c).litSet :=
    List.map_congr_left fun c hc => congrArg Clause.litSet (halive c hc)
  unfold liveSets
  rw [hmap]
  exact Multiset.coe_le.mpr (hfilter.map _).subperm

end

/-! ## The fact cleaner -/

def remaining (others : Multiset (Finset CNFLit)) (F : Set CNFLit) (mem : Memory) (db : List ClauseRef) :
    Set (Finset CNFLit) :=
  {C | C ∈ others ∨ ∃ c ∈ db, (mem c).scheduledForDeletion = false ∧ C = (mem c).litSet ∧ ∀ x ∈ (mem c).lits, x ∉ F}

namespace FactCleaner

variable {F : List CNFLit} {db : List ClauseRef} {u : Assignment} {st st' : SharedOptimizerState}
  {P₀ others : Multiset (Finset CNFLit)}

/-- What remains is subsumed all along. -/
theorem Cleaning.forces (h : Cleaning F db u st) (hr : Forces (remaining others {l | l ∈ F} u.mem db) {l | l ∈ F}) :
    Forces {C | C ∈ others + liveSets st.mem db} {l | l ∈ F} := by
  apply hr.of_subsumes
  intro C hC
  cases hC with
  | inl hC => exact ⟨C, Multiset.mem_add.mpr (.inl hC), subset_rfl⟩
  | inr hC =>
    obtain ⟨c, hc, ha, rfl, hF⟩ := hC
    have he := h.edited c
    have hsub : (st.mem c).litSet ⊆ (u.mem c).litSet := fun x hx =>
      Clause.mem_litSet.mpr (he.subperm.subset (Clause.mem_litSet.mp hx))
    refine ⟨_, Multiset.mem_add.mpr (.inr (mem_liveSets.mpr ⟨c, hc, ?_, rfl⟩)), hsub⟩
    -- only clauses with a fact are deleted
    by_contra hd
    cases he.deleted (Bool.eq_true_of_not_eq_false hd) with
    | inl hd => exact Bool.false_ne_true (ha.symm.trans hd)
    | inr hx =>
      obtain ⟨x, hx, hxF⟩ := hx
      exact hF x (he.subperm.subset hx) hxF

theorem Cleaning.proves_step (hwf : ∀ c ∈ db, (u.mem c).scheduledForDeletion = false → (u.mem c).WellFormed)
    (hn : db.Nodup) (h : Cleaning F db u st) (hs : CleanStep st st')
    (hr : Forces (remaining others {l | l ∈ F} u.mem db) {l | l ∈ F})
    (hp : st.unsatCertificate.Proves P₀ (others + liveSets st.mem db)) :
    st'.unsatCertificate.Proves P₀ (others + liveSets st'.mem db) := by
  cases hs with
  | lookup value =>
    have hsame := Memory.Same.of_unflagged (h.occ.lookup value).2.1
    have he : liveSets (st.withMem (st.occMap.lookup st.mem value)).mem db = liveSets st.mem db :=
      liveSets_congr (fun c _ => hsame.scheduledForDeletion c) fun c _ => congrArg List.toFinset (hsame.lits c)
    rw [he]
    exact hp
  | @delete c fact hc ha hf hl =>
    have hc := h.clauseDB ▸ hc
    obtain ⟨rest, hlive, -, hdel⟩ := liveSets_update hn hc { st.mem c with scheduledForDeletion := true }
    rw [hlive ha, Multiset.add_cons] at hp
    rw [deleteClause_mem, hdel rfl]
    exact hp.delete
  | @remove c fact hc ha hf hl hw =>
    have hforces := h.forces hr
    have hc := h.clauseDB ▸ hc
    have hf := h.facts ▸ hf
    obtain ⟨ys, hrem⟩ := h.exists_removal hwf hc ha hf hl hw
    obtain ⟨-, -, hmem, hcert⟩ := removeLiteral_assignment h hc hrem
    obtain ⟨rest, hlive, hnew, -⟩ := liveSets_update hn hc { st.mem c with lits := ys, modified := true }
    have hset : (ys ++ [-fact]).toFinset = (st.mem c).litSet := List.toFinset_eq_of_perm _ _ hrem.perm
    rw [hlive ha, Multiset.add_cons, ← hset] at hp hforces
    rw [hmem, hnew ha, hcert, Multiset.add_cons]
    -- the removed literal is the negation of a fact
    refine hp.replace ?_
    have hfact : Forces _ {fact} := hforces.subset (Set.singleton_subset_iff.mpr hf)
    refine .of_forced_neg hfact (Multiset.mem_cons_self _ _) fun x hx hne => ?_
    rw [hset] at hx
    exact List.mem_toFinset.mpr ((hrem.mem_iff x).mpr ⟨Clause.mem_litSet.mp hx, hne⟩)

theorem Cleaning.proves (hwf : ∀ c ∈ db, (u.mem c).scheduledForDeletion = false → (u.mem c).WellFormed)
    (hn : db.Nodup) (h : Cleaning F db u st) (hs : Relation.ReflTransGen CleanStep st st')
    (hr : Forces (remaining others {l | l ∈ F} u.mem db) {l | l ∈ F})
    (hp : st.unsatCertificate.Proves P₀ (others + liveSets st.mem db)) :
    Cleaning F db u st' ∧ st'.unsatCertificate.Proves P₀ (others + liveSets st'.mem db) := by
  induction hs with
  | refl => exact ⟨h, hp⟩
  | tail _ hstep ih => exact ⟨ih.1.step hwf hstep, ih.1.proves_step hwf hn hstep hr ih.2⟩

theorem Cleaned.proves {R K Z : Set ClauseRef} {dead : Set CNFLit} {v : Assignment}
    (h : Cleaned R K Z dead st F v st') (hst : st.Registered R K Z dead) (hs : st.detectedUnsat = false)
    (hr : Forces (remaining others {l | l ∈ F} st.mem st.clauseDB) {l | l ∈ F})
    (hp : st.unsatCertificate.Proves P₀ (others + liveSets st.mem st.clauseDB)) :
    st'.unsatCertificate.Proves P₀ (others + liveSets st'.mem st'.clauseDB) ∧
      Forces {C | C ∈ others + liveSets st'.mem st'.clauseDB} {l | l ∈ st'.facts} := by
  obtain ⟨hwf, hstart⟩ := cleaning_start hst hs h.closed
  have hlits : ∀ c, (v.undoAll.mem c).lits.Perm (st.mem c).lits := fun c => by
    rw [undoAll_mem]
    exact h.closed.lits c
  have hdel : ∀ c, (v.undoAll.mem c).scheduledForDeletion = (st.mem c).scheduledForDeletion := fun c => by
    rw [undoAll_mem]
    exact h.closed.scheduledForDeletion c
  have hset : ∀ c, (v.undoAll.mem c).litSet = (st.mem c).litSet := fun c => List.toFinset_eq_of_perm _ _ (hlits c)
  have hlive : liveSets v.undoAll.mem st.clauseDB = liveSets st.mem st.clauseDB :=
    liveSets_congr (fun c _ => hdel c) fun c _ => hset c
  have hr' : Forces (remaining others {l | l ∈ F} v.undoAll.mem st.clauseDB) {l | l ∈ F} := by
    apply hr.mono
    intro C hC
    cases hC with
    | inl hC => exact .inl hC
    | inr hC =>
      obtain ⟨c, hc, ha, rfl, hF⟩ := hC
      exact .inr ⟨c, hc, (hdel c).trans ha, (hset c).symm, fun x hx => hF x ((hlits c).mem_iff.mp hx)⟩
  obtain ⟨hcl, hproves⟩ := hstart.proves hwf hst.nodup h.progress.steps hr' (hlive ▸ hp)
  have hforces := hcl.forces hr'
  rw [h.clauseDB_eq, h.facts_eq]
  exact ⟨hproves, hforces⟩

end FactCleaner

/-! ## The solver -/

namespace CDCLSatSolver

variable {Φ : Set (Finset CNFLit)} {K Z : Set ClauseRef} {dead : Set CNFLit} {s t : CDCLSatSolver}
  {assumedFacts : List CNFLit} {P₀ U : Multiset (Finset CNFLit)}

def live (s : CDCLSatSolver) : Multiset (Finset CNFLit) := liveSets s.mem s.clauseDB

def proofClauses (P₀ : Multiset (Finset CNFLit)) (s : CDCLSatSolver) : Multiset (Finset CNFLit) :=
  clausesAfter P₀ s.certificate.lines

structure Certified (P₀ U : Multiset (Finset CNFLit)) (s : CDCLSatSolver) : Prop where
  isSome : s.certificate.isSome = true
  valid : ValidProof P₀ s.certificate.lines
  live_le : U + s.live ≤ s.proofClauses P₀
  forces : Forces {C | C ∈ s.proofClauses P₀} {l | l ∈ s.facts}

/-- If the fact cleaner is going to clean, then everything that unit propagation
derives it also derives without the clauses that are going to be deleted. -/
def KeepsFacts (P₀ : Multiset (Finset CNFLit)) (s : CDCLSatSolver) : Prop :=
  s.optimizer.wantsExecution s.conflictCount s.unitLemmas = true →
    s.facts.length ≠ s.optimizer.factsAfterLastCall → ¬ Conflict s.database ∅ →
    Forces (remaining (s.proofClauses P₀ - s.live) {l | Derives s.database ∅ l} s.mem s.clauseDB)
      {l | Derives s.database ∅ l}

theorem Similar.live (h : Similar s t) : t.live = s.live := by
  unfold CDCLSatSolver.live
  rw [h.clauseDB]
  exact liveSets_congr (fun c _ => h.scheduledForDeletion c) fun c _ => List.toFinset_eq_of_perm _ _ (h.lits c)

theorem live_createClause (hdata : Data Φ s) {C : Clause} (ha : C.scheduledForDeletion = false) :
    (s.createClause C).live = C.litSet ::ₘ s.live := by
  have hself := createClause_mem_self s C
  have hold : ∀ c ∈ s.clauseDB, (s.createClause C).mem c = s.mem c := fun c hc => hdata.createClause_mem C hc
  have hp : (s.createClause C).clauseDB.Perm (s.nextClause :: s.clauseDB) := List.perm_append_singleton _ _
  rw [live, liveSets_perm hp, liveSets_cons (by rw [hself, ha]), hself]
  exact congrArg _ (liveSets_congr (fun c hc => by rw [hold c hc]) fun c hc => by rw [hold c hc])

theorem Certified.of_proves {P : Multiset (Finset CNFLit)} (h : s.certificate.Proves P₀ P) (hl : U + s.live ≤ P)
    (hf : Forces {C | C ∈ P} {l | l ∈ s.facts}) : Certified P₀ U s := by
  obtain ⟨hsome, hvalid, rfl⟩ := h
  exact ⟨hsome, hvalid, hl, hf⟩

section
variable (h : Certified P₀ U s)
include h

theorem Certified.congr (hs : Similar s t) (hc : t.certificate = s.certificate) : Certified P₀ U t := by
  have hP : t.proofClauses P₀ = s.proofClauses P₀ := by rw [proofClauses, proofClauses, hc]
  exact ⟨hc ▸ h.isSome, hc ▸ h.valid, by rw [hs.live, hP]; exact h.live_le, by rw [hs.facts, hP]; exact h.forces⟩

theorem Certified.proves : s.certificate.Proves P₀ (s.proofClauses P₀) := ⟨h.isSome, h.valid, rfl⟩

theorem Certified.live_le_clauses : s.live ≤ s.proofClauses P₀ := (Multiset.le_add_left _ _).trans h.live_le

theorem Certified.sets_subset :
    clauseSets s.mem {c | c ∈ s.clauseDB ∧ (s.mem c).scheduledForDeletion = false} ⊆
      {C | C ∈ s.proofClauses P₀} := by
  intro C hC
  obtain ⟨c, ⟨hc, ha⟩, rfl⟩ := hC
  exact Multiset.mem_of_le h.live_le_clauses (mem_liveSets.mpr ⟨c, hc, ha, rfl⟩)

theorem Certified.rup {C : Finset CNFLit} (hr : RUP s.formula C) : RUP {C | C ∈ s.proofClauses P₀} C :=
  hr.of_forces h.forces h.sets_subset

theorem Certified.conflict (hdata : Data Φ s) {A : Set CNFLit} (hc : Conflict s.database A) :
    Conflict {C | C ∈ s.proofClauses P₀} A :=
  (hc.of_subsumes hdata.subsumes).of_forces h.forces h.sets_subset

theorem Certified.clean {F : List CNFLit} {v : Assignment} {st : SharedOptimizerState}
    (hc : FactCleaner.Cleaned s.clauses K Z dead s.sharedOptimizerState F v st) (hres : Restarted K Z dead s)
    (hdata : Data Φ s)
    (hk : Forces (remaining (s.proofClauses P₀ - s.live) {l | Derives s.database ∅ l} s.mem s.clauseDB)
      {l | Derives s.database ∅ l}) (fc : FactCleaner) : Certified P₀ U (s.takeBack fc st) := by
  have hF : ∀ l ∈ F, Derives s.database ∅ l := hc.closed.derives
  have hr : Forces (remaining (s.proofClauses P₀ - s.live) {l | l ∈ F} s.mem s.clauseDB) {l | l ∈ F} := by
    refine (hk.subset hF).mono fun C hC => hC.imp_right fun hC => ?_
    obtain ⟨c, hc, ha, he, hx⟩ := hC
    exact ⟨c, hc, ha, he, fun x hxl hxF => hx x hxl (hF x hxF)⟩
  have hp : s.certificate.Proves P₀ (s.proofClauses P₀ - s.live + s.live) := by
    rw [Multiset.sub_add_cancel h.live_le_clauses]
    exact h.proves
  obtain ⟨hproves, hforces⟩ := hc.proves (hres.registered hdata) rfl hr hp
  have hlive : (s.takeBack fc st).live = liveSets st.mem st.clauseDB := (similar_takeBack s fc st).live
  refine .of_proves hproves ?_ hforces
  have hU : U ≤ s.proofClauses P₀ - s.live := by
    have hsub := Multiset.sub_le_sub_right (u := s.live) h.live_le
    rwa [Multiset.add_sub_cancel_right] at hsub
  rw [hlive]
  exact Multiset.add_le_add_right hU

omit h in
theorem not_conflict_of_closed {F : List CNFLit} {v : Assignment}
    (hc : FactCleaner.Closed s.clauses K Z dead s.facts s.assignment v F) (hres : Restarted K Z dead s)
    (hdata : Data Φ s) : ¬ Conflict s.database ∅ := by
  have hfacts : ∀ l ∈ s.facts, l ∈ v.trail := fun l hl => hc.trail ▸ hc.subset hl
  have hkept : ∀ c ∈ s.clauseDB, (v.mem c).scheduledForDeletion = false → c ∈ K := fun c hcd ha =>
    hres.kept c hcd ((hc.scheduledForDeletion c).symm.trans ha)
  have hsat : ∀ c ∈ s.clauseDB, (v.mem c).scheduledForDeletion = true → ∃ x ∈ (v.mem c).lits, x ∈ s.facts := by
    intro c hcd hd
    obtain ⟨x, hx, hf⟩ := hdata.satisfied c hcd ((hc.scheduledForDeletion c).symm.trans hd)
    exact ⟨x, (hc.lits c).mem_iff.mpr hx, hf⟩
  have hclosed := hc.steady.closed hfacts hres.dead_false hkept hsat
  rw [clauseSets_congr hc.lits] at hclosed
  exact hclosed.not_conflict (Set.empty_subset _)

theorem Certified.trySimplify (hres : Restarted K Z dead s) (hdata : Data Φ s) (hk : s.KeepsFacts P₀) :
    Certified P₀ U s.trySimplify.2 ∧
      (s.trySimplify.1 = true → Conflict {C | C ∈ s.trySimplify.2.proofClauses P₀} ∅) := by
  unfold CDCLSatSolver.trySimplify
  split
  · rename_i hw
    dsimp only
    generalize hfc : (s.optimizer.optimize s.sharedOptimizerState s.unitLemmas).1 = fc
    have hself : Certified P₀ U (s.takeBack fc s.sharedOptimizerState) :=
      h.congr (similar_takeBack s fc s.sharedOptimizerState) rfl
    by_cases hlen : s.facts.length = s.optimizer.factsAfterLastCall
    · have he : (s.optimizer.optimize s.sharedOptimizerState s.unitLemmas).2 = s.sharedOptimizerState := by
        unfold FactCleaner.optimize
        rw [if_neg (show ¬ s.sharedOptimizerState.detectedUnsat = true from Bool.false_ne_true)]
        exact congrArg Prod.snd (if_pos hlen)
      rw [he]
      exact ⟨hself, fun hd => absurd hd Bool.false_ne_true⟩
    · rcases FactCleaner.optimize_cases (hres.registered hdata) s.optimizer s.unitLemmas with
        ⟨-, he⟩ | ⟨t, he, ht⟩ | ⟨F, v, -, hc⟩
      · rw [he]
        exact ⟨hself, fun hd => absurd hd Bool.false_ne_true⟩
      · rw [he]
        have hcert : Certified P₀ U (s.takeBack fc
            { s.sharedOptimizerState.precomputeOccurrenceMap with
              assignment := t.undoAll, detectedUnsat := true }) :=
          h.congr (similar_takeBack_undone fc ht.grown.grows rfl rfl rfl) rfl
        exact ⟨hcert, fun _ => h.conflict hdata ht.conflict⟩
      · rw [hc.progress.cleaning.sane]
        have hno : ¬ Conflict s.database ∅ := not_conflict_of_closed hc.closed hres hdata
        exact ⟨h.clean hc hres hdata (hk hw hlen hno) fc, fun hd => absurd hd Bool.false_ne_true⟩
  · exact ⟨h, fun hd => absurd hd Bool.false_ne_true⟩

/-- Lemmas are dropped and not deleted from the proof. -/
theorem Certified.tryReduceClauseDB (hdata : Data Φ s) {sorted : List ClauseRef} (hp : sorted.Perm s.lemmas)
    (lowLBD : Bool) : Certified P₀ U (s.tryReduceClauseDB sorted lowLBD) := by
  unfold CDCLSatSolver.tryReduceClauseDB
  split
  · exact h
  · have hsub := List.Subset.trans (getClausesMarkedForDeletion_subset sorted lowLBD s.amntBinariesLearnt) hp.subset
    obtain ⟨mem, he, -, hleft⟩ := hdata.reduced hsub s.clauseDBReductionPolicy.nextInterval
    dsimp only
    rw [he]
    refine ⟨h.isSome, h.valid, ?_, h.forces⟩
    refine le_trans (Multiset.add_le_add_left ?_) h.live_le
    show liveSets (CDCLSatSolver.mem (CDCLSatSolver.synchronizeSubsystemsWithClauseDB _)) _ ≤ s.live
    rw [synchronize_mem]
    exact liveSets_le List.filter_sublist fun c hc _ => (hleft c hc).2.1

theorem Certified.setFacts (hdata : Data Φ s) {facts : List CNFLit} (hf : ∀ l ∈ facts, Derives s.database ∅ l) :
    Certified P₀ U { s with facts := facts } := by
  have hd : Forces s.database {l | l ∈ facts} := .inr hf
  exact ⟨h.isSome, h.valid, h.live_le, h.forces.trans h.sets_subset (hd.of_subsumes hdata.subsumes)⟩

theorem Certified.propagateHardFacts (hres : Restarted K Z dead s) (hdata : Data Φ s) :
    Certified P₀ U s.propagateHardFacts.2 ∧
      (s.propagateHardFacts.1 = true → Conflict {C | C ∈ s.propagateHardFacts.2.proofClauses P₀} ∅) := by
  have hend := hres.appendFacts hdata
  unfold CDCLSatSolver.propagateHardFacts propagateFactsOnSystemLevels
  cases happ : s.assignment.appendFacts s.facts with
  | mk r t =>
    rw [happ] at hend
    cases r with
    | none =>
      obtain ⟨hsteady, hg, -⟩ := hend
      have hsim : Similar s { s with assignment := t } := .of_grows hg.grows
      have hcert : Certified P₀ U { s with assignment := t } := h.congr hsim rfl
      dsimp only
      split
      · have hderives := hsteady.derives_root hres.idle.nil hg (hg.grows.currentLevel.trans hres.level_zero)
        have hfacts := hcert.setFacts (hdata.congr hsim) hderives
        exact ⟨hfacts.congr (.of_mem rfl rfl rfl rfl rfl rfl rfl) rfl, fun hb => absurd hb Bool.false_ne_true⟩
      · exact ⟨hcert, fun hb => absurd hb Bool.false_ne_true⟩
    | some fact =>
      obtain ⟨hstop, hg, hf⟩ := hend
      have hsim : Similar s { s with assignment := t } := .of_grows hg.grows
      have hcert : Certified P₀ U { s with assignment := t } := h.congr hsim rfl
      have hconf := hstop.conflict hres.idle.nil hg hf (hg.grows.currentLevel.trans hres.level_zero)
      exact ⟨hcert, fun _ => hcert.conflict (hdata.congr hsim) hconf⟩

theorem Certified.append (hsize : s.assignment.size = s.maxVar + 1) (hs : Steady s.clauses K Z dead s.assignment)
    {l : CNFLit} (hl : s.assignment.getAssignment l = .INDETERMINATE) (hv : l.var ≤ s.maxVar) :
    Certified P₀ U (s.newLevel.append l).2 := by
  have hnew : Certified P₀ U s.newLevel := h.congr (.of_mem rfl rfl rfl rfl rfl rfl rfl) rfl
  exact hnew.congr (.of_grows (appended_newLevel hs hsize hl hv).2.grows) rfl

theorem Certified.add {lits : List CNFLit} (hr : RUP s.formula lits.toFinset)
    (hcert : t.certificate = s.certificate.write [.addATClause lits]) (hlive : t.live ≤ lits.toFinset ::ₘ s.live)
    (hfacts : ∀ l ∈ t.facts, l ∈ s.facts ∨ lits.toFinset = {l}) : Certified P₀ U t := by
  have hadd := h.proves.add (h.rup hr)
  rw [← hcert] at hadd
  have hle : U + t.live ≤ lits.toFinset ::ₘ s.proofClauses P₀ := by
    refine (Multiset.add_le_add_left hlive).trans ?_
    rw [Multiset.add_cons]
    exact (Multiset.cons_le_cons_iff _).mpr h.live_le
  refine .of_proves hadd hle ?_
  have hsub : {C | C ∈ s.proofClauses P₀} ⊆ {C | C ∈ lits.toFinset ::ₘ s.proofClauses P₀} := fun C hC =>
    Multiset.mem_cons_of_mem hC
  have hunits : Forces {C | C ∈ lits.toFinset ::ₘ s.proofClauses P₀} {l | lits.toFinset = {l}} :=
    .of_units fun l hl => (show lits.toFinset = {l} from hl) ▸ Multiset.mem_cons_self _ _
  exact ((h.forces.mono hsub).union hunits).subset hfacts

theorem Certified.resumed (hdata : Data Φ s) {lits : List CNFLit} (hr : RUP s.formula lits.toFinset) (k : Nat) :
    Certified P₀ U (s.resumed lits k) := by
  have hlive : (s.resumed lits k).live = lits.toFinset ::ₘ s.live := by
    rw [CDCLSatSolver.resumed, (Similar.backtrackToLevel _ k).live, recordLemma_eq]
    exact live_createClause hdata (C := lemmaClause lits) rfl
  have hcert : (s.resumed lits k).certificate = s.certificate.write [.addATClause lits] := by
    rw [CDCLSatSolver.resumed, recordLemma_eq]
    rfl
  exact h.add hr hcert hlive.le fun l hl => .inl (resumed_facts s lits k ▸ hl)

theorem Certified.resolveConflict {c : ClauseRef} (ha : Assumed K dead assumedFacts s) (hdata : Data Φ s)
    (hc : Clash s.clauses K Z dead c s.assignment) (h₂ : 2 ≤ s.assignment.currentLevel) {lowLBD : Bool}
    {r : ResolveResult × CDCLSatSolver} (he : s.resolveConflict lowLBD c = some r) : Certified P₀ U r.2 := by
  obtain ⟨lits, k, e, hl, hres, hcase⟩ := ha.toSearching.resolveConflict hdata hc h₂ lowLBD
  obtain rfl : e = r := Option.some.inj (hres.symm.trans he)
  cases hcase with
  | inl hfact =>
    obtain ⟨l, rfl, -, rfl⟩ := hfact
    refine h.add hl.rup rfl (Multiset.le_cons_self _ _) fun x hx => ?_
    exact (List.mem_append.mp hx).imp_right fun hx => by rw [List.mem_singleton.mp hx]; rfl
  | inr hclause =>
    obtain ⟨hlen, hlearn⟩ := hclause
    obtain ⟨t, ht⟩ : ∃ t, t = s.resumed lits k := ⟨_, rfl⟩
    have hcert : Certified P₀ U t := ht ▸ h.resumed hdata hl.rup k
    rw [hlearn, afterLemma_snd, ← ht]
    exact hcert.congr (.of_grows (grows_registerLemma_resumed hdata hc hl hlen ht).2) rfl

end

end CDCLSatSolver

end JamSAT
