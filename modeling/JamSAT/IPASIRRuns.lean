import JamSAT.IntLiterals
import JamSAT.SolverAnswers
import JamSAT.SolverCalls

/-!
# Runs of the IPASIR interface

What a client has told the solver is a problem that grows call by call: clauses
that stay, and assumptions for one call of `solve`. The answers of the interface
are about this problem.
-/

namespace JamSAT

namespace Ipasir

open UnitLogic

structure Answered where
  answer : Int
  clauses : List (List Int)
  assumptions : List Int
  deriving DecidableEq, Repr

structure IncrementalProblem where
  clauses : List (List Int)
  /-- the literals of the clause that is not ended yet -/
  clause : List Int
  /-- the assumptions for the next call of `solve` -/
  assumptions : List Int
  answered : Option Answered
  /-- a call has caught an exception: all later ones are ignored -/
  lost : Bool

namespace IncrementalProblem

def empty : IncrementalProblem := ⟨[], [], [], none, false⟩

def after (p : IncrementalProblem) (answer : Int) : Call → IncrementalProblem
  | .add lit_or_zero =>
    if p.lost then p
    else if lit_or_zero ≠ 0 then { p with clause := p.clause ++ [lit_or_zero] }
    else { p with clauses := p.clauses ++ [p.clause], clause := [] }
  | .assume lit => if p.lost then p else { p with assumptions := p.assumptions ++ [lit] }
  | .solve _ =>
    if p.lost then p
    else { p with assumptions := [], answered := some ⟨answer, p.clauses, p.assumptions⟩ }
  | .solveOutOfMemory _ _ =>
    if p.lost then p
    else { p with assumptions := [], answered := some ⟨answer, p.clauses, p.assumptions⟩, lost := true }
  | .setLogger => p
  | .catches => { p with lost := true }

end IncrementalProblem

def Call.Regular : Call → Prop
  | .add lit_or_zero => lit_or_zero ≠ 0 → IsLit lit_or_zero
  | .assume lit => IsLit lit
  | _ => True

instance : ∀ call : Call, Decidable call.Regular
  | .add lit_or_zero => inferInstanceAs (Decidable (lit_or_zero ≠ 0 → IsLit lit_or_zero))
  | .assume lit => inferInstanceAs (Decidable (IsLit lit))
  | .solve _ | .solveOutOfMemory _ _ | .setLogger | .catches => .isTrue trivial

structure Client where
  context : IPASIRContext
  problem : IncrementalProblem

namespace Client

def new : Client := ⟨.new, .empty⟩

def call (c : Client) (call : Call) : Option Client :=
  (c.context.call call).map fun (answer, context) => ⟨context, c.problem.after answer call⟩

def Reachable : Client → Prop :=
  Runs.Reachable (fun c => c = new) fun c c' => ∃ call : Call, call.Regular ∧ c.call call = some c'

def run (c : Client) (calls : List Call) : Option Client := calls.foldlM call c

theorem Reachable.run_get {calls : List Call} (hr : ∀ call ∈ calls, call.Regular)
    (h : (new.run calls).isSome = true) : ((new.run calls).get h).Reachable :=
  Runs.Reachable.foldlM (.init rfl) (fun call hc _ _ hs => ⟨call, hr call hc, hs⟩) (Option.some_get h).symm

/-! ## The invariant -/

def convertAll (clauses : List (List Int)) : List (List CNFLit) := clauses.map (List.map ofInt)

/-- The last answer is that of a result about the problem of its call. -/
structure ResultOf (context : IPASIRContext) (a : Answered) (r : SolvingResult) : Prop where
  result : context.m_result = some r
  answer : a.answer = resultCode r.isProblemSatisfiable
  failed : context.m_failedAssumptions = if r.isProblemSatisfiable.isFalse then r.getFailedAssumptions else []
  sound : r.Sound (convertAll a.clauses) (a.assumptions.map ofInt)
  blames : r.Blames (convertAll a.clauses) (a.assumptions.map ofInt)
  clauses : ∀ clause ∈ a.clauses, ∀ lit ∈ clause, IsLit lit
  assumptions : ∀ lit ∈ a.assumptions, IsLit lit

structure Inv (c : Client) : Prop where
  reachable : c.context.solver.Reachable
  ready : ∃ r, c.context.solver.control = .ready r
  added : c.context.solver.added = convertAll c.problem.clauses
  buffer : c.context.m_clauseAddBuffer = c.problem.clause.map ofInt
  assumptionBuffer : c.context.m_assumptionBuffer = c.problem.assumptions.map ofInt
  clauses : ∀ clause ∈ c.problem.clauses, ∀ lit ∈ clause, IsLit lit
  clause : ∀ lit ∈ c.problem.clause, IsLit lit
  assumptions : ∀ lit ∈ c.problem.assumptions, IsLit lit
  lost : c.context.m_failed = c.problem.lost
  answered : ∀ a, c.problem.answered = some a → a.answer = indeterminateResult ∨ ∃ r, ResultOf c.context a r

variable {c c' : Client} {lit : Int}

theorem convert_of_isLit (h : IsLit lit) : convert lit = some (ofInt lit) :=
  (if_neg h.1).trans (ipasirLitToCNFLit_of_isLit h)

theorem ResultOf.congr {context context' : IPASIRContext} {a : Answered} {r : SolvingResult}
    (h : ResultOf context a r) (hr : context'.m_result = context.m_result)
    (hf : context'.m_failedAssumptions = context.m_failedAssumptions) : ResultOf context' a r :=
  ⟨hr.trans h.result, h.answer, hf.trans h.failed, h.sound, h.blames, h.clauses, h.assumptions⟩

theorem Inv.new : Inv new where
  reachable := .init rfl
  ready := ⟨none, rfl⟩
  added := rfl
  buffer := rfl
  assumptionBuffer := rfl
  clauses _ h := absurd h List.not_mem_nil
  clause _ h := absurd h List.not_mem_nil
  assumptions _ h := absurd h List.not_mem_nil
  lost := rfl
  answered _ h := by cases h

theorem convert_of_map {α : Type} {f : CNFLit → α} {x : α} (h : IsLit lit) (he : (convert lit).map f = some x) :
    x = f (ofInt lit) := by
  rw [convert_of_isLit h] at he
  exact (Option.some.inj he).symm

section
variable (h : Inv c)
include h

theorem Inv.kept {context : IPASIRContext} (hr : context.m_result = c.context.m_result)
    (hf : context.m_failedAssumptions = c.context.m_failedAssumptions) :
    ∀ a, c.problem.answered = some a → a.answer = indeterminateResult ∨ ∃ r, ResultOf context a r := fun a ha =>
  (h.answered a ha).imp_right fun hres => hres.imp fun _ hres => hres.congr hr hf

theorem Inv.not_failed (hf : c.problem.lost = false) : ¬ c.context.m_failed = true := by
  rw [h.lost, hf]
  exact Bool.false_ne_true

theorem Inv.addLiteral {context : IPASIRContext} (hl : IsLit lit) (hs : c.context.add lit = some context)
    (hf : c.problem.lost = false) : Inv ⟨context, { c.problem with clause := c.problem.clause ++ [lit] }⟩ := by
  unfold IPASIRContext.add at hs
  rw [if_neg (h.not_failed hf), if_pos hl.1] at hs
  obtain rfl := convert_of_map hl hs
  refine ⟨h.reachable, h.ready, h.added, ?_, h.assumptionBuffer, h.clauses, ?_, h.assumptions, h.lost, h.kept rfl rfl⟩
  · show c.context.m_clauseAddBuffer ++ [ofInt lit] = (c.problem.clause ++ [lit]).map ofInt
    rw [h.buffer, List.map_append, List.map_singleton]
  · exact List.forall_mem_append.mpr ⟨h.clause, List.forall_mem_singleton.mpr hl⟩

theorem Inv.endClause {context : IPASIRContext} (hs : c.context.add 0 = some context)
    (hf : c.problem.lost = false) :
    Inv ⟨context, { c.problem with clauses := c.problem.clauses ++ [c.problem.clause], clause := [] }⟩ := by
  unfold IPASIRContext.add at hs
  rw [if_neg (h.not_failed hf), if_neg (not_not.mpr rfl)] at hs
  obtain ⟨m, hm, rfl⟩ := Option.map_eq_some_iff.mp hs
  have hreg : (Event.addClause c.context.m_clauseAddBuffer).Regular := by
    intro l hl
    rw [h.buffer] at hl
    obtain ⟨lit, hlit, rfl⟩ := List.mem_map.mp hl
    exact (h.clause lit hlit).var_lt
  have hreach : m.Reachable := .step h.reachable ⟨_, hreg, hm⟩
  obtain ⟨hadded, hready⟩ : m.added = c.context.solver.added ++ [c.context.m_clauseAddBuffer] ∧
      m.control = .ready none := by
    cases Machine.transition_of_step hm with
    | addClause => exact ⟨rfl, rfl⟩
  refine ⟨hreach, ⟨none, hready⟩, ?_, rfl, h.assumptionBuffer, ?_, List.forall_mem_nil _, h.assumptions, h.lost,
    h.kept rfl rfl⟩
  · show m.added = (c.problem.clauses ++ [c.problem.clause]).map (List.map ofInt)
    rw [hadded, h.added, h.buffer, List.map_append, List.map_singleton]
    rfl
  · exact List.forall_mem_append.mpr ⟨h.clauses, List.forall_mem_singleton.mpr h.clause⟩

theorem Inv.assume {context : IPASIRContext} (hl : IsLit lit) (hs : c.context.assume lit = some context)
    (hf : c.problem.lost = false) :
    Inv ⟨context, { c.problem with assumptions := c.problem.assumptions ++ [lit] }⟩ := by
  unfold IPASIRContext.assume at hs
  rw [if_neg (h.not_failed hf)] at hs
  obtain rfl := convert_of_map hl hs
  refine ⟨h.reachable, h.ready, h.added, h.buffer, ?_, h.clauses, h.clause, ?_, h.lost, h.kept rfl rfl⟩
  · show c.context.m_assumptionBuffer ++ [ofInt lit] = (c.problem.assumptions ++ [lit]).map ofInt
    rw [h.assumptionBuffer, List.map_append, List.map_singleton]
  · exact List.forall_mem_append.mpr ⟨h.assumptions, List.forall_mem_singleton.mpr hl⟩

theorem Inv.regular_assumptions : ∀ l ∈ c.context.m_assumptionBuffer, l.var < CNFVar.undefinedVariable := by
  intro l hl
  rw [h.assumptionBuffer] at hl
  obtain ⟨lit, hlit, rfl⟩ := List.mem_map.mp hl
  exact (h.assumptions lit hlit).var_lt

theorem Inv.solve {run : List Event} {answer : Int} {context : IPASIRContext}
    (hs : c.context.solve run = some (answer, context)) (hf : c.problem.lost = false) :
    Inv ⟨context, { c.problem with
      assumptions := [], answered := some ⟨answer, c.problem.clauses, c.problem.assumptions⟩ }⟩ := by
  unfold IPASIRContext.solve at hs
  rw [if_neg (h.not_failed hf)] at hs
  obtain ⟨⟨r, m⟩, hm, he⟩ := Option.map_eq_some_iff.mp hs
  obtain ⟨rfl, rfl⟩ := Prod.mk.inj he
  obtain ⟨hreach, hready, hadded, hsound, hblames⟩ := Machine.solved_of_solve h.reachable h.regular_assumptions hm
  rw [h.added, h.assumptionBuffer] at hsound hblames
  refine ⟨hreach, ⟨_, hready⟩, hadded.trans h.added, h.buffer, rfl, h.clauses, h.clause, List.forall_mem_nil _, h.lost,
    fun a ha => ?_⟩
  obtain rfl := Option.some.inj ha
  exact .inr ⟨r, rfl, rfl, rfl, hsound, hblames, h.clauses, h.assumptions⟩

theorem Inv.solveOutOfMemory {run : List Event} {copied : Nat} {answer : Int} {context : IPASIRContext}
    (hs : c.context.solveOutOfMemory run copied = some (answer, context)) (hf : c.problem.lost = false) :
    Inv ⟨context, { c.problem with
      assumptions := [], answered := some ⟨answer, c.problem.clauses, c.problem.assumptions⟩, lost := true }⟩ := by
  unfold IPASIRContext.solveOutOfMemory at hs
  rw [if_neg (h.not_failed hf)] at hs
  obtain ⟨⟨r, m⟩, hm, hs⟩ := Option.bind_eq_some_iff.mp hs
  dsimp only at hs
  split at hs
  · obtain ⟨rfl, rfl⟩ := Prod.mk.inj (Option.some.inj hs)
    obtain ⟨hreach, hready, hadded, -⟩ := Machine.solved_of_solve h.reachable h.regular_assumptions hm
    refine ⟨hreach, ⟨_, hready⟩, hadded.trans h.added, h.buffer, rfl, h.clauses, h.clause, List.forall_mem_nil _, rfl,
      fun a ha => ?_⟩
    obtain rfl := Option.some.inj ha
    exact .inl rfl
  · cases hs

theorem Inv.setLogger : Inv ⟨c.context.setLogger, c.problem⟩ :=
  ⟨h.reachable, h.ready, h.added, h.buffer, h.assumptionBuffer, h.clauses, h.clause, h.assumptions, h.lost,
    h.kept rfl rfl⟩

theorem Inv.catches : Inv ⟨{ c.context with m_failed := true }, { c.problem with lost := true }⟩ :=
  ⟨h.reachable, h.ready, h.added, h.buffer, h.assumptionBuffer, h.clauses, h.clause, h.assumptions, rfl,
    h.kept rfl rfl⟩

/-- A context that has failed keeps its state. -/
theorem Inv.ignore {call : Call} (hs : c.call call = some c') (hf : c.problem.lost = true) : Inv c' := by
  have hfailed := h.lost.trans hf
  obtain ⟨⟨answer, context⟩, hcall, rfl⟩ := Option.map_eq_some_iff.mp hs
  cases call with
  | add lit_or_zero =>
    have he : c.context.add lit_or_zero = some c.context := if_pos hfailed
    unfold IPASIRContext.call at hcall
    dsimp only at hcall
    rw [he] at hcall
    cases hcall
    show Inv ⟨c.context, if c.problem.lost then _ else _⟩
    rw [if_pos hf]
    exact h
  | assume lit =>
    have he : c.context.assume lit = some c.context := if_pos hfailed
    unfold IPASIRContext.call at hcall
    dsimp only at hcall
    rw [he] at hcall
    cases hcall
    show Inv ⟨c.context, if c.problem.lost then _ else _⟩
    rw [if_pos hf]
    exact h
  | solve run =>
    have he : c.context.solve run = some (indeterminateResult, c.context) := if_pos hfailed
    cases he.symm.trans hcall
    show Inv ⟨c.context, if c.problem.lost then _ else _⟩
    rw [if_pos hf]
    exact h
  | solveOutOfMemory run copied =>
    have he : c.context.solveOutOfMemory run copied = some (indeterminateResult, c.context) := if_pos hfailed
    cases he.symm.trans hcall
    show Inv ⟨c.context, if c.problem.lost then _ else _⟩
    rw [if_pos hf]
    exact h
  | setLogger =>
    cases hcall
    exact h.setLogger
  | catches =>
    cases hcall
    exact h.catches

theorem Inv.call {call : Call} (hreg : call.Regular) (hs : c.call call = some c') : Inv c' := by
  by_cases hlost : c.problem.lost = true
  · exact h.ignore hs hlost
  · have hf := Bool.eq_false_iff.mpr hlost
    obtain ⟨⟨answer, context⟩, hcall, rfl⟩ := Option.map_eq_some_iff.mp hs
    cases call with
    | add lit_or_zero =>
      obtain ⟨context, hadd, he⟩ := Option.map_eq_some_iff.mp hcall
      obtain ⟨rfl, rfl⟩ := Prod.mk.inj he
      show Inv ⟨context, if c.problem.lost then _ else _⟩
      rw [if_neg hlost]
      by_cases hz : lit_or_zero = 0
      · subst hz
        exact h.endClause hadd hf
      · rw [if_pos hz]
        exact h.addLiteral (hreg hz) hadd hf
    | assume lit =>
      obtain ⟨context, hadd, he⟩ := Option.map_eq_some_iff.mp hcall
      obtain ⟨rfl, rfl⟩ := Prod.mk.inj he
      show Inv ⟨context, if c.problem.lost then _ else _⟩
      rw [if_neg hlost]
      exact h.assume hreg hadd hf
    | solve run =>
      show Inv ⟨context, if c.problem.lost then _ else _⟩
      rw [if_neg hlost]
      exact h.solve hcall hf
    | solveOutOfMemory run copied =>
      show Inv ⟨context, if c.problem.lost then _ else _⟩
      rw [if_neg hlost]
      exact h.solveOutOfMemory hcall hf
    | setLogger =>
      cases hcall
      exact h.setLogger
    | catches =>
      cases hcall
      exact h.catches

end

theorem Inv.of_reachable (h : c.Reachable) : Inv c :=
  Runs.Reachable.invariant h (fun _ hc => hc ▸ .new) fun _ _ hc ⟨_, hreg, hs⟩ => hc.call hreg hs

theorem Inv.resultOf {a : Answered} (h : Inv c) (ha : c.problem.answered = some a)
    (hdecided : a.answer ≠ indeterminateResult) : ∃ r, ResultOf c.context a r :=
  (h.answered a ha).resolve_left hdecided

/-! ## Calls are defined -/

section
variable (h : Inv c)
include h

theorem Inv.add_isSome (hl : lit ≠ 0 → IsLit lit) : (c.context.add lit).isSome = true := by
  obtain ⟨r, hr⟩ := h.ready
  unfold IPASIRContext.add
  split
  · rfl
  · split
    · rename_i hz
      rw [convert_of_isLit (hl hz)]
      rfl
    · unfold Machine.step
      dsimp only
      rw [hr]
      rfl

omit h in
theorem assume_isSome (hl : IsLit lit) : (c.context.assume lit).isSome = true := by
  unfold IPASIRContext.assume
  split
  · rfl
  · rw [convert_of_isLit hl]
    rfl

theorem Inv.exists_solve :
    ∃ run, (∀ e ∈ run, e.asksToStop = false) ∧ (c.context.solve run).isSome = true := by
  obtain ⟨ready, hready⟩ := h.ready
  obtain ⟨run, r, m, hrun, hm⟩ := Machine.exists_solve h.reachable hready h.regular_assumptions
  refine ⟨run, hrun, ?_⟩
  unfold IPASIRContext.solve
  split
  · rfl
  · rw [hm]
    rfl

theorem Inv.answer_of_unstopped {run : List Event} {answer : Int} {context : IPASIRContext}
    (hf : c.problem.lost = false) (hrun : ∀ e ∈ run, e.asksToStop = false)
    (hs : c.context.solve run = some (answer, context)) :
    answer = satisfiableResult ∨ answer = unsatisfiableResult := by
  unfold IPASIRContext.solve at hs
  rw [if_neg (h.not_failed hf)] at hs
  obtain ⟨⟨r, m⟩, hm, he⟩ := Option.map_eq_some_iff.mp hs
  obtain ⟨rfl, -⟩ := Prod.mk.inj he
  have hne := Machine.decisive_of_solve hrun hm
  cases hb : r.isProblemSatisfiable with
  | TRUE => exact .inl rfl
  | FALSE => exact .inr rfl
  | INDETERMINATE => exact absurd hb hne

end

/-- No regular call is undefined, and a call of `solve` that nobody asks to stop
exists and answers. -/
theorem calls_defined (h : c.Reachable) :
    (∀ lit, (lit ≠ 0 → IsLit lit) → (c.call (.add lit)).isSome = true) ∧
    (∀ lit, IsLit lit → (c.call (.assume lit)).isSome = true) ∧
    (∃ run, (∀ e ∈ run, e.asksToStop = false) ∧ (c.call (.solve run)).isSome = true) ∧
    ∀ run c', c.problem.lost = false → (∀ e ∈ run, e.asksToStop = false) → c.call (.solve run) = some c' →
      ∃ a, c'.problem.answered = some a ∧ (a.answer = satisfiableResult ∨ a.answer = unsatisfiableResult) := by
  have hinv := Inv.of_reachable h
  have hcall : ∀ call, (c.context.call call).isSome = true → (c.call call).isSome = true := fun call hs => by
    unfold Client.call
    rwa [Option.isSome_map]
  refine ⟨fun lit hl => hcall _ ?_, fun lit hl => hcall _ ?_, ?_, fun run c' hf hrun hs => ?_⟩
  · show ((c.context.add lit).map _).isSome = true
    rw [Option.isSome_map]
    exact hinv.add_isSome hl
  · show ((c.context.assume lit).map _).isSome = true
    rw [Option.isSome_map]
    exact assume_isSome hl
  · obtain ⟨run, hrun, hs⟩ := hinv.exists_solve
    exact ⟨run, hrun, hcall _ hs⟩
  · obtain ⟨⟨answer, context⟩, hsolve, rfl⟩ := Option.map_eq_some_iff.mp hs
    refine ⟨⟨answer, c.problem.clauses, c.problem.assumptions⟩, ?_, hinv.answer_of_unstopped hf hrun hsolve⟩
    show (if c.problem.lost then _ else _ : IncrementalProblem).answered = _
    rw [if_neg (by rw [hf]; exact Bool.false_ne_true)]

/-! ## Values of literals -/

section
variable {context : IPASIRContext} {r : SolvingResult} {model : Model}

theorem val_eq (hr : context.m_result = some r) (hsat : r.isProblemSatisfiable = .TRUE)
    (hm : r.getModel = some model) (hl : IsLit lit) :
    context.val lit = some (if !(model.getAssignment (ofInt lit).var).isDeterminate then 0
      else if ((model.getAssignment (ofInt lit).var).xorSign (ofInt lit).sign).isTrue then lit else -lit) := by
  unfold IPASIRContext.val
  rw [hr, Option.bind_some, if_pos (TBool.isTrue_iff.mpr hsat), hm, Option.bind_some, convert_of_isLit hl]
  rfl

theorem val_eq_self_iff (hr : context.m_result = some r) (hsat : r.isProblemSatisfiable = .TRUE)
    (hm : r.getModel = some model) (hl : IsLit lit) :
    context.val lit = some lit ↔ model.getAssignment (ofInt lit).var = .ofSign (ofInt lit).sign := by
  have hne := hl.1
  have hneg : -lit ≠ lit := by omega
  rw [val_eq hr hsat hm hl]
  generalize (ofInt lit).sign = sign
  cases model.getAssignment (ofInt lit).var <;> cases sign <;>
    simp [TBool.isDeterminate, TBool.xorSign, TBool.negate, TBool.isTrue, TBool.ofSign, hne.symm, hneg]

theorem val_neg (hr : context.m_result = some r) (hsat : r.isProblemSatisfiable = .TRUE)
    (hm : r.getModel = some model) (hl : IsLit lit) : context.val (-lit) = context.val lit := by
  rw [val_eq hr hsat hm hl, val_eq hr hsat hm hl.neg, ofInt_neg hl.1, CNFLit.var_neg, CNFLit.sign_neg]
  generalize (ofInt lit).sign = sign
  cases model.getAssignment (ofInt lit).var <;> cases sign <;>
    simp [TBool.isDeterminate, TBool.xorSign, TBool.negate, TBool.isTrue, CNFSign.invert]

end

/-! ## The answers -/

theorem resultCode_satisfiable {b : TBool} : resultCode b = satisfiableResult ↔ b = .TRUE := by
  cases b <;> decide

theorem resultCode_unsatisfiable {b : TBool} : resultCode b = unsatisfiableResult ↔ b = .FALSE := by
  cases b <;> decide

section
variable {context : IPASIRContext} {a : Answered} {r : SolvingResult}

theorem ResultOf.val_assumption (h : ResultOf context a r) (hsat : r.isProblemSatisfiable = .TRUE)
    (ha : lit ∈ a.assumptions) : context.val lit = some lit := by
  obtain ⟨model, hm, hmodel⟩ := h.sound.sat hsat
  rw [val_eq_self_iff h.result hsat hm (h.assumptions lit ha)]
  have hex : ∃ l ∈ [ofInt lit], model.getAssignment l.var = .ofSign l.sign :=
    Model.exists_true (fun σ hσ => ⟨ofInt lit, by simp, (hmodel σ hσ).2 _ (List.mem_map_of_mem ha)⟩) fun l hl hn => by
      rw [List.mem_singleton] at hl hn
      exact absurd (hn.trans hl.symm) (CNFLit.neg_ne_self l)
  obtain ⟨l, hl, hv⟩ := hex
  rwa [List.mem_singleton.mp hl] at hv

theorem ResultOf.val_clause (h : ResultOf context a r) (hsat : r.isProblemSatisfiable = .TRUE) {clause : List Int}
    (hc : clause ∈ a.clauses) (hn : ∀ lit ∈ clause, -lit ∉ clause) :
    ∃ lit ∈ clause, context.val lit = some lit := by
  obtain ⟨model, hm, hmodel⟩ := h.sound.sat hsat
  have hlits := h.clauses clause hc
  have hsome : ∀ σ : Valuation CNFLit, model.Extended σ → σ.Satisfies (clause.map ofInt).toFinset :=
    fun σ hσ => (hmodel σ hσ).1 _ ⟨_, List.mem_map_of_mem hc, rfl⟩
  obtain ⟨l, hl, hv⟩ := Model.exists_true hsome fun l hl hneg => by
      obtain ⟨x, hx, rfl⟩ := List.mem_map.mp hl
      have hne := (hlits x hx).1
      rw [← ofInt_neg hne, mem_map_ofInt (Int.neg_ne_zero.mpr hne) fun y hy => (hlits y hy).1] at hneg
      exact absurd hneg (hn x hx)
  obtain ⟨lit, hlit, rfl⟩ := List.mem_map.mp hl
  exact ⟨lit, hlit, (val_eq_self_iff h.result hsat hm (hlits lit hlit)).mpr hv⟩

theorem ResultOf.models (h : ResultOf context a r) (hsat : r.isProblemSatisfiable = .TRUE) {σ : Nat → Bool}
    (hσ : ∀ lit, IsLit lit → context.val lit = some lit → Holds σ lit) :
    Models σ a.clauses ∧ ∀ lit ∈ a.assumptions, Holds σ lit := by
  refine ⟨fun clause hc => ?_, fun lit hl => hσ lit (h.assumptions lit hl) (h.val_assumption hsat hl)⟩
  have hlits := h.clauses clause hc
  by_cases hn : ∀ lit ∈ clause, -lit ∉ clause
  · obtain ⟨lit, hlit, hv⟩ := h.val_clause hsat hc hn
    exact ⟨lit, hlit, hσ lit (hlits lit hlit) hv⟩
  · push Not at hn
    obtain ⟨lit, hlit, hneg⟩ := hn
    by_cases hh : Holds σ lit
    · exact ⟨lit, hlit, hh⟩
    · exact ⟨-lit, hneg, (holds_neg_iff (hlits lit hlit).1).mpr hh⟩

def valuesOf (context : IPASIRContext) (n : Nat) : Bool := decide (context.val n = some (n : Int))

theorem ResultOf.models_values (h : ResultOf context a r) (hsat : r.isProblemSatisfiable = .TRUE) :
    Models (valuesOf context) a.clauses := by
  refine (h.models hsat fun lit hl hv => ?_).1
  obtain ⟨model, hm, -⟩ := h.sound.sat hsat
  have hne := hl.1
  unfold Holds valuesOf
  by_cases hpos : 0 < lit
  · rw [show (lit.natAbs : Int) = lit by omega, hv, decide_eq_true hpos]
    exact decide_eq_true rfl
  · rw [show (lit.natAbs : Int) = -lit by omega, val_neg h.result hsat hm hl, hv, decide_eq_false hpos]
    exact decide_eq_false fun he => hpos (by have := Option.some.inj he; omega)

theorem ResultOf.unsat (h : ResultOf context a r) (hunsat : r.isProblemSatisfiable = .FALSE) (σ : Nat → Bool)
    (hσ : Models σ a.clauses) : ∃ lit ∈ a.assumptions, ¬ Holds σ lit :=
  (unsat_iff (fun clause hc lit hl => (h.clauses clause hc lit hl).1) fun lit hl => (h.assumptions lit hl).1).mp
    (h.sound.unsat hunsat) σ hσ

end

/-- After `satisfiableResult`, `val` is a model of the clauses and the assumptions of
that call: its literals are true in it, and so is every clause without
complementary literals; every assignment that agrees with it is a model. -/
theorem val_sound {a : Answered} (h : c.Reachable) (ha : c.problem.answered = some a)
    (hsat : a.answer = satisfiableResult) :
    (∀ lit, IsLit lit → ∃ v, c.context.val lit = some v ∧ c.context.val (-lit) = some v ∧
      (v = 0 ∨ v = lit ∨ v = -lit)) ∧
    (∀ lit ∈ a.assumptions, c.context.val lit = some lit) ∧
    (∀ clause ∈ a.clauses, (∀ lit ∈ clause, -lit ∉ clause) → ∃ lit ∈ clause, c.context.val lit = some lit) ∧
    ∀ σ, (∀ lit, IsLit lit → c.context.val lit = some lit → Holds σ lit) →
      Models σ a.clauses ∧ ∀ lit ∈ a.assumptions, Holds σ lit := by
  obtain ⟨r, hr⟩ := (Inv.of_reachable h).resultOf ha (by rw [hsat]; decide)
  have hsat := resultCode_satisfiable.mp (hr.answer.symm.trans hsat)
  obtain ⟨model, hm, -⟩ := hr.sound.sat hsat
  refine ⟨fun lit hl => ?_, fun lit hl => hr.val_assumption hsat hl, fun clause => hr.val_clause hsat,
    fun σ => hr.models hsat⟩
  rw [val_neg hr.result hsat hm hl, val_eq hr.result hsat hm hl]
  refine ⟨_, rfl, rfl, ?_⟩
  split
  · exact .inl rfl
  · split
    · exact .inr (.inl rfl)
    · exact .inr (.inr rfl)

def propagating : List Event :=
  [.trySimplify, .tryReduceClauseDB [] false, .propagateHardFacts, .propagateAssumedFacts]

def satisfiableCalls : List Call := [.add 1, .add 2, .add 0, .assume (-1), .solve (propagating ++ [.finish])]

def satisfied : Client := (new.run satisfiableCalls).get (by decide +kernel)

theorem satisfied_val :
    (∀ lit, IsLit lit → ∃ v, satisfied.context.val lit = some v ∧ satisfied.context.val (-lit) = some v ∧
      (v = 0 ∨ v = lit ∨ v = -lit)) ∧
    (∀ lit ∈ ([-1] : List Int), satisfied.context.val lit = some lit) ∧
    (∀ clause ∈ ([[1, 2]] : List (List Int)), (∀ lit ∈ clause, -lit ∉ clause) →
      ∃ lit ∈ clause, satisfied.context.val lit = some lit) ∧
    ∀ σ, (∀ lit, IsLit lit → satisfied.context.val lit = some lit → Holds σ lit) →
      Models σ [[1, 2]] ∧ ∀ lit ∈ ([-1] : List Int), Holds σ lit :=
  val_sound (a := ⟨10, [[1, 2]], [-1]⟩) (.run_get (by decide +kernel) _) (by decide +kernel) rfl

/-- After `unsatisfiableResult`, no model of the clauses makes all assumptions of that
call true. `failed` holds for assumptions only, and if it holds for none, the
clauses have no model. -/
theorem failed_sound {a : Answered} (h : c.Reachable) (ha : c.problem.answered = some a)
    (hunsat : a.answer = unsatisfiableResult) :
    (∀ σ, Models σ a.clauses → ∃ lit ∈ a.assumptions, ¬ Holds σ lit) ∧
    (∀ lit, IsLit lit → c.context.failed lit = some 0 ∨ c.context.failed lit = some 1 ∧ lit ∈ a.assumptions) ∧
    ((∀ lit ∈ a.assumptions, c.context.failed lit = some 0) → ∀ σ, ¬ Models σ a.clauses) := by
  obtain ⟨r, hr⟩ := (Inv.of_reachable h).resultOf ha (by rw [hunsat]; decide)
  have hunsat := resultCode_unsatisfiable.mp (hr.answer.symm.trans hunsat)
  have hfailed := hr.failed
  rw [if_pos (TBool.isFalse_iff.mpr hunsat)] at hfailed
  have hne : ∀ clause ∈ a.clauses, ∀ lit ∈ clause, lit ≠ 0 := fun clause hc lit hl => (hr.clauses clause hc lit hl).1
  have hvalue : ∀ lit, IsLit lit →
      c.context.failed lit = some (if ofInt lit ∈ r.getFailedAssumptions then 1 else 0) := by
    intro lit hl
    unfold IPASIRContext.failed
    rw [convert_of_isLit hl, hfailed]
    rfl
  refine ⟨hr.unsat hunsat, fun lit hl => ?_, fun hzero => ?_⟩
  · rw [hvalue lit hl]
    split
    · rename_i hm
      refine .inr ⟨rfl, ?_⟩
      exact (mem_map_ofInt hl.1 fun x hx => (hr.assumptions x hx).1).mp (hr.blames.assumed _ hm)
    · exact .inl rfl
  · have hnil : r.getFailedAssumptions = [] := by
      rw [List.eq_nil_iff_forall_not_mem]
      intro l hl
      obtain ⟨lit, hlit, rfl⟩ := List.mem_map.mp (hr.blames.assumed l hl)
      have := hzero lit hlit
      rw [hvalue lit (hr.assumptions lit hlit), if_pos hl] at this
      cases this
    have hu : ∀ σ, Models σ a.clauses → ∃ lit ∈ ([] : List Int), ¬ Holds σ lit :=
      (unsat_iff hne (List.forall_mem_nil _)).mp (Machine.unsat_union (hr.blames.unsat_of_nil hunsat hnil))
    intro σ hσ
    obtain ⟨lit, hlit, -⟩ := hu σ hσ
    cases hlit

def unsatisfiableCalls : List Call :=
  satisfiableCalls ++ [.add (-2), .add 0, .assume (-1), .solve propagating]

def unsatisfied : Client := (new.run unsatisfiableCalls).get (by decide +kernel)

theorem unsatisfied_failed :
    (∀ σ, Models σ [[1, 2], [-2]] → ∃ lit ∈ ([-1] : List Int), ¬ Holds σ lit) ∧
    (∀ lit, IsLit lit → unsatisfied.context.failed lit = some 0 ∨
      unsatisfied.context.failed lit = some 1 ∧ lit ∈ ([-1] : List Int)) ∧
    ((∀ lit ∈ ([-1] : List Int), unsatisfied.context.failed lit = some 0) → ∀ σ, ¬ Models σ [[1, 2], [-2]]) :=
  failed_sound (a := ⟨20, [[1, 2], [-2]], [-1]⟩) (.run_get (by decide +kernel) _) (by decide +kernel) rfl

theorem satisfied_calls_defined :
    (∀ lit, (lit ≠ 0 → IsLit lit) → (satisfied.call (.add lit)).isSome = true) ∧
    (∀ lit, IsLit lit → (satisfied.call (.assume lit)).isSome = true) ∧
    (∃ run, (∀ e ∈ run, e.asksToStop = false) ∧ (satisfied.call (.solve run)).isSome = true) ∧
    ∀ run c', satisfied.problem.lost = false → (∀ e ∈ run, e.asksToStop = false) →
      satisfied.call (.solve run) = some c' →
        ∃ a, c'.problem.answered = some a ∧ (a.answer = satisfiableResult ∨ a.answer = unsatisfiableResult) :=
  calls_defined (.run_get (by decide +kernel) _)

end Client

end Ipasir

end JamSAT
