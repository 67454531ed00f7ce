import JamSAT.IPASIRRuns
import JamSAT.JamSATMain
import JamSAT.ProblemDelivery

/-!
# What the program prints

From the text of a problem file to the printed answer: the clauses of the text
reach the solver, and what is printed is right about them.
-/

namespace JamSAT

open Ipasir

/-! ## Clauses that have been passed on -/

def Told (context : IPASIRContext) (clauses : List (List Int)) : Prop :=
  ∃ answered, Client.Reachable ⟨context, clauses, [], [], answered, false⟩

section
variable {context context' : IPASIRContext} {clauses : List (List Int)} {clause : List Int} {run : List Event}

theorem Told.new : Told .new [] := ⟨none, .init rfl⟩

theorem Told.setLogger (h : Told context clauses) : Told context.setLogger clauses := by
  obtain ⟨answered, h⟩ := h
  exact ⟨answered, .step h ⟨.setLogger, trivial, rfl⟩⟩

theorem add_literals {answered : Option Answered} {lits : List Int}
    (h : Client.Reachable ⟨context, clauses, clause, [], answered, false⟩) (hl : ∀ lit ∈ lits, IsLit lit)
    (hs : lits.foldlM IPASIRContext.add context = some context') :
    Client.Reachable ⟨context', clauses, clause ++ lits, [], answered, false⟩ := by
  induction lits generalizing context clause with
  | nil =>
    cases hs
    rwa [List.append_nil]
  | cons lit lits ih =>
    obtain ⟨hlit, hlits⟩ := List.forall_mem_cons.mp hl
    rw [List.foldlM_cons] at hs
    obtain ⟨c, hc, hs⟩ := Option.bind_eq_some_iff.mp hs
    rw [← List.singleton_append, ← List.append_assoc]
    refine ih (.step h ⟨.add lit, fun _ => hlit, ?_⟩) hlits hs
    unfold Client.call IPASIRContext.call
    dsimp only
    rw [hc]
    show some (Client.mk c (if lit ≠ 0 then _ else _)) = _
    rw [if_pos hlit.1]

theorem Told.addClause (h : Told context clauses) (hl : ∀ lit ∈ clause, IsLit lit)
    (hs : IpasirSolver.addClause context clause = some context') : Told context' (clauses ++ [clause]) := by
  obtain ⟨answered, h⟩ := h
  unfold IpasirSolver.addClause at hs
  rw [List.foldlM_append] at hs
  obtain ⟨c, hc, hs⟩ := Option.bind_eq_some_iff.mp hs
  obtain ⟨c', hc', hs⟩ := Option.bind_eq_some_iff.mp hs
  cases hs
  refine ⟨answered, .step (add_literals h hl hc) ⟨.add 0, fun hz => absurd rfl hz, ?_⟩⟩
  unfold Client.call IPASIRContext.call
  dsimp only
  rw [hc']
  rfl

theorem add_literals_isSome {answered : Option Answered} {lits : List Int}
    (h : Client.Reachable ⟨context, clauses, clause, [], answered, false⟩) (hl : ∀ lit ∈ lits, IsLit lit) :
    (lits.foldlM IPASIRContext.add context).isSome = true := by
  induction lits generalizing context clause with
  | nil => rfl
  | cons lit lits ih =>
    obtain ⟨hlit, hlits⟩ := List.forall_mem_cons.mp hl
    obtain ⟨c, hc⟩ := Option.isSome_iff_exists.mp ((Client.Inv.of_reachable h).add_isSome fun _ => hlit)
    rw [List.foldlM_cons, hc]
    have hone : [lit].foldlM IPASIRContext.add context = some c := by simpa using hc
    exact ih (add_literals h (List.forall_mem_singleton.mpr hlit) hone) hlits

theorem Told.addClause_isSome (h : Told context clauses) (hl : ∀ lit ∈ clause, IsLit lit) :
    (IpasirSolver.addClause context clause).isSome = true := by
  obtain ⟨answered, h⟩ := h
  obtain ⟨c, hc⟩ := Option.isSome_iff_exists.mp (add_literals_isSome h hl)
  have hzero : (c.add 0).isSome = true :=
    (Client.Inv.of_reachable (add_literals h hl hc)).add_isSome fun hz => absurd rfl hz
  obtain ⟨c', hc'⟩ := Option.isSome_iff_exists.mp hzero
  unfold IpasirSolver.addClause
  rw [List.foldlM_append, hc]
  show (([0] : List Int).foldlM IPASIRContext.add c).isSome = true
  rw [List.foldlM_cons, hc']
  rfl

theorem Told.addClauses {added : List (List Int)} (h : Told context clauses)
    (hl : ∀ clause ∈ added, ∀ lit ∈ clause, IsLit lit)
    (hs : added.foldlM IpasirSolver.addClause context = some context') : Told context' (clauses ++ added) := by
  induction added generalizing context clauses with
  | nil =>
    cases hs
    rwa [List.append_nil]
  | cons clause added ih =>
    obtain ⟨hclause, hadded⟩ := List.forall_mem_cons.mp hl
    rw [List.foldlM_cons] at hs
    obtain ⟨c, hc, hs⟩ := Option.bind_eq_some_iff.mp hs
    rw [← List.singleton_append, ← List.append_assoc]
    exact ih (h.addClause hclause hc) hadded hs

theorem Told.addClauses_isSome {added : List (List Int)} (h : Told context clauses)
    (hl : ∀ clause ∈ added, ∀ lit ∈ clause, IsLit lit) :
    (added.foldlM IpasirSolver.addClause context).isSome = true := by
  induction added generalizing context clauses with
  | nil => rfl
  | cons clause added ih =>
    obtain ⟨hclause, hadded⟩ := List.forall_mem_cons.mp hl
    obtain ⟨context', hc⟩ := Option.isSome_iff_exists.mp (h.addClause_isSome hclause)
    rw [List.foldlM_cons, hc]
    exact ih (h.addClause hclause hc) hadded

theorem Told.solve {result : IpasirSolver.Result} (h : Told context clauses)
    (hs : IpasirSolver.solve context [] run = some (result, context')) :
    (result = .SATISFIABLE → ∃ σ, Models σ clauses) ∧ (result = .UNSATISFIABLE → ∀ σ, ¬ Models σ clauses) := by
  obtain ⟨answered, h⟩ := h
  obtain ⟨c, hc, hs⟩ := Option.bind_eq_some_iff.mp hs
  cases hc
  obtain ⟨⟨answer, c⟩, hc, he⟩ := Option.map_eq_some_iff.mp hs
  obtain ⟨rfl, rfl⟩ := Prod.mk.inj he
  have hcall : Client.Reachable ⟨c, clauses, [], [], some ⟨answer, clauses, []⟩, false⟩ := by
    refine .step h ⟨.solve run, trivial, ?_⟩
    show (context.solve run).map _ = _
    rw [hc]
    rfl
  by_cases hzero : answer = indeterminateResult
  · subst hzero
    exact ⟨fun hsat => absurd hsat (by decide), fun hunsat => absurd hunsat (by decide)⟩
  obtain ⟨r, hr⟩ := (Client.Inv.of_reachable hcall).resultOf rfl hzero
  have hcode : answer = resultCode r.isProblemSatisfiable := hr.answer
  constructor
  · intro hsat
    have hsat : r.isProblemSatisfiable = .TRUE := by
      rw [hcode] at hsat
      cases hb : r.isProblemSatisfiable with
      | TRUE => rfl
      | _ =>
        rw [hb] at hsat
        cases hsat
    exact ⟨_, hr.models_values hsat⟩
  · intro hunsat σ hσ
    have hunsat : r.isProblemSatisfiable = .FALSE := by
      rw [hcode] at hunsat
      cases hb : r.isProblemSatisfiable with
      | FALSE => rfl
      | _ =>
        rw [hb] at hunsat
        cases hunsat
    obtain ⟨lit, hlit, -⟩ := hr.unsat hunsat σ hσ
    cases hlit

theorem Told.exists_solve (h : Told context clauses) :
    ∃ run, (∀ e ∈ run, e.asksToStop = false) ∧ (IpasirSolver.solve context [] run).isSome = true := by
  obtain ⟨answered, h⟩ := h
  obtain ⟨run, hrun, hs⟩ := (Client.Inv.of_reachable h).exists_solve
  refine ⟨run, hrun, ?_⟩
  unfold IpasirSolver.solve
  rw [List.foldlM_nil]
  show ((context.solve run).map _).isSome = true
  rwa [Option.isSome_map]

theorem Told.determined {result : IpasirSolver.Result} (h : Told context clauses)
    (hrun : ∀ e ∈ run, e.asksToStop = false)
    (hs : IpasirSolver.solve context [] run = some (result, context')) : result ≠ .INDETERMINATE := by
  obtain ⟨answered, h⟩ := h
  obtain ⟨c, hc, hs⟩ := Option.bind_eq_some_iff.mp hs
  cases hc
  obtain ⟨⟨answer, c⟩, hc, he⟩ := Option.map_eq_some_iff.mp hs
  obtain ⟨rfl, rfl⟩ := Prod.mk.inj he
  rcases (Client.Inv.of_reachable h).answer_of_unstopped rfl hrun hc with rfl | rfl <;> decide

end

/-! ## The problem file -/

namespace Parser

variable {content : List Char} {header : DIMACSHeader} {file : GzFile} {clauses : List (List Int)} {tail : List Int}

theorem foldl_take_groups (hz : ∀ c ∈ clauses, (0 : Int) ∉ c) (ht : (0 : Int) ∉ tail) :
    ((clauses.flatMap (· ++ [0]) ++ tail).foldl Reader.take .new).added = clauses := by
  have hgroup : ∀ (c : List Int) (r : Reader), (0 : Int) ∉ c → r.clauseBuffer = [] →
      (((c ++ [0]).foldl Reader.take r).added = r.added ++ [c]) ∧ ((c ++ [0]).foldl Reader.take r).clauseBuffer = [] := by
    intro c r hc hb
    have hread := r.foldl_take c
    rw [List.foldl_append, List.foldl_cons, List.foldl_nil, Reader.take_zero, (r.foldl_take_of_nonzero c hc).1]
    rw [(r.foldl_take_of_nonzero c hc).1, hb, List.append_nil] at hread
    rw [List.append_cancel_left hread]
    exact ⟨rfl, rfl⟩
  rw [List.foldl_append, (Reader.foldl_take_of_nonzero _ tail ht).1]
  suffices h : ∀ r : Reader, r.clauseBuffer = [] →
      ((clauses.flatMap (· ++ [0])).foldl Reader.take r).added = r.added ++ clauses from h .new rfl
  clear ht
  induction clauses with
  | nil => exact fun r _ => (List.append_nil _).symm
  | cons c clauses ih =>
    intro r hb
    obtain ⟨hc, hrest⟩ := List.forall_mem_cons.mp hz
    obtain ⟨hadded, hb'⟩ := hgroup c r hc hb
    rw [List.flatMap_cons, List.foldl_append, ih hrest _ hb', hadded, List.append_assoc, List.singleton_append]

theorem count_groups (hz : ∀ c ∈ clauses, (0 : Int) ∉ c) (ht : (0 : Int) ∉ tail) :
    (clauses.flatMap (· ++ [0]) ++ tail).count 0 = clauses.length := by
  have hlen := Reader.new.foldl_take_length (clauses.flatMap (· ++ [0]) ++ tail)
  rw [foldl_take_groups hz ht] at hlen
  exact (hlen.trans (Nat.zero_add _)).symm

/-- The clauses of the text are read, and there is an error exactly if the header announces another number. -/
theorem readProblem_of_lexed (hh : readHeader ⟨content, false⟩ = .ok (header, file))
    (hcounted : ∀ chunk ∈ chunks preferredChunkReadSize file.rest, counted chunk = true)
    (hlex : Lexed file.rest (clauses.flatMap (· ++ [0]) ++ tail)) (hz : ∀ c ∈ clauses, (0 : Int) ∉ c)
    (ht : (0 : Int) ∉ tail) :
    (readProblem content).1 = clauses ∧
      ((readProblem content).2 = none ↔ clauses.length % uint32Size = header.numClauses) := by
  have hn : 0 < preferredChunkReadSize := by decide
  have heof : file.eof = false := readHeader_eof hh
  have hkept : kept preferredChunkReadSize file.rest = file.rest := by
    have := (kept_append_lost hn file.rest).1
    rwa [(lost_eq_nil_iff _ _).mpr hcounted, List.append_nil] at this
  have hread : readProblem content =
      checkCount header ((clauses.flatMap (· ++ [0]) ++ tail).foldl Reader.take .new, none) := by
    unfold readProblem
    rw [hh]
    dsimp only
    rw [readClauses_eq hn (fun h => absurd (heof.symm.trans h) Bool.false_ne_true) heof, hkept, Reader.read,
      literals_iff_lexed.mpr hlex]
  have hsome := checkCount_isSome header ((clauses.flatMap (· ++ [0]) ++ tail).foldl Reader.take .new) none
  rw [hread, checkCount_fst]
  refine ⟨foldl_take_groups hz ht, ?_⟩
  rw [new_effective, count_groups hz ht] at hsome
  rw [← Option.not_isSome_iff_eq_none, hsome]
  exact ⟨fun h => by_contra fun hne => h (.inr hne), fun h hn => hn.elim (fun hn => hn rfl) fun hn => hn h⟩

end Parser

/-! ## The answer -/

namespace Frontend

structure Ends (o : Output) (line : String) (exitCode : Int) : Prop where
  exitCode : o.exitCode = exitCode
  printed : ∃ before, o.out = before ++ line
  silent : o.err = ""

variable {context : IPASIRContext} {clauses : List (List Int)} {run : List Event} {o : Output} {out : String}

def Answers (o : Output) (clauses : List (List Int)) : Prop :=
  Ends o "SATISFIABLE\n" 10 ∧ (∃ σ, Models σ clauses) ∨
    Ends o "UNSATISFIABLE\n" 20 ∧ (∀ σ, ¬ Models σ clauses) ∨ Ends o "INDETERMINATE\n" 0

theorem solve_answers (h : Told context clauses) (hs : solve context run out = some o) : Answers o clauses := by
  obtain ⟨⟨result, c⟩, hc, he⟩ := Option.map_eq_some_iff.mp hs
  obtain ⟨hsat, hunsat⟩ := h.solve hc
  cases result with
  | SATISFIABLE =>
    cases he
    exact .inl ⟨⟨rfl, ⟨out, rfl⟩, rfl⟩, hsat rfl⟩
  | UNSATISFIABLE =>
    cases he
    exact .inr (.inl ⟨⟨rfl, ⟨out, rfl⟩, rfl⟩, hunsat rfl⟩)
  | INDETERMINATE =>
    cases he
    exact .inr (.inr ⟨rfl, ⟨out, rfl⟩, rfl⟩)

theorem solve_determined (h : Told context clauses) (hrun : ∀ e ∈ run, e.asksToStop = false)
    (hs : solve context run out = some o) : ¬ Ends o "INDETERMINATE\n" 0 := by
  obtain ⟨⟨result, c⟩, hc, he⟩ := Option.map_eq_some_iff.mp hs
  have hne := h.determined hrun hc
  intro hends
  cases result with
  | SATISFIABLE =>
    cases he
    have : (10 : Int) = 0 := hends.exitCode
    omega
  | UNSATISFIABLE =>
    cases he
    have : (20 : Int) = 0 := hends.exitCode
    omega
  | INDETERMINATE => exact hne rfl

/-- The file can be read without a loss: it is a text of these clauses, whose literals
the solver can represent, and of literals behind the last 0. -/
structure Readable (content : List Char) (header : Parser.DIMACSHeader) (clauses : List (List Int)) : Prop where
  text : ∃ file tail, Parser.readHeader ⟨content, false⟩ = .ok (header, file) ∧
    (∀ chunk ∈ Parser.chunks Parser.preferredChunkReadSize file.rest, Parser.counted chunk = true) ∧
    Parser.Lexed file.rest (clauses.flatMap (· ++ [0]) ++ tail) ∧ (0 : Int) ∉ tail
  literals : ∀ clause ∈ clauses, ∀ lit ∈ clause, IsLit lit

section
variable {signature log : String} {openFile : String → Option (List Char)} {options : JamSATOptions}
  {content : List Char} {header : Parser.DIMACSHeader}

theorem Readable.readProblem (h : Readable content header clauses) : (Parser.readProblem content).1 = clauses ∧
    ((Parser.readProblem content).2 = none ↔ clauses.length % uint32Size = header.numClauses) := by
  obtain ⟨⟨file, tail, hh, hcounted, hlex, ht⟩, hlits⟩ := h
  exact Parser.readProblem_of_lexed hh hcounted hlex (fun clause hc hm => (hlits clause hc 0 hm).1 rfl) ht

/-- The program once the file has been opened. -/
theorem jamsatMain_eq (signature log : String) (h : Readable content header clauses) (hquit : options.quit = false)
    (hversion : options.printVersion = false) (hopen : openFile options.problemFilename = some content) :
    ∃ c out, Told c clauses ∧ ∀ run,
      ((Parser.readProblem content).2 = none → jamsatMain signature openFile (some options) run log =
        solve c run (if options.verbose then out ++ log else out)) ∧
      ∀ message, (Parser.readProblem content).2 = some message →
        jamsatMain signature openFile (some options) run log =
          some ⟨out, printErrorMessage message, exitFailure⟩ := by
  have hnew : Told (if options.verbose = true then IPASIRContext.new.setLogger else .new) [] := by
    split
    · exact Told.new.setLogger
    · exact Told.new
  obtain ⟨c, hc⟩ := Option.isSome_iff_exists.mp (hnew.addClauses_isSome h.literals)
  refine ⟨c, if options.verbose then prompt options ++ readingMessage content else prompt options,
    hnew.addClauses h.literals hc, fun run => ?_⟩
  unfold jamsatMain
  dsimp only
  rw [if_neg (by rw [hquit]; exact Bool.false_ne_true), if_neg (by rw [hversion]; exact Bool.false_ne_true), hopen]
  dsimp only
  unfold IpasirSolver.readProblem
  rw [h.readProblem.1, hc]
  refine ⟨fun hn => ?_, fun message hm => ?_⟩
  · rw [hn]
    rfl
  · rw [hm]
    rfl

theorem err_ne_empty (message : String) : printErrorMessage message ≠ "" := by
  intro he
  have hlen := congrArg String.length he
  unfold printErrorMessage at hlen
  rw [String.length_append, String.length_append] at hlen
  have hprefix : "Error: ".length = 7 := rfl
  have hempty : "".length = 0 := rfl
  omega

/-- The answer for a readable file is right whoever asks the solver to stop, and there
is an error message instead exactly if the header does not announce the number
of the clauses. -/
theorem jamsatMain_sound (h : Readable content header clauses) (hquit : options.quit = false)
    (hversion : options.printVersion = false) (hopen : openFile options.problemFilename = some content)
    (run : List Event) :
    (clauses.length % uint32Size = header.numClauses →
      ∀ o, jamsatMain signature openFile (some options) run log = some o → Answers o clauses) ∧
    (clauses.length % uint32Size ≠ header.numClauses →
      ∃ o, jamsatMain signature openFile (some options) run log = some o ∧ o.exitCode = exitFailure ∧ o.err ≠ "") := by
  obtain ⟨c, out, hc, he⟩ := jamsatMain_eq signature log h hquit hversion hopen
  have herror := h.readProblem.2
  cases hmessage : (Parser.readProblem content).2 with
  | some message =>
    rw [hmessage] at herror
    exact ⟨fun hn => (by cases herror.mpr hn), fun _ => ⟨_, (he run).2 message hmessage, rfl, err_ne_empty message⟩⟩
  | none =>
    rw [(he run).1 hmessage]
    exact ⟨fun _ o ho => solve_answers hc ho, fun hn => absurd (herror.mp hmessage) hn⟩

def small : List Char := "p cnf 2 1\n1 -2 0\n".toList

theorem small_readable : Readable small ⟨2, 1⟩ [[1, -2]] where
  text := ⟨⟨"1 -2 0\n".toList, false⟩, [], by decide +kernel, by decide +kernel,
    Parser.literals_iff_lexed.mp (by decide +kernel), List.not_mem_nil⟩
  literals := by decide

def smallOptions : JamSATOptions := ⟨"small.cnf", false, false, false, false⟩

def smallRun : List Event := Client.propagating ++ [.decide ⟨0, .negative⟩, .continue false false, .finish]

theorem small_answers : ∃ o, jamsatMain "" (fun _ => some small) (some smallOptions) smallRun "" = some o ∧
    Answers o [[1, -2]] :=
  have ho : jamsatMain "" (fun _ => some small) (some smallOptions) smallRun "" = some ⟨"SATISFIABLE\n", "", 10⟩ := by
    decide +kernel
  ⟨_, ho, (jamsatMain_sound small_readable rfl rfl rfl smallRun).1 (by decide) _ ho⟩

/-- Without a timeout the program decides the problem of a readable file. -/
theorem jamsatMain_decides (h : Readable content header clauses)
    (hcount : clauses.length % uint32Size = header.numClauses) (hquit : options.quit = false)
    (hversion : options.printVersion = false) (hopen : openFile options.problemFilename = some content) :
    (∃ run, (∀ e ∈ run, e.asksToStop = false) ∧
      (jamsatMain signature openFile (some options) run log).isSome = true) ∧
    ∀ run o, (∀ e ∈ run, e.asksToStop = false) → jamsatMain signature openFile (some options) run log = some o →
      (Ends o "SATISFIABLE\n" 10 ↔ ∃ σ, Models σ clauses) ∧ (Ends o "UNSATISFIABLE\n" 20 ↔ ¬ ∃ σ, Models σ clauses) := by
  obtain ⟨c, out, hc, he⟩ := jamsatMain_eq signature log h hquit hversion hopen
  have hrun := fun run => (he run).1 (h.readProblem.2.mpr hcount)
  constructor
  · obtain ⟨run, hn, hs⟩ := hc.exists_solve
    refine ⟨run, hn, ?_⟩
    rw [hrun]
    unfold solve
    rwa [Option.isSome_map]
  · intro run o hn ho
    rw [hrun] at ho
    have hdet := solve_determined hc hn ho
    rcases solve_answers hc ho with ⟨hends, hsat⟩ | ⟨hends, hunsat⟩ | hends
    · refine ⟨iff_of_true hends hsat, iff_of_false (fun hn => ?_) (not_not.mpr hsat)⟩
      exact absurd (hends.exitCode.symm.trans hn.exitCode) (by decide)
    · have hn : ¬ ∃ σ, Models σ clauses := fun hex => hex.elim hunsat
      refine ⟨iff_of_false (fun hs => ?_) hn, iff_of_true hends hn⟩
      exact absurd (hends.exitCode.symm.trans hs.exitCode) (by decide)
    · exact absurd hends hdet

end

theorem small_decided : (∃ run, (∀ e ∈ run, e.asksToStop = false) ∧
      (jamsatMain "" (fun _ => some small) (some smallOptions) run "").isSome = true) ∧
    ∀ run o, (∀ e ∈ run, e.asksToStop = false) →
      jamsatMain "" (fun _ => some small) (some smallOptions) run "" = some o →
      (Ends o "SATISFIABLE\n" 10 ↔ ∃ σ, Models σ [[1, -2]]) ∧
        (Ends o "UNSATISFIABLE\n" 20 ↔ ¬ ∃ σ, Models σ [[1, -2]]) :=
  jamsatMain_decides small_readable (by decide) rfl rfl rfl

end Frontend

end JamSAT
