import JamSAT.CNFProblem

/-!
# Reading what has been written

Which problems survive writing and reading.
-/

namespace TextStream

theorem readInt_digits {n : Nat} (hn : n ≤ intMax) : (ofText (Nat.toDigits 10 n)).readInt.1 = some (n : Int) := by
  have h := readNumber_digits [] [] (fun _ hx => by cases hx) (fun _ hx => by cases hx) n
  rw [List.nil_append, List.append_nil] at h
  rw [readInt, h]
  simp [hn]

theorem readInt_neg {n : Nat} (hn : n ≤ intMax) :
    (ofText ('-' :: Nat.toDigits 10 n)).readInt.1 = some (-n : Int) := by
  have h := readNumber_neg [] [] (fun _ hx => by cases hx) (fun _ hx => by cases hx) n
  rw [List.nil_append, List.append_nil] at h
  rw [readInt, h]
  simp [hn.trans (Nat.le_succ _)]

theorem readUnsigned_digits (blanks rest : List Char) (hb : ∀ x ∈ blanks, isSpace x = true)
    (hr : ∀ c, rest.head? = some c → c.isDigit = false) (n : Nat) :
    (ofText (blanks ++ Nat.toDigits 10 n ++ rest)).readUnsigned =
      if n ≤ unsignedMax then (some n, ⟨rest, rest.isEmpty, false⟩) else (none, ⟨rest, rest.isEmpty, true⟩) := by
  rw [readUnsigned, readNumber_digits blanks rest hb hr]
  rfl

end TextStream

namespace JamSAT

open TextStream

/-! ## The maximum variable -/

namespace CNFProblem

variable {literals : List CNFLit} {v : Nat}

theorem raiseMaxVar_eq (l : CNFLit) :
    raiseMaxVar v l = if v = CNFVar.undefinedVariable then l.var else max v l.var := by
  unfold raiseMaxVar
  split_ifs <;> omega

theorem le_foldl_raiseMaxVar (hr : ∀ l ∈ literals, l.var < CNFVar.undefinedVariable)
    (hv : v < CNFVar.undefinedVariable) :
    v ≤ literals.foldl raiseMaxVar v ∧ literals.foldl raiseMaxVar v < CNFVar.undefinedVariable := by
  induction literals generalizing v with
  | nil => exact ⟨le_rfl, hv⟩
  | cons l literals ih =>
    obtain ⟨hl, hr⟩ := List.forall_mem_cons.mp hr
    have he : raiseMaxVar v l = max v l.var := (raiseMaxVar_eq l).trans (if_neg hv.ne)
    obtain ⟨hle, hlt⟩ := ih (v := raiseMaxVar v l) hr (by rw [he]; exact max_lt hv hl)
    exact ⟨(he ▸ le_max_left v l.var).trans hle, hlt⟩

/-- The maximum variable is never below a literal, once a clause has one. -/
theorem foldl_raiseMaxVar (hr : ∀ l ∈ literals, l.var < CNFVar.undefinedVariable) (hn : literals ≠ [])
    (hv : v ≤ CNFVar.undefinedVariable) : (∀ l ∈ literals, l.var ≤ literals.foldl raiseMaxVar v) ∧
      literals.foldl raiseMaxVar v < CNFVar.undefinedVariable := by
  induction literals generalizing v with
  | nil => exact absurd rfl hn
  | cons a literals ih =>
    obtain ⟨ha, hr⟩ := List.forall_mem_cons.mp hr
    have hstep : a.var ≤ raiseMaxVar v a ∧ raiseMaxVar v a < CNFVar.undefinedVariable := by
      rw [raiseMaxVar_eq]
      split_ifs <;> omega
    have hrest := le_foldl_raiseMaxVar hr hstep.2
    refine ⟨List.forall_mem_cons.mpr ⟨hstep.1.trans hrest.1, ?_⟩, hrest.2⟩
    by_cases hl : literals = []
    · subst hl
      exact fun l hl => absurd hl List.not_mem_nil
    · exact (ih hr hl hstep.2.le).1

theorem raiseMaxVar_undefined (l : CNFLit) : raiseMaxVar CNFVar.undefinedVariable l = l.var := if_pos (.inl rfl)

theorem foldl_raiseMaxVar_lt {b : Nat} (hb : ∀ l ∈ literals, l.var < b) (hv : v < b) :
    literals.foldl raiseMaxVar v < b := by
  induction literals generalizing v with
  | nil => exact hv
  | cons l literals ih =>
    obtain ⟨hl, hb⟩ := List.forall_mem_cons.mp hb
    apply ih hb
    unfold raiseMaxVar
    split_ifs
    · exact hl
    · exact hv

theorem foldl_addClause (clauses : List CNFClause) : ∀ problem : CNFProblem, clauses.foldl addClause problem =
    ⟨problem.clauses ++ clauses, clauses.flatten.foldl raiseMaxVar problem.maxVar⟩ := by
  induction clauses with
  | nil => exact fun problem => by simp
  | cons clause clauses ih =>
    intro problem
    rw [List.foldl_cons, ih, addClause, List.flatten_cons, List.foldl_append, List.append_assoc,
      List.singleton_append]

end CNFProblem

/-! ## Clauses -/

def CNFLit.token (l : CNFLit) : List Char :=
  match l.sign with
  | .positive => Nat.toDigits 10 (l.var + 1)
  | .negative => '-' :: Nat.toDigits 10 (l.var + 1)

section
variable {l : CNFLit} (hl : l.var < CNFVar.undefinedVariable)
include hl

theorem CNFLit.print_eq : ∃ blanks, (∀ x ∈ blanks, isSpace x = true) ∧ l.print = blanks ++ l.token := by
  have hlt : l.var + 1 < uint32Size := by
    unfold CNFVar.undefinedVariable at hl
    unfold uint32Size unsignedMax
    omega
  have hv : CNFVar.print l.var = Nat.toDigits 10 (l.var + 1) := by rw [CNFVar.print, Nat.mod_eq_of_lt hlt]
  unfold CNFLit.print CNFLit.token
  rw [hv]
  cases l.sign with
  | positive => exact ⟨[' '], isSpace_singleton rfl, rfl⟩
  | negative => exact ⟨[], List.forall_mem_nil _, rfl⟩

theorem CNFLit.readInt_token : (ofText l.token).readInt.1 =
    some (match l.sign with | .positive => (l.var + 1 : Int) | .negative => -(l.var + 1 : Int)) := by
  have hn : l.var + 1 ≤ intMax := by
    unfold CNFVar.undefinedVariable at hl
    unfold intMax
    omega
  unfold CNFLit.token
  cases l.sign with
  | positive => exact readInt_digits hn
  | negative => exact readInt_neg hn

theorem decodeCNFLit_encode :
    decodeCNFLit (match l.sign with | .positive => (l.var + 1 : Int) | .negative => -(l.var + 1 : Int)) =
      some l := by
  obtain ⟨v, sign⟩ := l
  unfold CNFVar.undefinedVariable at hl
  dsimp only at hl ⊢
  have habs : ((v : Int) + 1).natAbs - 1 = v := by omega
  have habs' : (-((v : Int) + 1)).natAbs - 1 = v := by omega
  have hmax : ¬ CNFVar.maxRawValue < v := by
    unfold CNFVar.maxRawValue CNFVar.undefinedVariable
    omega
  unfold decodeCNFLit
  cases sign with
  | positive =>
    have hmin : (v + 1 : Int) ≠ -(intMax + 1 : Nat) := by omega
    have hpos : (0 : Int) < v + 1 := by omega
    simp only [hmin, hpos, habs, hmax, if_true, if_false]
  | negative =>
    have hmin : (-(v + 1) : Int) ≠ -(intMax + 1 : Nat) := by
      unfold intMax
      omega
    have hpos : ¬ (0 : Int) < -(v + 1) := by omega
    simp only [hmin, hpos, habs', hmax, if_false]

end

theorem CNFLit.token_spec (l : CNFLit) : l.token ≠ [] ∧ ∀ c ∈ l.token, isSpace c = false := by
  unfold CNFLit.token
  cases l.sign with
  | positive => exact ⟨Nat.toDigits_ne_nil, fun c hc => isSpace_of_isDigit (isDigit_of_mem hc)⟩
  | negative =>
    exact ⟨List.cons_ne_nil _ _,
      List.forall_mem_cons.mpr ⟨by decide, fun c hc => isSpace_of_isDigit (isDigit_of_mem hc)⟩⟩

section
variable {original acc : CNFClause} {input input' : TextStream} {buffer token : List Char} {fuel : Nat} {e : Int}
  (hok : input.ok = true) (htok : input.readToken buffer = (token, input'))
  (hint : (ofText token).readInt.1 = some e)
include hok htok hint

theorem readClauseLoop_zero (he : e = 0) :
    readClauseLoop original (fuel + 1) input buffer acc = (acc, input') := by
  have hturn : readClauseTurn input buffer acc = .inl (acc, input') := by
    rw [readClauseTurn, htok]
    simp only [hint, he, if_true]
  rw [readClauseLoop, if_pos hok, hturn]

theorem readClauseLoop_literal {l : CNFLit} (he : e ≠ 0) (hl : decodeCNFLit e = some l) :
    readClauseLoop original (fuel + 1) input buffer acc =
      readClauseLoop original fuel input' token (acc ++ [l]) := by
  have hturn : readClauseTurn input buffer acc = .inr (input', token, acc ++ [l]) := by
    rw [readClauseTurn, htok]
    simp only [hint, he, hl, if_false]
  rw [readClauseLoop, if_pos hok, hturn]

end

theorem readClauseLoop_print {original : CNFClause} {rest : List Char} {clause : CNFClause}
    (hr : ∀ l ∈ clause, l.var < CNFVar.undefinedVariable) :
    ∀ (acc : CNFClause) (blanks buffer : List Char) (fuel : Nat),
    (∀ x ∈ blanks, isSpace x = true) → clause.length < fuel →
    readClauseLoop original fuel (ofText (blanks ++ CNFClause.print clause ++ '\n' :: rest)) buffer acc =
      (acc ++ clause, ofText ('\n' :: rest)) := by
  induction clause with
  | nil =>
    intro acc blanks buffer fuel hb hf
    obtain ⟨fuel, rfl⟩ := Nat.exists_eq_succ_of_ne_zero (Nat.ne_of_gt hf)
    have htok :=
      readToken_append blanks ['0'] ('\n' :: rest) hb (List.forall_mem_singleton.mpr rfl) (List.cons_ne_nil _ _)
      (fun c hc => Option.some.inj hc ▸ (by decide)) buffer
    rw [List.append_nil]
    exact readClauseLoop_zero rfl htok (readInt_digits (Nat.zero_le _)) rfl
  | cons l clause ih =>
    intro acc blanks buffer fuel hb hf
    obtain ⟨fuel, rfl⟩ := Nat.exists_eq_succ_of_ne_zero (Nat.ne_of_gt (Nat.zero_lt_of_lt hf))
    obtain ⟨hl, hr⟩ := List.forall_mem_cons.mp hr
    obtain ⟨blanks', hb', hprint⟩ := CNFLit.print_eq hl
    have hblanks : ∀ x ∈ blanks ++ blanks', isSpace x = true :=
      fun x hx => (List.mem_append.mp hx).elim (hb x) (hb' x)
    have htext : blanks ++ CNFClause.print (l :: clause) ++ '\n' :: rest =
        blanks ++ blanks' ++ l.token ++ ([' '] ++ CNFClause.print clause ++ '\n' :: rest) := by
      simp [CNFClause.print, hprint]
    have htok :=
      readToken_append (blanks ++ blanks') l.token ([' '] ++ CNFClause.print clause ++ '\n' :: rest) hblanks
      l.token_spec.2 l.token_spec.1 (fun c hc => Option.some.inj hc ▸ (by decide)) buffer
    have hne : (match l.sign with | .positive => (l.var + 1 : Int) | .negative => -(l.var + 1 : Int)) ≠ 0 := by
      cases l.sign <;> dsimp only <;> omega
    rw [htext, readClauseLoop_literal rfl htok (CNFLit.readInt_token hl) hne (decodeCNFLit_encode hl)]
    have hnext := ih hr (acc ++ [l]) [' '] l.token fuel (isSpace_singleton rfl) (Nat.lt_of_succ_lt_succ hf)
    rw [List.append_cons acc l clause]
    exact hnext

theorem CNFClause.length_print (clause : CNFClause) : clause.length < (CNFClause.print clause).length := by
  unfold CNFClause.print
  rw [List.length_append, List.length_singleton, Nat.lt_succ_iff]
  induction clause with
  | nil => exact le_rfl
  | cons l clause ih =>
    rw [List.flatMap_cons, List.length_append, List.length_cons, List.length_append, List.length_singleton]
    omega

theorem CNFClause.read_print {clause : CNFClause} {blanks rest : List Char}
    (hr : ∀ l ∈ clause, l.var < CNFVar.undefinedVariable) (hb : ∀ x ∈ blanks, isSpace x = true) :
    CNFClause.read (ofText (blanks ++ CNFClause.print clause ++ '\n' :: rest)) [] =
      (clause, ofText ('\n' :: rest)) := by
  apply readClauseLoop_print hr [] blanks [] _ hb
  have hlen := CNFClause.length_print clause
  show clause.length < (blanks ++ CNFClause.print clause ++ '\n' :: rest).length + 2
  rw [List.length_append, List.length_append]
  omega

theorem CNFClause.read_blanks {blanks : List Char} (hb : ∀ x ∈ blanks, isSpace x = true) :
    (CNFClause.read (ofText blanks) []).2.failbit = true := by
  have htok : (ofText blanks).readToken [] = ([], ⟨[], true, true⟩) := by
    rw [readToken, sentry_blanks hb]
    rfl
  have hint : (ofText []).readInt.1 = none := by
    rw [readInt, readNumber, sentry_nil]
    rfl
  have hturn : readClauseTurn (ofText blanks) [] [] = .inl ([], ⟨[], true, true⟩) := by
    rw [readClauseTurn, htok]
    simp only [hint]
    rfl
  have hok : (ofText blanks).ok = true := rfl
  rw [CNFClause.read, readClauseLoop, if_pos hok, hturn]

/-! ## Problems -/

def printClauses (clauses : List CNFClause) : List Char := clauses.flatMap fun clause => CNFClause.print clause ++ ['\n']

section
variable (header : DIMACSHeader) (blanks : List Char) {fuel i : Nat} {problem : CNFProblem} {clause : CNFClause}
  {clauses : List CNFClause}

theorem readDIMACSClausesLoop_cons (hi : i ≤ header.clauseCount) (hb : ∀ x ∈ blanks, isSpace x = true)
    (hr : ∀ l ∈ clause, l.var < CNFVar.undefinedVariable) :
    readDIMACSClausesLoop header (fuel + 1) i (ofText (blanks ++ printClauses (clause :: clauses))) problem =
      if header.variableCount < (problem.addClause clause).getMaxVar + 1 then
        (.new, (ofText ('\n' :: printClauses clauses)).setFail)
      else readDIMACSClausesLoop header fuel ((i + 1) % uint32Size) (ofText (['\n'] ++ printClauses clauses))
        (problem.addClause clause) := by
  have htext : blanks ++ printClauses (clause :: clauses) =
      blanks ++ CNFClause.print clause ++ '\n' :: printClauses clauses := by simp [printClauses]
  rw [htext, readDIMACSClausesLoop, if_neg (Nat.not_lt.mpr hi), CNFClause.read_print hr hb]
  rfl

theorem CNFProblem.getMaxVar_addClause (problem : CNFProblem) (clause : CNFClause) :
    (problem.addClause clause).getMaxVar = clause.foldl CNFProblem.raiseMaxVar problem.maxVar :=
  if_neg (by simp [CNFProblem.isEmpty, CNFProblem.addClause])

theorem readDIMACSClausesLoop_print (hsize : header.clauseCount + 1 < uint32Size)
    (hr : ∀ clause ∈ clauses, ∀ l ∈ clause, l.var < CNFVar.undefinedVariable) (hb : ∀ x ∈ blanks, isSpace x = true)
    (hv : problem.maxVar ≤ CNFVar.undefinedVariable)
    (hfirst : problem.maxVar = CNFVar.undefinedVariable → clauses.head? ≠ some [])
    (hcount : i + clauses.length = header.clauseCount + 1)
    (hmax : clauses ≠ [] → (clauses.foldl CNFProblem.addClause problem).maxVar < header.variableCount)
    (hf : clauses.length < fuel) :
    (readDIMACSClausesLoop header fuel i (ofText (blanks ++ printClauses clauses)) problem).1 =
        clauses.foldl CNFProblem.addClause problem ∧
      (readDIMACSClausesLoop header fuel i (ofText (blanks ++ printClauses clauses)) problem).2.failbit =
        false := by
  induction clauses generalizing fuel i problem blanks with
  | nil =>
    obtain ⟨fuel, rfl⟩ := Nat.exists_eq_succ_of_ne_zero (Nat.ne_of_gt hf)
    rw [readDIMACSClausesLoop, if_pos (by rw [List.length_nil] at hcount; omega)]
    exact ⟨rfl, rfl⟩
  | cons clause clauses ih =>
    obtain ⟨fuel, rfl⟩ := Nat.exists_eq_succ_of_ne_zero (Nat.ne_of_gt (Nat.zero_lt_of_lt hf))
    obtain ⟨hr₀, hr⟩ := List.forall_mem_cons.mp hr
    rw [List.length_cons] at hcount hf
    have hlt : clause.foldl CNFProblem.raiseMaxVar problem.maxVar < CNFVar.undefinedVariable := by
      by_cases hu : problem.maxVar = CNFVar.undefinedVariable
      · exact (CNFProblem.foldl_raiseMaxVar hr₀ (fun hn => hfirst hu (hn ▸ rfl)) hv).2
      · exact (CNFProblem.le_foldl_raiseMaxVar hr₀ (lt_of_le_of_ne hv hu)).2
    have hrflat : ∀ l ∈ clauses.flatten, l.var < CNFVar.undefinedVariable := fun l hl => by
      obtain ⟨c, hc, hl⟩ := List.mem_flatten.mp hl
      exact hr c hc l hl
    have hlast := hmax (List.cons_ne_nil _ _)
    rw [List.foldl_cons, CNFProblem.foldl_addClause] at hlast
    have hle := (CNFProblem.le_foldl_raiseMaxVar hrflat hlt).1.trans_lt hlast
    rw [readDIMACSClausesLoop_cons header blanks (by omega) hb hr₀, CNFProblem.getMaxVar_addClause,
      if_neg (Nat.not_lt.mpr hle),
      Nat.mod_eq_of_lt (by omega)]
    apply ih ['\n'] hr (isSpace_singleton rfl) hlt.le (fun hu => absurd hu hlt.ne) (by omega)
    · exact fun _ => hmax (List.cons_ne_nil _ _)
    · omega

/-- With the largest clause count the counter wraps around and the loop reads on
until the text ends. -/
theorem readDIMACSClausesLoop_wrap (hsize : header.clauseCount + 1 = uint32Size)
    (hr : ∀ clause ∈ clauses, ∀ l ∈ clause, l.var < CNFVar.undefinedVariable) (hb : ∀ x ∈ blanks, isSpace x = true)
    (hi : i ≤ header.clauseCount) (hf : clauses.length < fuel) :
    (readDIMACSClausesLoop header fuel i (ofText (blanks ++ printClauses clauses)) problem).2.failbit = true := by
  induction clauses generalizing fuel i problem blanks with
  | nil =>
    obtain ⟨fuel, rfl⟩ := Nat.exists_eq_succ_of_ne_zero (Nat.ne_of_gt hf)
    have hread := CNFClause.read_blanks hb
    have htext : blanks ++ printClauses [] = blanks := List.append_nil _
    rw [htext, readDIMACSClausesLoop, if_neg (Nat.not_lt.mpr hi)]
    generalize CNFClause.read (ofText blanks) [] = r at hread
    obtain ⟨clause, input⟩ := r
    have hok : (!input.ok) = true := by rw [ok, hread, Bool.not_true, Bool.not_false]
    exact (congrArg (fun e : CNFProblem × TextStream => e.2.failbit) (if_pos hok)).trans hread
  | cons clause clauses ih =>
    obtain ⟨fuel, rfl⟩ := Nat.exists_eq_succ_of_ne_zero (Nat.ne_of_gt (Nat.zero_lt_of_lt hf))
    obtain ⟨hr₀, hr⟩ := List.forall_mem_cons.mp hr
    rw [readDIMACSClausesLoop_cons header blanks hi hb hr₀]
    split
    · rfl
    · apply ih ['\n'] hr (isSpace_singleton rfl)
      · have hmod : (i + 1) % uint32Size < uint32Size := Nat.mod_lt _ (by decide)
        omega
      · exact Nat.lt_of_succ_lt_succ hf

end

/-! ## Headers -/

def headerCounts (a b : Nat) : List Char := [' '] ++ Nat.toDigits 10 a ++ ' ' :: Nat.toDigits 10 b

def headerLine (a b : Nat) : List Char := ['p'] ++ ' ' :: (['c', 'n', 'f'] ++ headerCounts a b)

section
variable {a b : Nat} {rest : List Char}

theorem readToken_headerLine : (ofText (headerLine a b)).readToken [] =
    (['p'], ofText (' ' :: (['c', 'n', 'f'] ++ headerCounts a b))) :=
  readToken_append [] ['p'] (' ' :: (['c', 'n', 'f'] ++ headerCounts a b)) (List.forall_mem_nil _)
    (List.forall_mem_singleton.mpr rfl) (List.cons_ne_nil _ _) (fun _ hc => Option.some.inj hc ▸ (by decide)) []

theorem readToken_cnf : (ofText (' ' :: (['c', 'n', 'f'] ++ headerCounts a b))).readToken ['p'] =
    (['c', 'n', 'f'], ofText (headerCounts a b)) :=
  readToken_append [' '] ['c', 'n', 'f'] (headerCounts a b) (isSpace_singleton rfl) (by simp [isSpace])
    (by decide) (fun _ hc => Option.some.inj hc ▸ (by decide)) _

theorem readUnsigned_headerCounts (ha : a ≤ unsignedMax) :
    (ofText (headerCounts a b)).readUnsigned = (some a, ofText (' ' :: Nat.toDigits 10 b)) :=
  (readUnsigned_digits [' '] (' ' :: Nat.toDigits 10 b) (isSpace_singleton rfl)
    (fun _ hc => Option.some.inj hc ▸ (by decide)) a).trans (if_pos ha)

theorem parseHeaderLine_headerLine (ha : a ≤ unsignedMax) : parseHeaderLine (headerLine a b) =
    ⟨decide (a ≤ CNFVar.maxRawValue ∧ b ≤ unsignedMax), a, if b ≤ unsignedMax then b else 0⟩ := by
  have hclauses := readUnsigned_digits [' '] [] (isSpace_singleton rfl) (fun c hc => by cases hc) b
  rw [List.append_nil, List.singleton_append] at hclauses
  unfold parseHeaderLine
  dsimp only
  rw [readToken_headerLine]
  dsimp only
  rw [readToken_cnf]
  dsimp only
  rw [readUnsigned_headerCounts ha]
  dsimp only
  rw [hclauses]
  by_cases hb : b ≤ unsignedMax
  · simp [hb, ok]
  · simp [hb, ok]

theorem ne_newline_of_mem_headerLine : ∀ c ∈ headerLine a b, c ≠ '\n' := by
  have hdigit : ∀ (n : Nat) (c : Char), c ∈ Nat.toDigits 10 n → c ≠ '\n' := fun n c hc he =>
    absurd (isDigit_of_mem (he ▸ hc)) (by decide)
  intro c hc
  simp only [headerLine, headerCounts, List.mem_append, List.mem_cons, List.not_mem_nil, or_false] at hc
  rcases hc with rfl | rfl | (rfl | rfl | rfl) | (rfl | hc) | rfl | hc
  any_goals decide
  · exact hdigit a c hc
  · exact hdigit b c hc

theorem readDIMACSHeader_headerLine :
    readDIMACSHeader (ofText (headerLine a b ++ '\n' :: rest)) =
      (parseHeaderLine (headerLine a b), ofText rest) := by
  have hget := getline_append rest (ne_newline_of_mem_headerLine (a := a) (b := b)) ['c']
  have hws : (ofText (headerLine a b ++ '\n' :: rest)).ws = ofText (headerLine a b ++ '\n' :: rest) := rfl
  have hloop : ∀ fuel, readHeaderLine (fuel + 1) (ofText (headerLine a b ++ '\n' :: rest)) ['c'] =
      readHeaderLine fuel (ofText rest) (headerLine a b) := by
    intro fuel
    rw [readHeaderLine, if_pos ⟨rfl, by decide⟩, hws, hget]
  have hdone : ∀ fuel, readHeaderLine fuel (ofText rest) (headerLine a b) = (headerLine a b, ofText rest) := by
    intro fuel
    cases fuel with
    | zero => rfl
    | succ fuel =>
      rw [readHeaderLine, if_neg]
      exact fun h => h.2 rfl
  rw [readDIMACSHeader, hloop, hdone]
  rfl

end

/-! ## The round trip -/

/-- The first clause has a literal, no variable is the largest regular one, and the
number of clauses stays below the largest `unsigned int`. -/
def Readable (clauses : List CNFClause) : Prop :=
  clauses.head? ≠ some [] ∧ (∀ clause ∈ clauses, ∀ l ∈ clause, l.var < CNFVar.maxRawValue) ∧
    clauses.length < unsignedMax

instance (clauses : List CNFClause) : Decidable (Readable clauses) :=
  inferInstanceAs (Decidable (clauses.head? ≠ some [] ∧ (∀ clause ∈ clauses, ∀ l ∈ clause, l.var < CNFVar.maxRawValue) ∧
    clauses.length < unsignedMax))

namespace CNFProblem

variable {clauses : List CNFClause}

theorem ofClauses_eq (clauses : List CNFClause) :
    ofClauses clauses = ⟨clauses, clauses.flatten.foldl raiseMaxVar CNFVar.undefinedVariable⟩ :=
  (foldl_addClause clauses new).trans (by rw [new, List.nil_append])

theorem var_regular (hr : ∀ clause ∈ clauses, ∀ l ∈ clause, l.var < CNFVar.undefinedVariable) :
    ∀ l ∈ clauses.flatten, l.var < CNFVar.undefinedVariable := by
  intro l hl
  obtain ⟨clause, hc, hl⟩ := List.mem_flatten.mp hl
  exact hr clause hc l hl

theorem maxVar_ofClauses_le (hr : ∀ clause ∈ clauses, ∀ l ∈ clause, l.var < CNFVar.undefinedVariable) :
    (ofClauses clauses).maxVar ≤ CNFVar.undefinedVariable := by
  rw [ofClauses_eq]
  by_cases hl : clauses.flatten = []
  · rw [hl]
    exact le_rfl
  · exact (foldl_raiseMaxVar (var_regular hr) hl le_rfl).2.le

theorem print_ofClauses (hn : clauses ≠ [])
    (hr : ∀ clause ∈ clauses, ∀ l ∈ clause, l.var < CNFVar.undefinedVariable) :
    (ofClauses clauses).maxVar + 1 ≤ unsignedMax ∧ (ofClauses clauses).print =
      headerLine ((ofClauses clauses).maxVar + 1) clauses.length ++ '\n' :: printClauses clauses := by
  have hle := maxVar_ofClauses_le hr
  have hcl : (ofClauses clauses).clauses = clauses := by rw [ofClauses_eq]
  generalize ofClauses clauses = problem at hle hcl
  have hcount : problem.maxVar + 1 ≤ unsignedMax := (Nat.succ_le_succ hle).trans (by decide)
  have hempty : problem.isEmpty = false := by
    rw [isEmpty, hcl]
    exact List.isEmpty_eq_false_iff.mpr hn
  have hmax : problem.getMaxVar = problem.maxVar := if_neg (by rw [hempty]; exact Bool.false_ne_true)
  have hlt : problem.maxVar + 1 < uint32Size := Nat.lt_succ_of_le hcount
  have hprint : CNFVar.print problem.maxVar = Nat.toDigits 10 (problem.maxVar + 1) := by
    rw [CNFVar.print, Nat.mod_eq_of_lt hlt]
  refine ⟨hcount, ?_⟩
  unfold print
  rw [if_neg (by rw [hempty]; exact Bool.false_ne_true), hmax, hprint, getSize, hcl]
  simp [headerLine, headerCounts, printClauses]

theorem length_printClauses (clauses : List CNFClause) : clauses.length ≤ (printClauses clauses).length := by
  induction clauses with
  | nil => exact le_rfl
  | cons clause clauses ih =>
    rw [printClauses, List.flatMap_cons, List.length_append, List.length_append, List.length_singleton,
      List.length_cons]
    have hrest : clauses.length ≤ (clauses.flatMap fun clause => CNFClause.print clause ++ ['\n']).length := ih
    omega

section
variable (hn : clauses ≠ []) (hr : ∀ clause ∈ clauses, ∀ l ∈ clause, l.var < CNFVar.undefinedVariable)
include hn hr

theorem read_print : read (ofText (ofClauses clauses).print) new =
    if (ofClauses clauses).maxVar + 1 ≤ CNFVar.maxRawValue ∧ clauses.length ≤ unsignedMax then
      readDIMACSClauses (ofText (printClauses clauses))
        ⟨true, (ofClauses clauses).maxVar + 1, clauses.length⟩ new
    else (new, (ofText (printClauses clauses)).setFail) := by
  obtain ⟨hcount, hprint⟩ := print_ofClauses hn hr
  rw [hprint, read, readDIMACSHeader_headerLine, parseHeaderLine_headerLine hcount]
  dsimp only
  by_cases hv : (ofClauses clauses).maxVar + 1 ≤ CNFVar.maxRawValue ∧ clauses.length ≤ unsignedMax
  · rw [decide_eq_true hv, if_pos rfl, if_pos hv, if_pos hv.2]
  · rw [decide_eq_false hv, if_neg Bool.false_ne_true, if_neg hv]

theorem read_print_of_readable (h : Readable clauses) :
    (read (ofText (ofClauses clauses).print) new).1 = ofClauses clauses ∧
      (read (ofText (ofClauses clauses).print) new).2.failbit = false := by
  obtain ⟨hfirst, hvars, hlen⟩ := h
  have hmax : (ofClauses clauses).maxVar < CNFVar.maxRawValue := by
    obtain ⟨clause, clauses, rfl⟩ := List.exists_cons_of_ne_nil hn
    obtain ⟨l, clause, rfl⟩ := List.exists_cons_of_ne_nil fun he => hfirst (he ▸ rfl)
    have hflat : ∀ x ∈ ((l :: clause) :: clauses).flatten, x.var < CNFVar.maxRawValue := by
      intro x hx
      obtain ⟨c, hc, hx⟩ := List.mem_flatten.mp hx
      exact hvars c hc x hx
    rw [List.flatten_cons, List.cons_append] at hflat
    obtain ⟨hl, hflat⟩ := List.forall_mem_cons.mp hflat
    rw [ofClauses_eq, List.flatten_cons, List.cons_append, List.foldl_cons, raiseMaxVar_undefined]
    exact foldl_raiseMaxVar_lt hflat hl
  rw [read_print hn hr, if_pos ⟨hmax, hlen.le⟩]
  apply readDIMACSClausesLoop_print _ [] (Nat.succ_lt_succ hlen) hr (List.forall_mem_nil _) le_rfl (fun _ => hfirst)
    (Nat.add_comm 1 _)
  · exact fun _ => Nat.lt_succ_self _
  · exact Nat.lt_succ_of_le (length_printClauses clauses)

theorem readable_of_read_print (h : (read (ofText (ofClauses clauses).print) new).2.failbit = false) :
    Readable clauses := by
  rw [read_print hn hr] at h
  split at h
  · rename_i hv
    refine ⟨fun hfirst => ?_, fun clause hc l hl => ?_, ?_⟩
    · obtain ⟨clause, clauses, rfl⟩ := List.exists_cons_of_ne_nil hn
      obtain rfl : clause = [] := Option.some.inj hfirst
      have hundef : (new.addClause []).getMaxVar = CNFVar.undefinedVariable := rfl
      have hlt : (ofClauses ([] :: clauses)).maxVar + 1 < CNFVar.undefinedVariable + 1 :=
        hv.1.trans_lt (by decide)
      have hturn : readDIMACSClauses (ofText (printClauses ([] :: clauses)))
          ⟨true, (ofClauses ([] :: clauses)).maxVar + 1, ([] :: clauses).length⟩ new = _ :=
        readDIMACSClausesLoop_cons _ [] (Nat.le_add_left 1 _) (List.forall_mem_nil _) (hr [] List.mem_cons_self)
      rw [hundef, if_pos hlt] at hturn
      have hfail := congrArg (fun e => e.2.failbit) hturn
      exact absurd (h.symm.trans hfail) Bool.false_ne_true
    · have hflat : l ∈ clauses.flatten := List.mem_flatten.mpr ⟨clause, hc, hl⟩
      have hle := (foldl_raiseMaxVar (var_regular hr) (List.ne_nil_of_mem hflat) le_rfl).1 l hflat
      rw [ofClauses_eq] at hv
      exact hle.trans_lt hv.1
    · refine lt_of_le_of_ne hv.2 fun he => ?_
      have hfail : (readDIMACSClauses (ofText (printClauses clauses))
          ⟨true, (ofClauses clauses).maxVar + 1, clauses.length⟩ new).2.failbit = true :=
        readDIMACSClausesLoop_wrap _ [] (congrArg (· + 1) he) hr (List.forall_mem_nil _)
          (List.length_pos_of_ne_nil hn)
          (Nat.lt_succ_of_le (length_printClauses clauses))
      exact absurd (h.symm.trans hfail) Bool.false_ne_true
  · cases h

end

/-- The text of a problem is read back as that problem exactly if it is readable. -/
theorem round_trip (hr : ∀ clause ∈ clauses, ∀ l ∈ clause, l.var < CNFVar.undefinedVariable) :
    ((read (ofText (ofClauses clauses).print) new).2.failbit = false ∧
      (read (ofText (ofClauses clauses).print) new).1.clauses = clauses ∧
      (read (ofText (ofClauses clauses).print) new).1.getMaxVar = (ofClauses clauses).getMaxVar) ↔
        Readable clauses := by
  by_cases hn : clauses = []
  · subst hn
    have hread : read (ofText (ofClauses []).print) new = (new, ofText []) := by decide +kernel
    rw [hread]
    exact iff_of_true ⟨rfl, rfl, rfl⟩ (by decide)
  · refine ⟨fun h => readable_of_read_print hn hr h.1, fun h => ?_⟩
    obtain ⟨he, hf⟩ := read_print_of_readable hn hr h
    rw [he]
    exact ⟨hf, by rw [ofClauses_eq], rfl⟩

/-- A clause with two literals after one with a single literal. -/
theorem unitAndBinary_round_trip :
    (read (ofText (ofClauses [[⟨2, .negative⟩], [⟨0, .positive⟩, ⟨1, .positive⟩]]).print) new).1.clauses =
      [[⟨2, .negative⟩], [⟨0, .positive⟩, ⟨1, .positive⟩]] :=
  ((round_trip (by decide)).mpr (by decide)).2.1

/-- The maximum variable of a problem whose clauses are empty is written as a number
that no header may have. -/
theorem emptyClause_unreadable : (read (ofText (ofClauses [[]]).print) new).2.failbit = true := by decide +kernel

end CNFProblem

end JamSAT
