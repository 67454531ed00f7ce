import JamSAT.ProblemReading

/-!
# Whole problem files

When a file is accepted without an error, its literals have been delivered to
the solver unless its last literal is not 0. The solver's layer turns them into
the literals of the library's own reader, as far as they have a variable.
-/

namespace JamSAT

namespace Parser

open TextStream (isSpace intMax)

/-! ## Behind the header -/

section
variable {file file' : GzFile}

theorem readCharFromGzFile_eof {c : Char} (h : readCharFromGzFile file = .ok (c, file')) :
    file'.eof = file.eof := by
  obtain ⟨rest, eof⟩ := file
  cases rest with
  | nil => cases h
  | cons d rest =>
    obtain ⟨-, rfl⟩ := Prod.mk.inj (Except.ok.inj h)
    show (eof || decide (rest.length + 1 < 1)) = eof
    rw [decide_eq_false (by omega), Bool.or_false]

theorem readLineLoop_eof {fuel : Nat} {result line : List Char}
    (h : readLineLoop fuel file result = .ok (line, file')) :
    file'.eof = file.eof := by
  induction fuel generalizing file result with
  | zero => cases h
  | succ fuel ih =>
    unfold readLineLoop at h
    cases hc : readCharFromGzFile file with
    | error message =>
      rw [hc] at h
      cases h
    | ok r =>
      rw [hc] at h
      obtain ⟨c, file₁⟩ := r
      dsimp only at h
      split at h
      · obtain ⟨-, rfl⟩ := Prod.mk.inj (Except.ok.inj h)
        exact readCharFromGzFile_eof hc
      · exact (ih h).trans (readCharFromGzFile_eof hc)

theorem skipComments_eof {fuel : Nat} {c : Char} (h : skipComments fuel file = .ok (c, file')) :
    file'.eof = file.eof := by
  induction fuel generalizing file with
  | zero => cases h
  | succ fuel ih =>
    unfold skipComments at h
    cases hc : readCharFromGzFile file with
    | error message =>
      rw [hc] at h
      cases h
    | ok r =>
      rw [hc] at h
      obtain ⟨d, file₁⟩ := r
      dsimp only at h
      split at h
      · unfold skipLine at h
        cases hl : readLine file₁ with
        | error message =>
          rw [hl] at h
          cases h
        | ok r =>
          rw [hl] at h
          exact ((ih h).trans (readLineLoop_eof hl)).trans (readCharFromGzFile_eof hc)
      · obtain ⟨-, rfl⟩ := Prod.mk.inj (Except.ok.inj h)
        exact readCharFromGzFile_eof hc

theorem readHeader_eof {header : DIMACSHeader} (h : readHeader file = .ok (header, file')) :
    file'.eof = file.eof := by
  unfold readHeader at h
  cases hs : skipComments (file.rest.length + 1) file with
  | error message =>
    rw [hs] at h
    cases h
  | ok r =>
    rw [hs] at h
    dsimp only at h
    split at h
    · cases h
    · cases hl : readLine r.2 with
      | error message =>
        rw [hl] at h
        cases h
      | ok r₂ =>
        rw [hl] at h
        dsimp only at h
        cases hp : parseHeaderLine r₂.1 with
        | error message =>
          rw [hp] at h
          cases h
        | ok header' =>
          rw [hp] at h
          obtain ⟨-, rfl⟩ := Prod.mk.inj (Except.ok.inj h)
          exact (readLineLoop_eof hl).trans (skipComments_eof hs)

end

/-! ## What is delivered -/

/-- A chunk that is longer than preferred ends with a literal. -/
theorem exists_literal_of_long {n fuel : Nat} {file : GzFile} : ∀ chunk ∈ chunksLoop n fuel file, n < chunk.length →
    ∃ c ∈ chunk, isSpace c = false := by
  have hlong :
      ∀ file : GzFile, n < (readChunk file n).2.1.length → ∃ c ∈ (readChunk file n).2.1, isSpace c = false := by
    intro file
    have htake := List.length_take_le n file.rest
    unfold readChunk
    split
    · rename_i hn
      exact fun h => absurd h (Nat.not_lt_zero _)
    · rename_i hn
      dsimp only [gzread]
      split
      · exact fun h => absurd h (Nat.not_lt.mpr htake)
      · split
        · exact fun h => absurd h (Nat.not_lt.mpr htake)
        · rename_i hlast
          intro h
          cases hl : (file.rest.take n).getLast? with
          | some c =>
            refine ⟨c, List.mem_append_left _ (List.mem_of_getLast? hl), ?_⟩
            rw [hl] at hlast
            exact Bool.eq_false_of_not_eq_true hlast
          | none =>
            have hnil := List.getLast?_eq_none_iff.mp hl
            rw [List.take_eq_nil_iff] at hnil
            have hrest := hnil.resolve_left hn
            simp [hrest, finishLiteral] at h
  induction fuel generalizing file with
  | zero => exact fun chunk hc => absurd hc List.not_mem_nil
  | succ fuel ih =>
    unfold chunksLoop
    dsimp only
    split
    · exact fun chunk hc => absurd hc List.not_mem_nil
    · exact List.forall_mem_cons.mpr ⟨hlong file, ih⟩

theorem counted_of_blank {text : List Char} (h : ∀ c ∈ lost preferredChunkReadSize text, isSpace c = true) :
    ∀ chunk ∈ chunks preferredChunkReadSize text, counted chunk = true := by
  refine (lost_eq_nil_iff _ _).mp ?_
  unfold lost at h ⊢
  cases hd : (chunks preferredChunkReadSize text).dropWhile counted with
  | nil => rfl
  | cons chunk rest =>
    have hmem : chunk ∈ chunks preferredChunkReadSize text :=
      (List.dropWhile_suffix counted).mem (hd ▸ List.mem_cons_self)
    have hnot : chunk.length % uint32Size = 0 := by
      have := List.head?_dropWhile_not counted (chunks preferredChunkReadSize text)
      rw [hd] at this
      simpa [counted] using this
    have hpos := List.length_pos_of_ne_nil (chunksLoop_ne_nil chunk hmem)
    have hlong : preferredChunkReadSize < chunk.length := by
      have := Nat.le_of_dvd hpos (Nat.dvd_of_mod_eq_zero hnot)
      exact Nat.lt_of_lt_of_le (by decide) this
    obtain ⟨c, hc, hsp⟩ := exists_literal_of_long chunk hmem hlong
    have hblank := h c (hd ▸ List.mem_append_left _ hc)
    rw [hsp] at hblank
    cases hblank

/-- `clauses` are the groups of `ts` that a 0 ends, and nothing else is in `ts`. -/
structure Delivered (ts : List Int) (clauses : List (List Int)) : Prop where
  groups : ∃ tail, ts = clauses.flatMap (· ++ [0]) ++ tail ∧ (0 : Int) ∉ tail ∧ ∀ c ∈ clauses, (0 : Int) ∉ c
  literals : clauses.flatten = ts.filter (· ≠ 0)

section
variable {ts tail : List Int} {clauses : List (List Int)}

theorem filter_groups (h : ∀ c ∈ clauses, (0 : Int) ∉ c) :
    (clauses.flatMap (· ++ [0])).filter (· ≠ 0) = clauses.flatten := by
  induction clauses with
  | nil => rfl
  | cons c clauses ih =>
    obtain ⟨hc, hrest⟩ := List.forall_mem_cons.mp h
    have hself : c.filter (· ≠ 0) = c := List.filter_eq_self.mpr fun x hx => decide_eq_true fun he => hc (he ▸ hx)
    rw [List.flatMap_cons, List.filter_append, List.filter_append, hself, ih hrest, List.flatten_cons]
    simp

theorem Delivered.eq (h : Delivered ts clauses) : ts = clauses.flatMap (· ++ [0]) := by
  obtain ⟨⟨tail, hts, ht, hc⟩, hl⟩ := h
  have hself : tail.filter (· ≠ 0) = tail :=
    List.filter_eq_self.mpr fun x hx => decide_eq_true fun he => ht (he ▸ hx)
  rw [hts, List.filter_append, filter_groups hc, hself] at hl
  have htail : tail = [] := List.append_right_eq_self.mp hl.symm
  rw [hts, htail, List.append_nil]

theorem getLast_groups {t : Int} (h : (clauses.flatMap (· ++ [0])).getLast? = some t) : t = 0 := by
  cases clauses using List.reverseRecOn with
  | nil => cases h
  | append_singleton clauses c =>
    rw [List.flatMap_append, List.flatMap_singleton, ← List.append_assoc, List.getLast?_concat] at h
    exact (Option.some.inj h).symm

end

theorem readProblem_accepted {content : List Char} {header : DIMACSHeader} {file : GzFile}
    {clauses : List (List Int)} (hh : readHeader ⟨content, false⟩ = .ok (header, file))
    (hr : readProblem content = (clauses, none)) :
    ∃ tail, literals (kept preferredChunkReadSize file.rest) = (clauses.flatMap (· ++ [0]) ++ tail, none) ∧
      ((0 : Int) ∉ tail ∧ ∀ c ∈ clauses, (0 : Int) ∉ c) ∧
      clauses.length = (clauses.flatMap (· ++ [0]) ++ tail).count 0 ∧
      clauses.length % uint32Size = header.numClauses := by
  have hn : 0 < preferredChunkReadSize := by decide
  have heof : file.eof = false := readHeader_eof hh
  unfold readProblem at hr
  rw [hh] at hr
  dsimp only at hr
  rw [readClauses_eq hn (fun h => absurd (heof.symm.trans h) Bool.false_ne_true) heof, Reader.read] at hr
  obtain ⟨hk, rfl, hcount⟩ := checkCount_eq_none hr
  have hread := Reader.new.foldl_take (literals (kept preferredChunkReadSize file.rest)).1
  have hzero := Reader.new.foldl_take_nonzero (literals (kept preferredChunkReadSize file.rest)).1 (by decide)
  have hlen := Reader.new.foldl_take_length (literals (kept preferredChunkReadSize file.rest)).1
  rw [new_effective] at hcount
  generalize literals (kept preferredChunkReadSize file.rest) = read at *
  obtain ⟨tk, ek⟩ := read
  obtain rfl : ek = none := hk
  dsimp only at hread hzero hlen hcount
  rw [show Reader.new.added.flatMap (· ++ [0]) ++ Reader.new.clauseBuffer ++ tk = tk from rfl] at hread
  rw [show Reader.new.added.length + tk.count 0 = tk.count 0 from Nat.zero_add _] at hlen
  refine ⟨_, congrArg (·, none) hread.symm, List.forall_mem_cons.mp hzero, ?_, ?_⟩
  · rw [hread]
    exact hlen
  · rw [hlen]
    exact hcount

/-- A file that is accepted is delivered exactly if no chunk is lost, its last
literal is 0 and the count of its clauses has not wrapped around. -/
theorem readProblem_delivered_iff {content : List Char} {header : DIMACSHeader} {file : GzFile}
    {clauses : List (List Int)} (hh : readHeader ⟨content, false⟩ = .ok (header, file))
    (hr : readProblem content = (clauses, none)) :
    (∃ ts, Lexed file.rest ts ∧ Delivered ts clauses ∧ clauses.length = header.numClauses) ↔
    (∀ chunk ∈ chunks preferredChunkReadSize file.rest, counted chunk = true) ∧
      ∀ ts, Lexed file.rest ts → (∀ t, ts.getLast? = some t → t = 0) ∧ ts.count 0 < uint32Size := by
  have hkept := literals_kept (by decide : 0 < preferredChunkReadSize) file.rest
  obtain ⟨tail, hread, ⟨htail, hclauses⟩, hlen, hcount⟩ := readProblem_accepted hh hr
  rw [hread] at hkept
  constructor
  · intro h
    obtain ⟨ts, hlex, hdel, hnum⟩ := h
    have hts := literals_iff_lexed.mpr hlex
    rw [hts, thenRead] at hkept
    obtain ⟨happ, hlost⟩ := Prod.mk.inj hkept
    have hnil : tail = [] ∧ (literals (lost preferredChunkReadSize file.rest)).1 = [] := by
      rw [List.append_assoc] at happ
      exact List.append_eq_nil_iff.mp (List.append_right_eq_self.mp (happ.symm.trans hdel.eq))
    have hblank := (literals_iff_lexed.mp (Prod.ext hnil.2 hlost.symm)).blank_of_nil
    refine ⟨counted_of_blank hblank, fun ts' hlex' => ?_⟩
    have hsame : ts' = ts := (Prod.mk.inj ((literals_iff_lexed.mpr hlex').symm.trans hts)).1
    rw [hsame]
    refine ⟨fun t ht => getLast_groups (hdel.eq ▸ ht), ?_⟩
    rw [hnil.1, List.append_nil, ← hdel.eq] at hlen
    rw [← hlen, hnum, ← hcount]
    exact Nat.mod_lt _ (by decide)
  · intro h
    obtain ⟨hall, htokens⟩ := h
    rw [(lost_eq_nil_iff _ _).mpr hall] at hkept
    have hlex : Lexed file.rest (clauses.flatMap (· ++ [0]) ++ tail) := by
      refine literals_iff_lexed.mp (hkept.trans ?_)
      show (_ ++ [], none) = _
      rw [List.append_nil]
    obtain ⟨hlast, hlt⟩ := htokens _ hlex
    have hempty : tail = [] := by
      by_contra hne
      have hz : tail.getLast hne = 0 := by
        apply hlast
        rw [List.getLast?_append_of_ne_nil _ hne]
        exact List.getLast?_eq_some_getLast hne
      exact htail (hz ▸ List.getLast_mem hne)
    rw [hempty, List.append_nil] at hlex hlen hlt
    refine ⟨_, hlex, ⟨⟨[], (List.append_nil _).symm, List.not_mem_nil, hclauses⟩, (filter_groups hclauses).symm⟩, ?_⟩
    rw [← hlen] at hlt
    rw [← hcount, Nat.mod_eq_of_lt hlt]

theorem readProblem_small :
    (∃ ts, Lexed "1 -2 0\n".toList ts ∧ Delivered ts [[1, -2]] ∧ ([[1, -2]] : List (List Int)).length = 1) ↔
    (∀ chunk ∈ chunks preferredChunkReadSize "1 -2 0\n".toList, counted chunk = true) ∧
      ∀ ts, Lexed "1 -2 0\n".toList ts → (∀ t, ts.getLast? = some t → t = 0) ∧ ts.count 0 < uint32Size :=
  @readProblem_delivered_iff "p cnf 2 1\n1 -2 0\n".toList ⟨2, 1⟩ ⟨"1 -2 0\n".toList, false⟩ [[1, -2]]
    (by decide +kernel) (by decide +kernel)

/-- The literals behind the last 0 are dropped. -/
theorem readProblem_tail : ∃ content header file clauses, readHeader ⟨content, false⟩ = .ok (header, file) ∧
    readProblem content = (clauses, none) ∧
    ∃ ts, Lexed file.rest ts ∧ ∃ t ∈ ts, t ≠ 0 ∧ ∀ c ∈ clauses, t ∉ c := by
  refine ⟨"p cnf 4 1\n1 2 0\n3 4\n".toList, ⟨4, 1⟩, ⟨"1 2 0\n3 4\n".toList, false⟩, [[1, 2]], by decide +kernel,
    by decide +kernel, [1, 2, 0, 3, 4], literals_iff_lexed.mp (by decide +kernel), 3, by decide, by decide, by decide⟩

/-! ## The IPASIR layer -/

theorem isInt_of_mem_literals (text : List Char) : ∀ t ∈ (literals text).1, IsInt t := by
  induction hn : text.length using Nat.strongRecOn generalizing text with
  | ind k ih =>
    rw [literals_eq]
    cases hs : scan text with
    | blank => exact fun t ht => absurd ht List.not_mem_nil
    | error message => exact fun t ht => absurd ht List.not_mem_nil
    | literal n rest =>
      obtain ⟨-, -, -, -, -, hi, -⟩ := scan_literal hs
      exact List.forall_mem_cons.mpr ⟨hi, ih rest.length (hn ▸ scan_length hs) rest rfl⟩

/-- The solver receives non-zero `int`s only. -/
theorem readProblem_literals (content : List Char) :
    ∀ c ∈ (readProblem content).1, ∀ lit ∈ c, lit ≠ 0 ∧ IsInt lit := by
  unfold readProblem
  cases hh : readHeader ⟨content, false⟩ with
  | error message => exact fun c hc => absurd hc List.not_mem_nil
  | ok r =>
    obtain ⟨header, file⟩ := r
    have heof : file.eof = false := readHeader_eof hh
    dsimp only
    rw [readClauses_eq (by decide) (fun h => absurd (heof.symm.trans h) Bool.false_ne_true) heof, Reader.read,
      checkCount_fst]
    have hread := Reader.new.foldl_take (literals (kept preferredChunkReadSize file.rest)).1
    have hzero := Reader.new.foldl_take_nonzero (literals (kept preferredChunkReadSize file.rest)).1 (by decide)
    intro c hc lit hl
    refine ⟨fun he => hzero c (List.mem_cons_of_mem _ hc) (he ▸ hl), ?_⟩
    apply isInt_of_mem_literals (kept preferredChunkReadSize file.rest)
    have hmem : lit ∈ ((literals (kept preferredChunkReadSize file.rest)).1.foldl Reader.take .new).added.flatMap
        (· ++ [0]) := List.mem_flatMap.mpr ⟨c, hc, List.mem_append_left _ hl⟩
    have := List.mem_append_left
      ((literals (kept preferredChunkReadSize file.rest)).1.foldl Reader.take .new).clauseBuffer hmem
    rwa [hread] at this

end Parser

namespace Ipasir

theorem packLit_eq {v : Nat} {sign : CNFSign} (hv : v ≠ CNFVar.undefinedVariable)
    (hlt : v * 2 + sign.rawValue < uint32Size) :
    packLit v sign = some ⟨v, sign⟩ := by
  unfold packLit
  rw [if_neg hv]
  dsimp only
  rw [Nat.mod_eq_of_lt hlt]
  cases sign with
  | negative =>
    have h : (v * 2 + CNFSign.negative.rawValue) / 2 = v ∧ (v * 2 + CNFSign.negative.rawValue) % 2 = 0 := by
      show (v * 2 + 0) / 2 = v ∧ (v * 2 + 0) % 2 = 0
      omega
    rw [h.1, h.2]
    rfl
  | positive =>
    have h : (v * 2 + CNFSign.positive.rawValue) / 2 = v ∧ (v * 2 + CNFSign.positive.rawValue) % 2 = 1 := by
      show (v * 2 + 1) / 2 = v ∧ (v * 2 + 1) % 2 = 1
      omega
    rw [h.1, h.2]
    rfl

/-- A literal that the parser accepts is decoded as by the library's reader
exactly if its variable is regular. -/
theorem ipasirLitToCNFLit_agrees_iff {content : List Char} {clause : List Int}
    (hc : clause ∈ (Parser.readProblem content).1)
    {lit : Int} (hl : lit ∈ clause) :
    (∃ l, ipasirLitToCNFLit lit = some l ∧ l.var ≤ CNFVar.maxRawValue ∧ decodeCNFLit lit = some l) ↔
      lit.natAbs ≤ CNFVar.maxRawValue + 1 := by
  obtain ⟨hne, hlo, hhi⟩ := Parser.readProblem_literals content clause hc lit hl
  have hmax : CNFVar.maxRawValue = 1073741822 := rfl
  have hund : CNFVar.undefinedVariable = 1073741823 := rfl
  have hsize : uint32Size = 4294967296 := rfl
  have hint : TextStream.intMax = 2147483647 := rfl
  constructor
  · intro h
    obtain ⟨l, -, -, hd⟩ := h
    unfold decodeCNFLit at hd
    dsimp only at hd
    split at hd
    · cases hd
    · split at hd
      · cases hd
      · omega
  · intro h
    have hmin : lit ≠ -(TextStream.intMax + 1 : Nat) := by omega
    have hreg : ¬ CNFVar.maxRawValue < lit.natAbs - 1 := by omega
    refine ⟨⟨lit.natAbs - 1, if 0 < lit then .positive else .negative⟩, ?_, Nat.le_of_not_lt hreg, ?_⟩
    · unfold ipasirLitToCNFLit abs
      rw [if_neg hmin]
      show packLit (lit.natAbs - 1) _ = _
      apply packLit_eq
      · omega
      · have : (if 0 < lit then CNFSign.positive else CNFSign.negative).rawValue ≤ 1 := by
          split <;> decide
        omega
    · unfold decodeCNFLit
      rw [if_neg hmin]
      exact if_neg hreg

theorem ipasirLitToCNFLit_one :
    ∃ l, ipasirLitToCNFLit 1 = some l ∧ l.var ≤ CNFVar.maxRawValue ∧ decodeCNFLit 1 = some l :=
  (@ipasirLitToCNFLit_agrees_iff "p cnf 1 1\n1 0\n".toList [1] (by decide +kernel) 1 (by decide)).mpr (by decide)

/-- The largest `int` is accepted and has no variable, and the smallest cannot
be converted. -/
theorem ipasirLitToCNFLit_large :
    Parser.readProblem "p cnf 1 1\n2147483647 -2147483648 0\n".toList = ([[2147483647, -2147483648]], none) ∧
    ipasirLitToCNFLit 2147483647 = some ⟨2147483646, .positive⟩ ∧ ¬ 2147483646 ≤ CNFVar.maxRawValue ∧
    decodeCNFLit 2147483647 = none ∧ ipasirLitToCNFLit (-2147483648) = none := by decide +kernel

end Ipasir

end JamSAT
