import JamSAT.FrontendParserSound
import Mathlib.Data.List.TakeWhile

/-!
# What the solver receives of a problem file

The literals of a text by the shape of their numerals, the chunks in which a
file is read, and the conditions under which neither the chunks nor the check of
the clause count make a difference to the clauses.
-/

namespace JamSAT

namespace Parser

open TextStream (isSpace intMax isSpace_of_isDigit)

/-! ## Numerals -/

inductive Sign : Bool → List Char → Prop
  | none : Sign false []
  | plus : Sign false ['+']
  | minus : Sign true ['-']

inductive Numeral : List Char → Int → Prop
  | mk {negative : Bool} {sign digits : List Char} : Sign negative sign → digits ≠ [] →
    (∀ c ∈ digits, c.isDigit = true) →
    Numeral (sign ++ digits)
      (if negative then -(Nat.ofDigitChars 10 digits 0 : Int) else Nat.ofDigitChars 10 digits 0)

def IsInt (n : Int) : Prop := -(intMax : Int) - 1 ≤ n ∧ n ≤ intMax

/-- The text consists of whitespace and of numerals with these values. -/
inductive Lexed : List Char → List Int → Prop
  | blank {text : List Char} : (∀ c ∈ text, isSpace c = true) → Lexed text []
  | literal {blanks word rest : List Char} {n : Int} {ts : List Int} : (∀ c ∈ blanks, isSpace c = true) →
    Numeral word n → IsInt n → (∀ c, rest.head? = some c → c.isDigit = false) → Lexed rest ts →
    Lexed (blanks ++ (word ++ rest)) (n :: ts)

section
variable {text rest digits word : List Char} {n : Int} {ts : List Int}

theorem takeSign_spec (text : List Char) :
    ∃ sign, Sign (takeSign text).1 sign ∧ text = sign ++ (takeSign text).2 := by
  unfold takeSign
  split
  · exact ⟨['-'], .minus, rfl⟩
  · exact ⟨['+'], .plus, rfl⟩
  · exact ⟨[], .none, rfl⟩

theorem takeSign_sign {negative : Bool} {sign : List Char} (h : Sign negative sign) (hd : digits ≠ [])
    (hall : ∀ c ∈ digits, c.isDigit = true) (rest : List Char) :
    takeSign (sign ++ (digits ++ rest)) = (negative, digits ++ rest) := by
  cases h with
  | minus => rfl
  | plus => rfl
  | none =>
    obtain ⟨c, digits, rfl⟩ := List.exists_cons_of_ne_nil hd
    have hc := hall c List.mem_cons_self
    show takeSign (c :: (digits ++ rest)) = _
    unfold takeSign
    split
    · rename_i he
      obtain ⟨rfl, -⟩ := List.cons.inj he
      cases hc
    · rename_i he
      obtain ⟨rfl, -⟩ := List.cons.inj he
      cases hc
    · rfl

theorem Numeral.head (h : Numeral word n) : ∃ c tail, word = c :: tail ∧ isSpace c = false := by
  obtain ⟨hs, hne, hall⟩ := h
  obtain ⟨d, digits, rfl⟩ := List.exists_cons_of_ne_nil hne
  cases hs with
  | none => exact ⟨d, digits, rfl, isSpace_of_isDigit (hall d List.mem_cons_self)⟩
  | plus => exact ⟨'+', d :: digits, rfl, by decide⟩
  | minus => exact ⟨'-', d :: digits, rfl, by decide⟩

theorem takeWhile_digits (hall : ∀ c ∈ digits, c.isDigit = true)
    (hr : ∀ c, rest.head? = some c → c.isDigit = false) :
    (digits ++ rest).takeWhile Char.isDigit = digits ∧ (digits ++ rest).dropWhile Char.isDigit = rest := by
  have h : rest.takeWhile Char.isDigit = [] ∧ rest.dropWhile Char.isDigit = rest := by
    cases rest with
    | nil => exact ⟨rfl, rfl⟩
    | cons c rest => simp [hr c rfl]
  rw [List.takeWhile_append_of_pos hall, List.dropWhile_append_of_pos hall, h.1, h.2, List.append_nil]
  exact ⟨rfl, rfl⟩

theorem scan_numeral (h : Numeral word n) (hn : IsInt n) (hr : ∀ c, rest.head? = some c → c.isDigit = false) :
    scan (word ++ rest) = .literal n rest := by
  obtain ⟨c, tail, hw, hc⟩ := h.head
  obtain ⟨hs, hne, hall⟩ := h
  rename_i negative sign digits
  obtain ⟨htake, hdrop⟩ := takeWhile_digits hall hr
  have hblank : (sign ++ digits ++ rest).dropWhile isSpace = sign ++ (digits ++ rest) := by
    rw [hw, List.cons_append, List.dropWhile_cons_of_neg (by rw [hc]; decide), ← List.cons_append, ← hw,
      List.append_assoc]
  unfold scan strtol
  rw [hblank, takeSign_sign hs hne hall rest]
  dsimp only
  rw [htake, hdrop, if_neg hne]
  dsimp only
  obtain ⟨hlo, hhi⟩ := hn
  simp only [intMax] at hlo hhi ⊢
  cases negative with
  | false =>
    simp only [Bool.false_eq_true, if_false] at hlo hhi ⊢
    rw [min_eq_left (by unfold longMax; omega), if_neg (by omega)]
  | true =>
    simp only [if_true] at hlo hhi ⊢
    rw [max_eq_left (by unfold longMax; omega), if_neg (by omega)]

theorem scan_blank_iff : scan text = .blank ↔ ∀ c ∈ text, isSpace c = true := by
  refine ⟨fun h => ?_, scan_blank⟩
  unfold scan at h
  split at h
  · split at h <;> cases h
  · split at h
    · cases h
    · rename_i hnone
      intro c hc
      simpa using List.find?_eq_none.mp hnone c hc

theorem scan_literal (h : scan text = .literal n rest) : ∃ blanks word, text = blanks ++ (word ++ rest) ∧
    (∀ c ∈ blanks, isSpace c = true) ∧ Numeral word n ∧ IsInt n ∧ ∀ c, rest.head? = some c → c.isDigit = false := by
  obtain ⟨sign, hs, hsplit⟩ := takeSign_spec (text.dropWhile isSpace)
  unfold scan at h
  split at h
  · rename_i m endCursor hstr
    split at h
    · cases h
    · rename_i hrange
      obtain ⟨rfl, rfl⟩ := Scan.literal.inj h
      unfold strtol at hstr
      dsimp only at hstr
      split at hstr
      · cases hstr
      · rename_i hne
        obtain ⟨hval, rfl⟩ := Prod.mk.inj (Option.some.inj hstr)
        have hall : ∀ c ∈ (takeSign (text.dropWhile isSpace)).2.takeWhile Char.isDigit, c.isDigit = true :=
          fun c hc => List.mem_takeWhile_imp hc
        have hi : IsInt m := by
          unfold IsInt
          omega
        refine ⟨text.takeWhile isSpace, sign ++ (takeSign (text.dropWhile isSpace)).2.takeWhile Char.isDigit, ?_,
          fun c hc => List.mem_takeWhile_imp hc, ?_, hi, fun c hc => ?_⟩
        · rw [List.append_assoc, List.takeWhile_append_dropWhile, ← hsplit, List.takeWhile_append_dropWhile]
        · have := Numeral.mk hs hne hall
          convert this using 1
          cases hneg : (takeSign (text.dropWhile isSpace)).1 with
          | false =>
            simp only [hneg, Bool.false_eq_true, if_false, intMax, longMax] at hval hrange ⊢
            omega
          | true =>
            simp only [hneg, if_true, intMax, longMax] at hval hrange ⊢
            omega
        · have := List.head?_dropWhile_not Char.isDigit (takeSign (text.dropWhile isSpace)).2
          rw [hc] at this
          simpa using this
  · split at h <;> cases h

theorem Lexed.blank_of_nil (h : Lexed text []) : ∀ c ∈ text, isSpace c = true := by
  cases h with
  | blank hb => exact hb

/-- A text is read without an error exactly if it consists of numerals. -/
theorem literals_iff_lexed : literals text = (ts, none) ↔ Lexed text ts := by
  constructor
  · intro h
    induction hn : text.length using Nat.strongRecOn generalizing text ts with
    | ind k ih =>
      rw [literals_eq] at h
      cases hs : scan text with
      | blank =>
        rw [hs] at h
        obtain rfl := (Prod.mk.inj h).1
        exact .blank (scan_blank_iff.mp hs)
      | error message =>
        rw [hs] at h
        cases (Prod.mk.inj h).2
      | literal n rest =>
        rw [hs] at h
        obtain ⟨rfl, he⟩ := Prod.mk.inj h
        have hrest : Lexed rest (literals rest).1 :=
          ih rest.length (hn ▸ scan_length hs) (Prod.ext rfl he) rfl
        obtain ⟨blanks, word, rfl, hb, hw, hi, hr⟩ := scan_literal hs
        exact .literal hb hw hi hr hrest
  · intro h
    induction h with
    | blank hb => rw [literals_eq, scan_blank hb]
    | literal hb hw hi hr _ ih =>
      rw [literals_blank hb, literals_eq, scan_numeral hw hi hr]
      simp only [ih]

end

/-! ## The reader -/

section
variable (r : Reader) (ts : List Int)

theorem Reader.take_zero :
    r.take 0 = ⟨[], (r.effectiveClauses + 1) % uint32Size, r.added ++ [r.clauseBuffer]⟩ := if_pos rfl

theorem Reader.take_of_ne {t : Int} (h : t ≠ 0) : r.take t = { r with clauseBuffer := r.clauseBuffer ++ [t] } :=
  if_neg h

/-- Nothing but the `0`s is left out. -/
theorem Reader.foldl_take : (ts.foldl take r).added.flatMap (· ++ [0]) ++ (ts.foldl take r).clauseBuffer =
    r.added.flatMap (· ++ [0]) ++ r.clauseBuffer ++ ts := by
  induction ts generalizing r with
  | nil => exact (List.append_nil _).symm
  | cons t ts ih =>
    rw [List.foldl_cons, ih]
    by_cases ht : t = 0
    · rw [ht, r.take_zero, List.flatMap_append, List.flatMap_singleton]
      simp only [List.append_nil, List.append_assoc, List.singleton_append]
    · rw [r.take_of_ne ht]
      simp only [List.append_assoc, List.singleton_append]

theorem Reader.foldl_take_nonzero (h : ∀ c ∈ r.clauseBuffer :: r.added, (0 : Int) ∉ c) :
    ∀ c ∈ (ts.foldl take r).clauseBuffer :: (ts.foldl take r).added, (0 : Int) ∉ c := by
  induction ts generalizing r with
  | nil => exact h
  | cons t ts ih =>
    apply ih
    obtain ⟨hb, ha⟩ := List.forall_mem_cons.mp h
    by_cases ht : t = 0
    · rw [ht, r.take_zero]
      refine List.forall_mem_cons.mpr ⟨List.not_mem_nil, fun c hc => ?_⟩
      cases List.mem_append.mp hc with
      | inl hc => exact ha c hc
      | inr hc => rwa [List.mem_singleton.mp hc]
    · rw [r.take_of_ne ht]
      refine List.forall_mem_cons.mpr ⟨fun hm => ?_, ha⟩
      cases List.mem_append.mp hm with
      | inl hm => exact hb hm
      | inr hm => exact ht (List.mem_singleton.mp hm).symm

theorem Reader.foldl_take_length : (ts.foldl take r).added.length = r.added.length + ts.count 0 := by
  induction ts generalizing r with
  | nil => rfl
  | cons t ts ih =>
    rw [List.foldl_cons, ih]
    by_cases ht : t = 0
    · rw [ht, r.take_zero, List.count_cons_self, List.length_append, List.length_singleton]
      omega
    · rw [r.take_of_ne ht, List.count_cons_of_ne ht]

theorem Reader.foldl_take_effective (h : r.effectiveClauses < uint32Size) :
    (ts.foldl take r).effectiveClauses = (r.effectiveClauses + ts.count 0) % uint32Size := by
  induction ts generalizing r with
  | nil => exact (Nat.mod_eq_of_lt h).symm
  | cons t ts ih =>
    rw [List.foldl_cons]
    by_cases ht : t = 0
    · rw [ht, r.take_zero, List.count_cons_self, ih _ (Nat.mod_lt _ (by decide)), Nat.mod_add_mod, Nat.add_assoc,
        Nat.add_comm 1]
    · rw [r.take_of_ne ht, List.count_cons_of_ne ht]
      exact ih _ h

theorem Reader.foldl_take_of_nonzero (h : (0 : Int) ∉ ts) : (ts.foldl take r).added = r.added ∧
    (ts.foldl take r).effectiveClauses = r.effectiveClauses := by
  induction ts generalizing r with
  | nil => exact ⟨rfl, rfl⟩
  | cons t ts ih =>
    have ht : t ≠ 0 := fun he => h (he ▸ List.mem_cons_self)
    obtain ⟨ha, he⟩ := ih (r.take t) fun hm => h (List.mem_cons_of_mem t hm)
    rw [List.foldl_cons, ha, he, r.take_of_ne ht]
    exact ⟨rfl, rfl⟩

end

/-! ## The chunks of a file -/

def chunksLoop (preferredChunkSize : Nat) : (fuel : Nat) → GzFile → List (List Char)
  | 0, _ => []
  | fuel + 1, file =>
    match readChunk file preferredChunkSize with
    | (_, buffer, file) => if buffer = [] then [] else buffer :: chunksLoop preferredChunkSize fuel file

def chunks (preferredChunkSize : Nat) (text : List Char) : List (List Char) :=
  chunksLoop preferredChunkSize (text.length + 1) ⟨text, false⟩

def counted (chunk : List Char) : Bool := decide (chunk.length % uint32Size ≠ 0)

/-- The chunks before the first one whose size is returned as 0. -/
def kept (preferredChunkSize : Nat) (text : List Char) : List Char :=
  ((chunks preferredChunkSize text).takeWhile counted).flatten

def lost (preferredChunkSize : Nat) (text : List Char) : List Char :=
  ((chunks preferredChunkSize text).dropWhile counted).flatten

theorem toInt_eq_zero_iff {size : Nat} : toInt size = 0 ↔ size % uint32Size = 0 := by
  unfold toInt uint32Size TextStream.unsignedMax
  rw [Int.bmod_def]
  omega

section
variable {n : Nat} {text : List Char} {file : GzFile} {fuel : Nat}

theorem chunksLoop_eq_nil (hn : 0 < n) (hw : file.WellFormed) (he : file.rest = []) :
    chunksLoop n fuel file = [] := by
  cases fuel with
  | zero => rfl
  | succ fuel =>
    obtain ⟨buffer, file', hr, hrest, -⟩ := readChunk_spec hn hw
    obtain ⟨rfl, -⟩ := List.append_eq_nil_iff.mp (he ▸ hrest).symm
    unfold chunksLoop
    rw [hr]
    rfl

theorem chunksLoop_ne_nil : ∀ chunk ∈ chunksLoop n fuel file, chunk ≠ [] := by
  induction fuel generalizing file with
  | zero => exact fun chunk hc => absurd hc List.not_mem_nil
  | succ fuel ih =>
    unfold chunksLoop
    dsimp only
    split
    · exact fun chunk hc => absurd hc List.not_mem_nil
    · rename_i hb
      exact List.forall_mem_cons.mpr ⟨hb, ih⟩

/-- The chunks before another one are closed. -/
theorem chunksLoop_spec (hn : 0 < n) (hw : file.WellFormed) (hf : file.rest.length < fuel) :
    (chunksLoop n fuel file).flatten = file.rest ∧
    ∀ pre post, chunksLoop n fuel file = pre ++ post → pre = [] ∨ post = [] ∨ Closed pre.flatten := by
  induction fuel generalizing file with
  | zero => exact absurd hf (Nat.not_lt_zero _)
  | succ fuel ih =>
    obtain ⟨buffer, file', hr, hrest, hw', hcl, hne⟩ := readChunk_spec hn hw
    unfold chunksLoop
    rw [hr]
    dsimp only
    split
    · rename_i hb
      have he : file.rest = [] := by
        by_contra h
        exact hne h hb
      refine ⟨he.symm, fun pre post h => .inl (List.append_eq_nil_iff.mp h.symm).1⟩
    · rename_i hb
      have hlen : file'.rest.length < fuel := by
        have := congrArg List.length hrest
        rw [List.length_append] at this
        have := List.length_pos_of_ne_nil hb
        omega
      obtain ⟨hflat, hpre⟩ := ih hw' hlen
      refine ⟨by rw [List.flatten_cons, hflat, hrest], fun pre post h => ?_⟩
      cases pre with
      | nil => exact .inl rfl
      | cons b pre =>
        obtain ⟨rfl, h'⟩ := List.cons.inj h
        cases post with
        | nil => exact .inr (.inl rfl)
        | cons c post =>
          refine .inr (.inr ?_)
          rw [List.flatten_cons]
          have hclosed : Closed buffer := by
            refine hcl.resolve_left fun he => ?_
            rw [chunksLoop_eq_nil hn hw' he] at h'
            exact absurd (List.append_eq_nil_iff.mp h'.symm).2 (List.cons_ne_nil _ _)
          rcases hpre pre (c :: post) h' with hp | hp | hp
          · rwa [hp, List.flatten_nil, List.append_nil]
          · cases hp
          · exact hp.append buffer

theorem kept_append_lost (hn : 0 < n) (text : List Char) : kept n text ++ lost n text = text ∧
    (kept n text = [] ∨ lost n text = [] ∨ Closed (kept n text)) := by
  have hw : GzFile.WellFormed ⟨text, false⟩ := fun h => absurd h Bool.false_ne_true
  obtain ⟨hflat, hpre⟩ := chunksLoop_spec hn hw (Nat.lt_succ_self text.length)
  have hsplit := List.takeWhile_append_dropWhile (p := counted) (l := chunks n text)
  constructor
  · rw [kept, lost, ← List.flatten_append, hsplit]
    exact hflat
  · unfold kept lost
    refine (hpre _ _ hsplit.symm).imp (fun h => by rw [h]; rfl) (Or.imp_left fun h => by rw [h]; rfl)

theorem readChunks_eq (hn : 0 < n) (hw : file.WellFormed) {fuel' : Nat} (hf : file.rest.length + 1 < fuel)
    (hf' : file.rest.length < fuel') (r : Reader) :
    readChunks n fuel file r = r.read ((chunksLoop n fuel' file).takeWhile counted).flatten := by
  induction fuel generalizing file fuel' r with
  | zero => exact absurd hf (Nat.not_lt_zero _)
  | succ fuel ih =>
    obtain ⟨fuel', rfl⟩ := Nat.exists_eq_succ_of_ne_zero (Nat.ne_zero_of_lt hf')
    obtain ⟨buffer, file', hr, hrest, hw', hcl, hne⟩ := readChunk_spec hn hw
    unfold readChunks chunksLoop
    rw [hr]
    dsimp only
    by_cases hb : buffer = []
    · rw [hb]
      rfl
    · rw [if_neg hb]
      by_cases hc : toInt buffer.length = 0
      · rw [if_pos hc,
          List.takeWhile_cons_of_neg (by rw [counted, decide_eq_true_eq, not_not]; exact toInt_eq_zero_iff.mp hc)]
        rfl
      · have hlen : file'.rest.length + 1 < fuel ∧ file'.rest.length < fuel' := by
          have := congrArg List.length hrest
          rw [List.length_append] at this
          have := List.length_pos_of_ne_nil hb
          omega
        rw [if_neg hc, List.takeWhile_cons_of_pos
          (by rw [counted, decide_eq_true_eq]; exact mt toInt_eq_zero_iff.mpr hc), List.flatten_cons,
          readBuffer_eq (Nat.lt_succ_self _)]
        have happend : ∀ rest, file'.rest = [] ∧ rest = [] ∨ Closed buffer → r.read (buffer ++ rest) =
            if (r.read buffer).2 = none then (r.read buffer).1.read rest else r.read buffer := by
          intro rest h
          cases h with
          | inl h =>
            rw [h.2, List.append_nil]
            cases r.read buffer with
            | mk r' e => cases e <;> rfl
          | inr h =>
            rw [r.read_append h rest]
            cases r.read buffer with
            | mk r' e => cases e <;> rfl
        rw [happend]
        · cases hread : r.read buffer with
          | mk r' e =>
            cases e with
            | some message => rfl
            | none => exact ih hw' hlen.1 hlen.2 r'
        · refine hcl.imp_left fun he => ⟨he, ?_⟩
          rw [chunksLoop_eq_nil hn hw' he]
          rfl

theorem readClauses_eq (hn : 0 < n) (hw : file.WellFormed) (he : file.eof = false) (header : DIMACSHeader) :
    readClauses n file header = checkCount header (Reader.new.read (kept n file.rest)) := by
  unfold readClauses
  rw [readChunks_eq hn hw (Nat.lt_succ_self _) (Nat.lt_succ_self _)]
  obtain ⟨rest, eof⟩ := file
  obtain rfl : eof = false := he
  rfl

theorem literals_kept (hn : 0 < n) (text : List Char) :
    literals text = thenRead (literals (kept n text)) (lost n text) := by
  have hnil : ∀ b, thenRead (literals []) b = literals b := fun _ => rfl
  obtain ⟨happ, hcl⟩ := kept_append_lost hn text
  generalize kept n text = a at happ hcl ⊢
  generalize lost n text = b at happ hcl ⊢
  subst happ
  rcases hcl with rfl | rfl | hcl
  · exact (hnil b).symm
  · rw [List.append_nil]
    cases hl : literals a with
    | mk ts e =>
      cases e with
      | some message => rfl
      | none =>
        show _ = (ts ++ [], _)
        rw [List.append_nil]
        rfl
  · exact literals_append hcl b

end

/-! ## Reading in chunks -/

def readWhole (text : List Char) (header : DIMACSHeader) : List (List Int) × Option String :=
  checkCount header (readBuffer (text.length + 1) text .new)

/-- The lost text changes neither the clauses nor whether an error is thrown. -/
def Harmless (header : DIMACSHeader) (kept lost : List Char) : Prop :=
  (literals kept).2 ≠ none ∨ (0 : Int) ∉ (literals lost).1 ∧
    ((literals lost).2 = none ∨ (literals kept).1.count 0 % uint32Size ≠ header.numClauses)

theorem checkCount_fst (header : DIMACSHeader) (r : Reader) (e : Option String) :
    (checkCount header (r, e)).1 = r.added := by
  cases e with
  | some message => rfl
  | none =>
    unfold checkCount
    dsimp only
    split <;> rfl

theorem checkCount_isSome (header : DIMACSHeader) (r : Reader) (e : Option String) :
    (checkCount header (r, e)).2.isSome = true ↔ e ≠ none ∨ r.effectiveClauses ≠ header.numClauses := by
  cases e with
  | some message => exact iff_of_true rfl (.inl (Option.some_ne_none _))
  | none =>
    unfold checkCount
    dsimp only
    split
    · rename_i h
      exact iff_of_false Bool.false_ne_true fun hn => hn.elim (fun h => h rfl) fun hn => hn h
    · rename_i h
      exact iff_of_true rfl (.inr h)

theorem checkCount_eq_none {header : DIMACSHeader} {r : Reader} {e : Option String} {clauses : List (List Int)}
    (h : checkCount header (r, e) = (clauses, none)) :
    e = none ∧ r.added = clauses ∧ r.effectiveClauses = header.numClauses := by
  have hfst := checkCount_fst header r e
  have hsome := checkCount_isSome header r e
  rw [h] at hfst hsome
  have hn : ¬ (e ≠ none ∨ r.effectiveClauses ≠ header.numClauses) := mt hsome.mpr Bool.false_ne_true
  rw [not_or, not_not, not_not] at hn
  exact ⟨hn.1, hfst.symm, hn.2⟩

theorem new_effective (ts : List Int) : (ts.foldl Reader.take .new).effectiveClauses = ts.count 0 % uint32Size := by
  rw [Reader.foldl_take_effective _ _ (by decide)]
  show (0 + _) % _ = _
  rw [Nat.zero_add]

/-- The chunks make no difference exactly if what they lose makes none. -/
theorem readClauses_eq_readWhole_iff {n : Nat} (hn : 0 < n) (text : List Char) (header : DIMACSHeader) :
    ((readClauses n ⟨text, false⟩ header).1 = (readWhole text header).1 ∧
      (readClauses n ⟨text, false⟩ header).2.isSome = (readWhole text header).2.isSome) ↔
    Harmless header (kept n text) (lost n text) := by
  rw [readClauses_eq hn (fun h => absurd h Bool.false_ne_true) rfl, readWhole, readBuffer_eq (Nat.lt_succ_self _)]
  unfold Harmless Reader.read
  dsimp only
  rw [literals_kept hn text]
  cases hk : literals (kept n text) with
  | mk tk ek =>
    cases ek with
    | some message => exact iff_of_true ⟨rfl, rfl⟩ (.inl (Option.some_ne_none _))
    | none =>
      cases hl : literals (lost n text) with
      | mk tl el =>
        simp only [thenRead, hl, List.foldl_append, checkCount_fst]
        rw [Bool.eq_iff_iff, checkCount_isSome, checkCount_isSome]
        simp only [ne_eq, not_true_eq_false, false_or]
        constructor
        · intro h
          obtain ⟨hadded, hthrow⟩ := h
          have hlen := congrArg List.length hadded
          rw [Reader.foldl_take_length _ tl] at hlen
          have hz : (0 : Int) ∉ tl := List.count_eq_zero.mp (by omega)
          refine ⟨hz, ?_⟩
          by_contra hn
          rw [not_or, not_not] at hn
          rw [new_effective] at hthrow
          exact hthrow.mpr (.inl hn.1) hn.2
        · intro h
          obtain ⟨hz, h⟩ := h
          obtain ⟨ha, he⟩ := (tk.foldl Reader.take .new).foldl_take_of_nonzero tl hz
          refine ⟨ha.symm, ?_⟩
          rw [he, new_effective]
          cases h with
          | inl h => exact ⟨.inr, fun hn => hn.resolve_left (not_not.mpr h)⟩
          | inr h => exact iff_of_true h (.inr h)

theorem readClauses_eq_readWhole_small : Harmless ⟨1, 1⟩ (kept 2 "1 0 ".toList) (lost 2 "1 0 ".toList) :=
  (readClauses_eq_readWhole_iff (by decide) _ _).mp (by decide +kernel)

/-- Nothing is lost, nor is there a difference, while no size is a multiple of `2 ^ 32`. -/
theorem lost_eq_nil_iff (n : Nat) (text : List Char) :
    lost n text = [] ↔ ∀ chunk ∈ chunks n text, counted chunk = true := by
  rw [← List.dropWhile_eq_nil_iff, lost, List.flatten_eq_nil_iff]
  refine ⟨fun h => ?_, fun h chunk hc => ?_⟩
  · rw [List.eq_nil_iff_forall_not_mem]
    intro chunk hc
    exact chunksLoop_ne_nil chunk ((List.dropWhile_suffix _).mem hc) (h chunk hc)
  · rw [h] at hc
    cases hc

theorem readClauses_of_counted {n : Nat} (hn : 0 < n) {text : List Char}
    (h : ∀ chunk ∈ chunks n text, counted chunk = true)
    (header : DIMACSHeader) : readClauses n ⟨text, false⟩ header = readWhole text header := by
  have hkept : kept n text = text := by
    have := (kept_append_lost hn text).1
    rwa [(lost_eq_nil_iff n text).mpr h, List.append_nil] at this
  rw [readClauses_eq hn (fun h => absurd h Bool.false_ne_true) rfl, hkept, readWhole,
    readBuffer_eq (Nat.lt_succ_self _)]

theorem finishLiteral_zeros (k : Nat) :
    finishLiteral (List.replicate k '0') = (List.replicate k '0', ⟨[], true⟩) := by
  induction k with
  | zero => rfl
  | succ k ih =>
    rw [List.replicate_succ, finishLiteral, if_neg (by decide), ih]

theorem literals_zeros (k : Nat) : literals (List.replicate (k + 1) '0') = ([0], none) := by
  have hne : List.replicate (k + 1) '0' ≠ [] := List.cons_ne_nil _ _
  have hall : ∀ c ∈ List.replicate (k + 1) '0', c.isDigit = true := by
    intro c hc
    rw [List.eq_of_mem_replicate hc]
    decide
  have hnum : Numeral (List.replicate (k + 1) '0') 0 := by
    have := Numeral.mk Sign.none hne hall
    rw [Nat.ofDigitChars_replicate_zero] at this
    exact this
  have hint : IsInt 0 := by
    unfold IsInt
    decide
  have hnil : ∀ c, ([] : List Char).head? = some c → c.isDigit = false := fun c hc => nomatch hc
  have hscan := scan_numeral hnum hint hnil
  rw [List.append_nil] at hscan
  rw [literals_eq, hscan]
  rfl

theorem zeros_lost {k : Nat} (hk : toInt (1 + k) = 0) :
    readClauses 1 ⟨'0' :: ' ' :: List.replicate (k + 1) '0', false⟩ ⟨0, 1⟩ = ([[]], none) ∧
    (readWhole ('0' :: ' ' :: List.replicate (k + 1) '0') ⟨0, 1⟩).1 = [[], []] ∧
    (readWhole ('0' :: ' ' :: List.replicate (k + 1) '0') ⟨0, 1⟩).2.isSome = true := by
  have hfirst : readChunk ⟨'0' :: ' ' :: List.replicate (k + 1) '0', false⟩ 1 =
      (toInt 2, ['0', ' '], ⟨List.replicate (k + 1) '0', false⟩) := by
    simp [readChunk, gzread, isSpace, finishLiteral]
  have hlast : readChunk ⟨List.replicate (k + 1) '0', false⟩ 1 = (0, List.replicate (k + 1) '0', ⟨[], true⟩) := by
    simp [readChunk, gzread, isSpace, finishLiteral_zeros, hk, List.replicate_succ]
  have hclosed : Closed ['0', ' '] := ⟨['0'], ' ', rfl, by decide⟩
  have hbegin : literals ['0', ' '] = ([0], none) := by decide +kernel
  have hwhole : literals ('0' :: ' ' :: List.replicate (k + 1) '0') = ([0, 0], none) := by
    have := literals_append hclosed (List.replicate (k + 1) '0')
    rwa [hbegin, thenRead, literals_zeros] at this
  constructor
  · unfold readClauses
    rw [readChunks, hfirst]
    dsimp only
    rw [if_neg (by decide), readBuffer_eq (Nat.lt_succ_self _), Reader.read, hbegin]
    dsimp only [List.length_cons]
    rw [readChunks, hlast]
    rfl
  · rw [readWhole, readBuffer_eq (Nat.lt_succ_self _), Reader.read, hwhole]
    exact ⟨rfl, rfl⟩

/-- With chunks of one byte, the second literal of `0 00…0` with `2 ^ 32` digits is lost. -/
theorem readClauses_zeros : ∃ n text header, 0 < n ∧ readClauses n ⟨text, false⟩ header = ([[]], none) ∧
    (readWhole text header).1 = [[], []] ∧ (readWhole text header).2.isSome = true :=
  ⟨1, _, ⟨0, 1⟩, by decide, zeros_lost (k := 4294967295) (by decide)⟩

end Parser

end JamSAT
