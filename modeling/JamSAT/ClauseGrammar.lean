import JamSAT.CNFProblemSound
import Mathlib.Data.List.TakeWhile

/-!
# The grammar of clauses and what the reader makes of it

A text is a sequence of tokens and comments. In a clause every token is entirely a literal, up
to the token `0`. The reader looks at the number with which a token begins, and at the end of the
text it looks at the token or comment before once more.
-/

namespace JamSAT

open TextStream

/-! ## Texts -/

/-- A token, the rest of the line after a token `c`, or a `c` with which the text ends. -/
inductive ClauseItem
  | token (t : List Char)
  | comment (line : List Char)
  | mark
  deriving DecidableEq, Repr

def firstItem (text : List Char) : Option (ClauseItem × List Char) :=
  let token := (text.dropWhile isSpace).takeWhile fun c => !isSpace c
  let rest := (text.dropWhile isSpace).dropWhile fun c => !isSpace c
  if token = [] then none
  else if token ≠ ['c'] then some (.token token, rest)
  else if rest = [] then some (.mark, [])
  else some (.comment (rest.takeWhile (· != '\n')), (rest.dropWhile (· != '\n')).tail)

def takeItems : (n : Nat) → List Char → List ClauseItem
  | 0, _ => []
  | n + 1, text =>
    match firstItem text with
    | none => []
    | some (item, rest) => item :: takeItems n rest

def items (text : List Char) : List ClauseItem := takeItems (text.length + 1) text

/-! ## Clauses -/

inductive TokenValue
  | literal (l : CNFLit)
  | zero
  | illegal
  deriving DecidableEq, Repr

def natural (digits : List Char) : Option Nat :=
  if digits ≠ [] ∧ digits.all Char.isDigit then some (Nat.ofDigitChars 10 digits 0) else none

def number (token : List Char) : Option Int :=
  match token with
  | '-' :: digits => (natural digits).map fun n : Nat => -(n : Int)
  | '+' :: digits => (natural digits).map fun n : Nat => (n : Int)
  | digits => (natural digits).map fun n : Nat => (n : Int)

def literalOf (n : Int) : Option CNFLit :=
  if n = 0 ∨ CNFVar.maxRawValue < n.natAbs - 1 then none
  else some ⟨n.natAbs - 1, if 0 < n then .positive else .negative⟩

def entire (token : List Char) : TokenValue :=
  if token = ['0'] then .zero
  else
    match (number token).bind literalOf with
    | some l => .literal l
    | none => .illegal

def clauseOf : List ClauseItem → Option (List CNFLit)
  | .token t :: items =>
    match entire t with
    | .literal l => (clauseOf items).map (l :: ·)
    | .zero => some []
    | .illegal => none
  | .comment _ :: items => clauseOf items
  | .mark :: _ | [] => none

/-- The reader succeeds exactly on clauses, and appends their literals. -/
def FollowsGrammar (text : List Char) : Prop :=
  ∀ clause, ((CNFClause.read (ofText text) clause).2.failbit = false ↔ (clauseOf (items text)).isSome = true) ∧
    ∀ lits, clauseOf (items text) = some lits → (CNFClause.read (ofText text) clause).1 = clause ++ lits

/-- Where there is no clause, reading fails and leaves the target as it was. -/
def ReadsAtomically (text : List Char) (clause : CNFClause) : Prop :=
  clauseOf (items text) = none →
    (CNFClause.read (ofText text) clause).2.failbit = true ∧ (CNFClause.read (ofText text) clause).1 = clause

/-! ## The reader on items -/

/-- What the reader makes of a token, or of a comment that it looks at as if it were one. -/
def leading (token : List Char) : TokenValue :=
  match (ofText token).readInt.1 with
  | none => .illegal
  | some n =>
    if n = 0 then .zero
    else
      match decodeCNFLit n with
      | some l => .literal l
      | none => .illegal

def readItems (original : CNFClause) : List ClauseItem → (buffer : List Char) → CNFClause → CNFClause × Bool
  | .token t :: items, _, clause =>
    match leading t with
    | .literal l => readItems original items t (clause ++ [l])
    | .zero => (clause, false)
    | .illegal => ([], true)
  | .comment line :: items, _, clause => readItems original items line clause
  | .mark :: _, _, _ => (original, true)
  | [], buffer, clause =>
    match leading buffer with
    | .literal _ => (original, true)
    | .zero => (clause, true)
    | .illegal => ([], true)

/-! ## Items are shorter -/

variable {text rest : List Char} {item : ClauseItem}

theorem length_dropWhile_le (p : Char → Bool) (cs : List Char) : (cs.dropWhile p).length ≤ cs.length :=
  (List.dropWhile_sublist p).length_le

theorem length_firstItem (h : firstItem text = some (item, rest)) : rest.length < text.length := by
  have hblank := length_dropWhile_le isSpace text
  have hsplit := congrArg List.length
    (List.takeWhile_append_dropWhile (p := fun c => !isSpace c) (l := text.dropWhile isSpace))
  rw [List.length_append] at hsplit
  unfold firstItem at h
  dsimp only at h
  generalize (text.dropWhile isSpace).dropWhile (fun c => !isSpace c) = tail at h hsplit
  split at h
  · cases h
  · rename_i hne
    have hpos := List.length_pos_of_ne_nil hne
    split at h
    · obtain ⟨-, rfl⟩ := Prod.mk.inj (Option.some.inj h)
      omega
    · split at h
      · obtain ⟨-, rfl⟩ := Prod.mk.inj (Option.some.inj h)
        simp only [List.length_nil]
        omega
      · obtain ⟨-, rfl⟩ := Prod.mk.inj (Option.some.inj h)
        have hline := length_dropWhile_le (· != '\n') tail
        rw [List.length_tail]
        omega

theorem takeItems_congr {n m : Nat} (hn : text.length < n) (hm : text.length < m) :
    takeItems n text = takeItems m text := by
  induction n generalizing m text with
  | zero => omega
  | succ n ih =>
    obtain ⟨m, rfl⟩ := Nat.exists_eq_succ_of_ne_zero (Nat.ne_of_gt (Nat.zero_lt_of_lt hm))
    unfold takeItems
    cases h : firstItem text with
    | none => rfl
    | some r =>
      obtain ⟨item, rest⟩ := r
      have hlt := length_firstItem h
      dsimp only
      rw [ih (m := m) (by omega) (by omega)]

theorem items_of_none (h : firstItem text = none) : items text = [] := by
  rw [items, takeItems, h]

theorem items_of_some (h : firstItem text = some (item, rest)) : items text = item :: items rest := by
  have hlt := length_firstItem h
  rw [items, takeItems, h, items]
  dsimp only
  rw [takeItems_congr (show rest.length < text.length by omega) (Nat.lt_succ_self _)]

/-! ## Reading the items -/

/-- The stream has the text before it. At the end it may have noticed that. -/
def Unread (s : TextStream) (text : List Char) : Prop := s = ofText text ∨ s = ⟨[], true, false⟩ ∧ text = []

theorem Unread.ok {s : TextStream} (h : Unread s text) : s.ok = true := by
  cases h with
  | inl h => exact h ▸ rfl
  | inr h => exact h.1 ▸ rfl

theorem unread_after (rest : List Char) : Unread ⟨rest, rest.isEmpty, false⟩ rest := by
  cases rest with
  | nil => exact .inr ⟨rfl, rfl⟩
  | cons c rest => exact .inl rfl

theorem dropWhile_head {p : Char → Bool} {cs : List Char} {c : Char} (h : (cs.dropWhile p).head? = some c) :
    p c = false := by
  have hnot := List.head?_dropWhile_not p cs
  rw [h] at hnot
  exact hnot

structure Split (text token rest : List Char) : Prop where
  eq : ∃ blanks, (∀ x ∈ blanks, isSpace x = true) ∧ text = blanks ++ token ++ rest
  token : ∀ c ∈ token, isSpace c = false
  rest : ∀ c, rest.head? = some c → isSpace c = true

theorem split_text (text : List Char) : Split text ((text.dropWhile isSpace).takeWhile fun c => !isSpace c)
    ((text.dropWhile isSpace).dropWhile fun c => !isSpace c) := by
  refine ⟨⟨text.takeWhile isSpace, fun x hx => List.mem_takeWhile_imp hx, ?_⟩, fun c hc => ?_, fun c hc => ?_⟩
  · rw [List.append_assoc, List.takeWhile_append_dropWhile, List.takeWhile_append_dropWhile]
  · simpa using List.mem_takeWhile_imp hc
  · simpa using dropWhile_head hc

theorem Split.readToken {token rest : List Char} {s : TextStream} (h : Split text token rest) (hs : Unread s text)
    (hn : token ≠ []) (old : List Char) : s.readToken old = (token, ⟨rest, rest.isEmpty, false⟩) := by
  obtain ⟨blanks, hb, he⟩ := h.eq
  cases hs with
  | inl hs =>
    rw [hs, he]
    exact readToken_append blanks token rest hb h.token hn h.rest old
  | inr hs =>
    rw [hs.2] at he
    exact absurd (List.append_eq_nil_iff.mp (List.append_eq_nil_iff.mp he.symm).1).2 hn

theorem readToken_none {s : TextStream} (h : firstItem text = none) (hs : Unread s text) (old : List Char) :
    s.readToken old = (old, ⟨[], true, true⟩) := by
  cases hs with
  | inr hs =>
    rw [hs.1, TextStream.readToken]
    rfl
  | inl hs =>
    have hblank : ∀ x ∈ text, isSpace x = true := by
      have hnil : (text.dropWhile isSpace).takeWhile (fun c => !isSpace c) = [] := by
        unfold firstItem at h
        dsimp only at h
        split at h
        · assumption
        · split at h
          · cases h
          · split at h <;> cases h
      have hdrop : text.dropWhile isSpace = [] := by
        cases hd : text.dropWhile isSpace with
        | nil => rfl
        | cons c cs =>
          have hc : isSpace c = false := dropWhile_head (by rw [hd]; rfl)
          rw [hd, List.takeWhile_cons, hc] at hnil
          cases hnil
      exact List.dropWhile_eq_nil_iff.mp hdrop
    rw [hs, TextStream.readToken, sentry_blanks hblank]
    rfl

theorem firstItem_token {t : List Char} (h : firstItem text = some (.token t, rest)) :
    Split text t rest ∧ t ≠ [] ∧ t ≠ ['c'] := by
  have hsplit := split_text text
  unfold firstItem at h
  dsimp only at h
  split at h
  · cases h
  · rename_i hne
    split at h
    · rename_i hc
      cases h
      exact ⟨hsplit, hne, hc⟩
    · split at h <;> cases h

theorem firstItem_mark (h : firstItem text = some (.mark, rest)) : Split text ['c'] [] := by
  have hsplit := split_text text
  unfold firstItem at h
  dsimp only at h
  split at h
  · cases h
  · split at h
    · cases h
    · rename_i hc
      split at h
      · rename_i hnil
        rw [not_not.mp hc, hnil] at hsplit
        exact hsplit
      · cases h

/-- The line of a comment ends with a line break or the text. -/
theorem firstItem_comment {line : List Char} (h : firstItem text = some (.comment line, rest)) :
    ∃ tail, tail ≠ [] ∧ Split text ['c'] tail ∧ line = tail.takeWhile (· != '\n') ∧
      rest = (tail.dropWhile (· != '\n')).tail := by
  have hsplit := split_text text
  unfold firstItem at h
  dsimp only at h
  split at h
  · cases h
  · split at h
    · cases h
    · rename_i hc
      split at h
      · cases h
      · rename_i hne
        rw [not_not.mp hc] at hsplit
        cases h
        exact ⟨_, hne, hsplit, rfl, rfl⟩

theorem getline_after {tail : List Char} (hn : tail ≠ []) (old : List Char) :
    ∃ s, (⟨tail, tail.isEmpty, false⟩ : TextStream).getline old = (tail.takeWhile (· != '\n'), s) ∧
      Unread s (tail.dropWhile (· != '\n')).tail := by
  have hgood : (⟨tail, tail.isEmpty, false⟩ : TextStream).good = true := by
    cases tail with
    | nil => exact absurd rfl hn
    | cons c tail => rfl
  rw [getline, if_pos hgood, TextStream.takeWhile]
  cases hd : tail.dropWhile (· != '\n') with
  | cons c cs => exact ⟨_, rfl, .inl rfl⟩
  | nil =>
    have hline : (tail.takeWhile (· != '\n')).isEmpty = false := by
      have happ := List.takeWhile_append_dropWhile (p := (· != '\n')) (l := tail)
      rw [hd, List.append_nil] at happ
      rw [happ]
      exact List.isEmpty_eq_false_iff.mpr hn
    exact ⟨_, rfl, .inr ⟨by dsimp only; rw [hline]; rfl, rfl⟩⟩

section
variable {original clause : CNFClause} {s s' : TextStream} {buffer token : List Char} {fuel : Nat}

theorem readClauseLoop_turn (hok : s.ok = true) (htok : s.readToken buffer = (token, s')) (hc : token ≠ ['c']) :
    readClauseLoop original (fuel + 1) s buffer clause =
      match leading token with
      | .literal l => readClauseLoop original fuel s' token (clause ++ [l])
      | .zero => (clause, s')
      | .illegal => ([], s'.setFail) := by
  rw [readClauseLoop, if_pos hok, readClauseTurn, htok]
  unfold leading
  cases hint : (ofText token).readInt.1 with
  | none => simp [hint, hc]
  | some n =>
    by_cases hz : n = 0
    · simp [hint, hz]
    · cases hd : decodeCNFLit n with
      | none => simp [hint, hz, hd]
      | some l => simp [hint, hz, hd]

theorem readClauseLoop_comment (hok : s.ok = true)
    (htok : s.readToken buffer = (['c'], s')) (hf : s'.failbit = false) :
    readClauseLoop original (fuel + 1) s buffer clause =
      readClauseLoop original fuel (s'.getline ['c']).2 (s'.getline ['c']).1 clause := by
  have hint : (ofText ['c']).readInt.1 = none := by decide +kernel
  have hs : ({ s' with failbit := false } : TextStream) = s' := by
    cases s'
    cases hf
    rfl
  rw [readClauseLoop, if_pos hok, readClauseTurn, htok]
  simp only [hint, if_true, hs]

theorem readClauseLoop_failed (hf : s.failbit = true) :
    readClauseLoop original fuel s buffer clause = (original, s) := by
  cases fuel with
  | zero => rfl
  | succ fuel =>
    rw [readClauseLoop, if_neg]
    rw [TextStream.ok, hf]
    exact Bool.false_ne_true

end

/-- The reader goes through the items of the text. -/
theorem readClauseLoop_eq {original : CNFClause} :
    ∀ (n : Nat) {text : List Char} {s : TextStream} {buffer : List Char}
    {clause : CNFClause} {fuel : Nat}, text.length < n → Unread s text → text.length + 2 ≤ fuel → buffer ≠ ['c'] →
    ((readClauseLoop original fuel s buffer clause).1, (readClauseLoop original fuel s buffer clause).2.failbit) =
      readItems original (items text) buffer clause := by
  intro n
  induction n with
  | zero => exact fun h => absurd h (Nat.not_lt_zero _)
  | succ n ih =>
    intro text s buffer clause fuel hlen hs hfuel hbuffer
    obtain ⟨fuel, rfl⟩ := Nat.exists_eq_add_of_le' (Nat.le_of_add_left_le hfuel)
    cases hfirst : firstItem text with
    | none =>
      -- what has been read last is looked at again
      rw [readClauseLoop_turn hs.ok (readToken_none hfirst hs buffer) hbuffer, items_of_none hfirst, readItems]
      cases leading buffer with
      | literal l =>
        dsimp only
        rw [readClauseLoop_failed rfl]
      | zero => rfl
      | illegal => rfl
    | some r =>
      obtain ⟨item, rest⟩ := r
      have hlt := length_firstItem hfirst
      rw [items_of_some hfirst]
      cases item with
      | token t =>
        obtain ⟨hsplit, hne, hc⟩ := firstItem_token hfirst
        rw [readClauseLoop_turn hs.ok (hsplit.readToken hs hne buffer) hc, readItems]
        cases leading t with
        | literal l => exact ih (by omega) (unread_after rest) (by omega) hc
        | zero => rfl
        | illegal => rfl
      | mark =>
        have htok := (firstItem_mark hfirst).readToken hs (List.cons_ne_nil _ _) buffer
        have hline : (⟨[], true, false⟩ : TextStream).getline ['c'] = (['c'], ⟨[], true, true⟩) := by
          rw [getline]
          rfl
        rw [readClauseLoop_comment hs.ok htok rfl, readItems]
        dsimp only [List.isEmpty_nil]
        rw [hline, readClauseLoop_failed rfl]
      | comment line =>
        obtain ⟨tail, hn, hsplit, rfl, rfl⟩ := firstItem_comment hfirst
        have htok := hsplit.readToken hs (List.cons_ne_nil _ _) buffer
        obtain ⟨s', hline, hs'⟩ := getline_after hn ['c']
        rw [readClauseLoop_comment hs.ok htok rfl, hline, readItems]
        refine ih (by omega) hs' (by omega) fun he => ?_
        -- a comment begins with a blank or is empty
        cases tail with
        | nil => exact hn rfl
        | cons c tail =>
          have hblank := hsplit.rest c rfl
          rw [List.takeWhile_cons] at he
          split at he
          · obtain rfl := (List.cons.inj he).1
            cases hblank
          · cases he

theorem read_eq (text : List Char) (clause : CNFClause) :
    ((CNFClause.read (ofText text) clause).1, (CNFClause.read (ofText text) clause).2.failbit) =
      readItems clause (items text) [] clause :=
  readClauseLoop_eq _ (Nat.lt_succ_self _) (.inl rfl) (Nat.le_refl _) (List.cons_ne_nil _ _).symm

/-! ## Tokens that are numbers -/

theorem takeDigits_digits {digits : List Char} (hn : digits ≠ []) (hd : ∀ c ∈ digits, c.isDigit = true) :
    (⟨digits, digits.isEmpty, false⟩ : TextStream).takeDigits =
      (some (Nat.ofDigitChars 10 digits 0), ⟨[], true, false⟩) := by
  have htake := takeWhile_append (b := []) hd fun c hc => by cases hc
  rw [List.append_nil] at htake
  have hempty : digits.isEmpty = false := List.isEmpty_eq_false_iff.mpr hn
  rw [hempty, takeDigits, htake]
  split
  · rename_i h
    exact absurd (Prod.mk.inj h).1 hn
  · rename_i h
    obtain ⟨rfl, rfl⟩ := Prod.mk.inj h
    rfl

theorem natural_eq {digits : List Char} {n : Nat} (h : natural digits = some n) :
    digits ≠ [] ∧ (∀ c ∈ digits, c.isDigit = true) ∧ Nat.ofDigitChars 10 digits 0 = n := by
  unfold natural at h
  split at h
  · rename_i hd
    exact ⟨hd.1, List.all_eq_true.mp hd.2, Option.some.inj h⟩
  · cases h

theorem sentry_token {c : Char} (hc : isSpace c = false) : (ofText (c :: rest)).sentry = ofText (c :: rest) :=
  @sentry_append _ _ _ (List.forall_mem_nil _) hc

theorem readNumber_number {token : List Char} {n : Int} (h : number token = some n) :
    ∃ negative m, (ofText token).readNumber = (some (negative, m), ⟨[], true, false⟩) ∧
      n = if negative then -(m : Int) else m := by
  unfold number at h
  split at h
  · rename_i digits
    obtain ⟨m, hm, rfl⟩ := Option.map_eq_some_iff.mp h
    obtain ⟨hn, hd, rfl⟩ := natural_eq hm
    have hsign : (ofText ('-' :: digits)).takeSign = (true, ⟨digits, digits.isEmpty, false⟩) := rfl
    refine ⟨true, _, ?_, rfl⟩
    rw [readNumber_of_sentry (sentry_token rfl) rfl hsign, takeDigits_digits hn hd]
    rfl
  · rename_i digits
    obtain ⟨m, hm, rfl⟩ := Option.map_eq_some_iff.mp h
    obtain ⟨hn, hd, rfl⟩ := natural_eq hm
    have hsign : (ofText ('+' :: digits)).takeSign = (false, ⟨digits, digits.isEmpty, false⟩) := rfl
    refine ⟨false, _, ?_, rfl⟩
    rw [readNumber_of_sentry (sentry_token rfl) rfl hsign, takeDigits_digits hn hd]
    rfl
  · obtain ⟨m, hm, rfl⟩ := Option.map_eq_some_iff.mp h
    obtain ⟨hn, hd, rfl⟩ := natural_eq hm
    obtain ⟨c, digits, rfl⟩ := List.exists_cons_of_ne_nil hn
    have hc := hd c List.mem_cons_self
    refine ⟨false, _, ?_, rfl⟩
    rw [readNumber_of_sentry (sentry_token (isSpace_of_isDigit hc)) rfl (takeSign_of_isDigit hc)]
    have htake := takeDigits_digits (List.cons_ne_nil c digits) hd
    dsimp only [List.isEmpty_cons] at htake
    rw [show ofText (c :: digits) = ⟨c :: digits, false, false⟩ from rfl, htake]
    rfl

theorem readInt_number {token : List Char} {n : Int} (h : number token = some n) :
    (ofText token).readInt.1 = some n ∨ intMax < n.natAbs ∧ (ofText token).readInt.1 = none := by
  obtain ⟨negative, m, hr, rfl⟩ := readNumber_number h
  rw [readInt, hr]
  dsimp only
  cases negative with
  | true =>
    by_cases hm : m ≤ intMax + 1
    · simp [hm]
    · right
      simp only [if_true, hm, if_false, Int.natAbs_neg, Int.natAbs_natCast, and_true]
      omega
  | false =>
    by_cases hm : m ≤ intMax
    · simp [hm]
    · right
      simp only [Bool.false_eq_true, hm, if_false, Int.natAbs_natCast, and_true]
      omega

theorem decodeCNFLit_eq {n : Int} (hn : n ≠ 0) : decodeCNFLit n = literalOf n := by
  unfold decodeCNFLit literalOf
  by_cases hmin : n = -(intMax + 1 : Nat)
  · have hrange : CNFVar.maxRawValue < n.natAbs - 1 := by
      rw [hmin, Int.natAbs_neg, Int.natAbs_natCast]
      decide
    rw [if_pos hmin, if_pos (.inr hrange)]
  · rw [if_neg hmin]
    simp [hn]

theorem leading_zero : leading ['0'] = .zero := by decide +kernel

section
variable {t : List Char} {l : CNFLit}

theorem leading_number {n : Int} (h : number t = some n) : leading t = .literal l ↔ literalOf n = some l := by
  unfold leading
  cases readInt_number h with
  | inl hr =>
    rw [hr]
    by_cases hn : n = 0
    · simp [hn, literalOf]
    · cases hl : literalOf n with
      | none => simp [hn, decodeCNFLit_eq hn, hl]
      | some l => simp [hn, decodeCNFLit_eq hn, hl]
  | inr hr =>
    -- a number that does not fit is no literal either
    have hlarge : CNFVar.maxRawValue < n.natAbs - 1 := by
      have hmax : CNFVar.maxRawValue + 1 < intMax := by decide
      omega
    have hnone : literalOf n = none := if_pos (.inr hlarge)
    rw [hr.2, hnone]
    simp

theorem entire_eq_literal : entire t = .literal l ↔ t ≠ ['0'] ∧ (number t).bind literalOf = some l := by
  unfold entire
  by_cases hz : t = ['0']
  · simp [hz]
  · cases hb : (number t).bind literalOf <;> simp [hz]

theorem leading_of_entire (h : entire t = .literal l) : leading t = .literal l := by
  obtain ⟨n, hn, hl⟩ := Option.bind_eq_some_iff.mp (entire_eq_literal.mp h).2
  exact (leading_number hn).mpr hl

theorem entire_of_leading (h : leading t = .literal l) (hnum : (number t).isSome = true) :
    entire t = .literal l := by
  obtain ⟨n, hn⟩ := Option.isSome_iff_exists.mp hnum
  refine entire_eq_literal.mpr ⟨fun he => ?_, ?_⟩
  · rw [he, leading_zero] at h
    cases h
  · rw [hn, Option.bind_some, (leading_number hn).mp h]

theorem isSome_number_of_entire (h : entire t = .literal l) : (number t).isSome = true := by
  obtain ⟨n, hn, -⟩ := Option.bind_eq_some_iff.mp (entire_eq_literal.mp h).2
  rw [hn]
  rfl

theorem eq_of_entire_zero (h : entire t = .zero) : t = ['0'] := by
  unfold entire at h
  split at h
  · assumption
  · split at h <;> cases h

end

/-! ## Success and failure -/

def ClauseItem.Passed : ClauseItem → Prop
  | .token t => ∃ l, leading t = .literal l
  | .comment _ => True
  | .mark => False

def foundLits (items : List ClauseItem) : List CNFLit :=
  items.filterMap fun
    | .token t =>
      match leading t with
      | .literal l => some l
      | _ => none
    | _ => none

def lastRead : List ClauseItem → List Char → List Char
  | .token t :: items, _ => lastRead items t
  | .comment line :: items, _ => lastRead items line
  | .mark :: _, buffer | [], buffer => buffer

section
variable {original : CNFClause} {before : List ClauseItem}

theorem readItems_append (h : ∀ x ∈ before, x.Passed) (items : List ClauseItem) (buffer : List Char)
    (clause : CNFClause) : readItems original (before ++ items) buffer clause =
      readItems original items (lastRead before buffer) (clause ++ foundLits before) := by
  induction before generalizing buffer clause with
  | nil => simp [lastRead, foundLits]
  | cons x before ih =>
    obtain ⟨hx, hbefore⟩ := List.forall_mem_cons.mp h
    cases x with
    | token t =>
      obtain ⟨l, hl⟩ := hx
      rw [List.cons_append, readItems, hl]
      dsimp only
      rw [ih hbefore]
      simp [lastRead, foundLits, hl]
    | comment line =>
      rw [List.cons_append, readItems, ih hbefore]
      simp [lastRead, foundLits]
    | mark => exact hx.elim

/-- Where the reader stops: at a `c` with which the text ends, at a token, or at the end. -/
theorem exists_stop (items : List ClauseItem) : ∃ before, (∀ x ∈ before, x.Passed) ∧
    (items = before ∨ (∃ after, items = before ++ .mark :: after) ∨
      ∃ t after, items = before ++ .token t :: after ∧ ∀ l, leading t ≠ .literal l) := by
  induction items with
  | nil => exact ⟨[], List.forall_mem_nil _, .inl rfl⟩
  | cons x items ih =>
    have hcons : x.Passed → ∃ before, (∀ x ∈ before, x.Passed) ∧
        (x :: items = before ∨ (∃ after, x :: items = before ++ .mark :: after) ∨
          ∃ t after, x :: items = before ++ .token t :: after ∧ ∀ l, leading t ≠ .literal l) := by
      intro hx
      obtain ⟨before, hbefore, hstop⟩ := ih
      refine ⟨x :: before, List.forall_mem_cons.mpr ⟨hx, hbefore⟩, ?_⟩
      rcases hstop with rfl | ⟨after, rfl⟩ | ⟨t, after, rfl, ht⟩
      · exact .inl rfl
      · exact .inr (.inl ⟨after, rfl⟩)
      · exact .inr (.inr ⟨t, after, rfl, ht⟩)
    cases x with
    | token t =>
      by_cases ht : ∃ l, leading t = .literal l
      · exact hcons ht
      · exact ⟨[], List.forall_mem_nil _, .inr (.inr ⟨t, items, rfl, fun l hl => ht ⟨l, hl⟩⟩)⟩
    | comment line => exact hcons trivial
    | mark => exact ⟨[], List.forall_mem_nil _, .inr (.inl ⟨items, rfl⟩)⟩

theorem clauseOf_append (h : ∀ x ∈ before, x.Passed) {items : List ClauseItem} {lits : List CNFLit}
    (hc : clauseOf (before ++ items) = some lits) :
    (∀ t, .token t ∈ before → (number t).isSome = true) ∧ ∃ rest, clauseOf items = some rest := by
  induction before generalizing lits with
  | nil => exact ⟨fun t ht => absurd ht List.not_mem_nil, lits, hc⟩
  | cons x before ih =>
    obtain ⟨hx, hbefore⟩ := List.forall_mem_cons.mp h
    cases x with
    | token t =>
      obtain ⟨l, hl⟩ := hx
      rw [List.cons_append, clauseOf] at hc
      cases he : entire t with
      | literal l =>
        rw [he] at hc
        obtain ⟨ls, hls, -⟩ := Option.map_eq_some_iff.mp hc
        obtain ⟨hn, hrest⟩ := ih hbefore hls
        refine ⟨fun u hu => ?_, hrest⟩
        cases List.mem_cons.mp hu with
        | inl hu =>
          cases hu
          exact isSome_number_of_entire he
        | inr hu => exact hn u hu
      | zero =>
        rw [eq_of_entire_zero he, leading_zero] at hl
        cases hl
      | illegal =>
        rw [he] at hc
        cases hc
    | comment line =>
      obtain ⟨hn, hrest⟩ := ih hbefore hc
      refine ⟨fun u hu => ?_, hrest⟩
      cases List.mem_cons.mp hu with
      | inl hu => cases hu
      | inr hu => exact hn u hu
    | mark => exact hx.elim

theorem clauseOf_append_of_number (h : ∀ x ∈ before, x.Passed)
    (hn : ∀ t, .token t ∈ before → (number t).isSome = true)
    (items : List ClauseItem) : clauseOf (before ++ items) = (clauseOf items).map (foundLits before ++ ·) := by
  induction before with
  | nil =>
    show clauseOf items = _
    cases clauseOf items with
    | none => rfl
    | some lits => rfl
  | cons x before ih =>
    obtain ⟨hx, hbefore⟩ := List.forall_mem_cons.mp h
    have hih := ih hbefore fun t ht => hn t (List.mem_cons_of_mem _ ht)
    cases x with
    | token t =>
      obtain ⟨l, hl⟩ := hx
      rw [List.cons_append, clauseOf, entire_of_leading hl (hn t List.mem_cons_self)]
      dsimp only
      rw [hih, Option.map_map]
      congr 1
      funext rest
      simp [foundLits, hl]
    | comment line =>
      rw [List.cons_append, clauseOf, hih]
      rfl
    | mark => exact hx.elim

theorem clauseOf_eq_none (h : ∀ x ∈ before, x.Passed) {items : List ClauseItem} (hn : clauseOf items = none) :
    clauseOf (before ++ items) = none := by
  cases hc : clauseOf (before ++ items) with
  | none => rfl
  | some lits =>
    obtain ⟨-, rest, hrest⟩ := clauseOf_append h hc
    rw [hn] at hrest
    cases hrest

end

section
variable {text : List Char} {clause : CNFClause} {before after : List ClauseItem} {t : List Char}

theorem clauseOf_token_of_zero (h : leading t = .zero) :
    clauseOf (.token t :: after) = if t = ['0'] then some [] else none := by
  rw [clauseOf]
  split
  · rename_i he
    rw [leading_of_entire he] at h
    cases h
  · rename_i he
    rw [if_pos (eq_of_entire_zero he)]
  · rename_i he
    rw [if_neg fun ht => ?_]
    rw [ht] at he
    cases he

theorem clauseOf_token_of_illegal (h : leading t = .illegal) (after : List ClauseItem) :
    clauseOf (.token t :: after) = none := by
  rw [clauseOf]
  split
  · rename_i he
    rw [leading_of_entire he] at h
    cases h
  · rename_i he
    rw [eq_of_entire_zero he, leading_zero] at h
    cases h
  · rfl

theorem read_zero (h : ∀ x ∈ before, x.Passed) (hi : items text = before ++ .token t :: after)
    (ht : leading t = .zero) (clause : CNFClause) :
    (CNFClause.read (ofText text) clause).1 = clause ++ foundLits before ∧
      (CNFClause.read (ofText text) clause).2.failbit = false := by
  have hread := read_eq text clause
  rw [hi, readItems_append h, readItems, ht] at hread
  exact Prod.mk.inj hread

theorem read_illegal (h : ∀ x ∈ before, x.Passed) (hi : items text = before ++ .token t :: after)
    (ht : leading t = .illegal) (clause : CNFClause) :
    (CNFClause.read (ofText text) clause).1 = [] ∧ (CNFClause.read (ofText text) clause).2.failbit = true := by
  have hread := read_eq text clause
  rw [hi, readItems_append h, readItems, ht] at hread
  exact Prod.mk.inj hread

theorem read_mark (h : ∀ x ∈ before, x.Passed) (hi : items text = before ++ .mark :: after) (clause : CNFClause) :
    (CNFClause.read (ofText text) clause).1 = clause ∧ (CNFClause.read (ofText text) clause).2.failbit = true := by
  have hread := read_eq text clause
  rw [hi, readItems_append h, readItems] at hread
  exact Prod.mk.inj hread

def leftAtEnd (clause : CNFClause) (items : List ClauseItem) : CNFClause :=
  match leading (lastRead items []) with
  | .literal _ => clause
  | .zero => clause ++ foundLits items
  | .illegal => []

theorem read_end (h : ∀ x ∈ items text, x.Passed) (clause : CNFClause) :
    (CNFClause.read (ofText text) clause).1 = leftAtEnd clause (items text) ∧
      (CNFClause.read (ofText text) clause).2.failbit = true := by
  have hread := read_eq text clause
  have happ := @readItems_append clause _ h [] [] clause
  rw [List.append_nil] at happ
  rw [happ, readItems] at hread
  unfold leftAtEnd
  cases hl : leading (lastRead (items text) []) with
  | literal l =>
    rw [hl] at hread
    exact Prod.mk.inj hread
  | zero =>
    rw [hl] at hread
    exact Prod.mk.inj hread
  | illegal =>
    rw [hl] at hread
    exact Prod.mk.inj hread

end

/-! ## The grammar is followed unless a token is a number only in front -/

theorem followsGrammar_of_failed {text : List Char} (hc : clauseOf (items text) = none)
    (hf : ∀ clause, (CNFClause.read (ofText text) clause).2.failbit = true) : FollowsGrammar text := by
  intro clause
  rw [hf clause, hc]
  exact ⟨⟨fun h => (by cases h), fun h => (by cases h)⟩, fun lits h => (by cases h)⟩

/-- A clause that is read ends with the token `0`, and the tokens before it are numbers. -/
theorem followsGrammar_iff (text : List Char) : FollowsGrammar text ↔
    ∀ before t after, items text = before ++ .token t :: after → (∀ x ∈ before, x.Passed) → leading t = .zero →
      t = ['0'] ∧ ∀ u, .token u ∈ before → (number u).isSome = true := by
  constructor
  · intro h before t after hi hbefore ht
    have hread := read_zero hbefore hi ht []
    obtain ⟨lits, hlits⟩ := Option.isSome_iff_exists.mp ((h []).1.mp hread.2)
    rw [hi] at hlits
    obtain ⟨hn, rest, hrest⟩ := clauseOf_append hbefore hlits
    refine ⟨?_, hn⟩
    rw [clauseOf_token_of_zero ht] at hrest
    split at hrest
    · assumption
    · cases hrest
  · intro h
    obtain ⟨before, hbefore, hstop⟩ := exists_stop (items text)
    cases hstop with
    | inl hend =>
      have hnone := clauseOf_eq_none hbefore (show clauseOf [] = none from rfl)
      rw [List.append_nil, ← hend] at hnone
      rw [← hend] at hbefore
      exact followsGrammar_of_failed hnone fun clause => (read_end hbefore clause).2
    | inr hstop =>
      cases hstop with
      | inl hmark =>
        obtain ⟨after, hi⟩ := hmark
        have hnone := clauseOf_eq_none hbefore (show clauseOf (.mark :: after) = none from rfl)
        rw [← hi] at hnone
        exact followsGrammar_of_failed hnone fun clause => (read_mark hbefore hi clause).2
      | inr htoken =>
        obtain ⟨t, after, hi, hl⟩ := htoken
        cases ht : leading t with
        | literal l => exact absurd ht (hl l)
        | illegal =>
          have hnone := clauseOf_eq_none hbefore (clauseOf_token_of_illegal ht after)
          rw [← hi] at hnone
          exact followsGrammar_of_failed hnone fun clause => (read_illegal hbefore hi ht clause).2
        | zero =>
          obtain ⟨hz, hn⟩ := h before t after hi hbefore ht
          have hclause := clauseOf_append_of_number hbefore hn (.token t :: after)
          rw [← hi, clauseOf_token_of_zero ht, if_pos hz] at hclause
          intro clause
          obtain ⟨hread, hfail⟩ := read_zero hbefore hi ht clause
          rw [hclause]
          refine ⟨⟨fun _ => rfl, fun _ => hfail⟩, fun lits hlits => ?_⟩
          obtain rfl := Option.some.inj hlits
          rw [hread]
          dsimp only
          rw [List.append_nil]

theorem not_followsGrammar : ¬ FollowsGrammar "12abc 0".toList := by
  intro h
  have hread : (CNFClause.read (ofText "12abc 0".toList) []).2.failbit = false := by decide +kernel
  have hnone : (clauseOf (items "12abc 0".toList)).isSome = false := by decide +kernel
  rw [(h []).1.mp hread] at hnone
  cases hnone

/-! ## Failures that restore the clause -/

/-- The text ends after a token, or after a comment that begins with a literal, or there is nothing to restore. -/
def EndsHarmlessly (clause : CNFClause) (items : List ClauseItem) : Prop :=
  match leading (lastRead items []) with
  | .literal _ => True
  | .zero => foundLits items = []
  | .illegal => clause = []

theorem leftAtEnd_eq_iff (clause : CNFClause) (items : List ClauseItem) :
    leftAtEnd clause items = clause ↔ EndsHarmlessly clause items := by
  unfold leftAtEnd EndsHarmlessly
  cases leading (lastRead items []) with
  | literal l => simp
  | zero => simp
  | illegal => simp [eq_comm]

/-- The clause is restored at the end of the text, unless a comment comes last, and at an illegal token
only when it was empty. -/
theorem readsAtomically_iff (text : List Char) (clause : CNFClause) : ReadsAtomically text clause ↔
    (clauseOf (items text)).isSome = true ∨ ∃ before, (∀ x ∈ before, x.Passed) ∧
      ((∃ after, items text = before ++ .mark :: after) ∨
        items text = before ∧ EndsHarmlessly clause before ∨
        clause = [] ∧ ∃ t after, items text = before ++ .token t :: after ∧ leading t = .illegal) := by
  constructor
  · intro h
    cases hc : clauseOf (items text) with
    | some lits => exact .inl rfl
    | none =>
      obtain ⟨hfail, hkept⟩ := h hc
      obtain ⟨before, hbefore, hstop⟩ := exists_stop (items text)
      refine .inr ⟨before, hbefore, ?_⟩
      cases hstop with
      | inl hend =>
        have hpassed := hbefore
        rw [← hend] at hpassed
        rw [(read_end hpassed clause).1, hend] at hkept
        exact .inr (.inl ⟨hend, (leftAtEnd_eq_iff clause before).mp hkept⟩)
      | inr hstop =>
        cases hstop with
        | inl hmark => exact .inl hmark
        | inr htoken =>
          obtain ⟨t, after, hi, hl⟩ := htoken
          cases ht : leading t with
          | literal l => exact absurd ht (hl l)
          | zero =>
            rw [(read_zero hbefore hi ht clause).2] at hfail
            cases hfail
          | illegal =>
            rw [(read_illegal hbefore hi ht clause).1] at hkept
            exact .inr (.inr ⟨hkept.symm, t, after, hi, ht⟩)
  · intro h hc
    cases h with
    | inl hsome =>
      rw [hc] at hsome
      cases hsome
    | inr hstop =>
      obtain ⟨before, hbefore, hstop⟩ := hstop
      cases hstop with
      | inl hmark =>
        obtain ⟨after, hi⟩ := hmark
        exact (read_mark hbefore hi clause).symm
      | inr hstop =>
        cases hstop with
        | inl hend =>
          obtain ⟨rfl, hkept⟩ := hend
          obtain ⟨hread, hfail⟩ := read_end hbefore clause
          exact ⟨hfail, hread.trans ((leftAtEnd_eq_iff clause _).mpr hkept)⟩
        | inr htoken =>
          obtain ⟨rfl, t, after, hi, ht⟩ := htoken
          exact (read_illegal hbefore hi ht []).symm

theorem not_readsAtomically : ¬ ReadsAtomically "1 foo 0".toList [⟨0, .positive⟩] := by
  intro h
  have hnone : clauseOf (items "1 foo 0".toList) = none := by decide +kernel
  have hread : (CNFClause.read (ofText "1 foo 0".toList) [⟨0, .positive⟩]).1 = [] := by decide +kernel
  rw [(h hnone).2] at hread
  cases hread

end JamSAT
