import JamSAT.FrontendParser

/-!
# Reading a problem file

However a text is cut into chunks, its literals are the same, as a chunk ends
behind whitespace. They are the numerals of the text, and the solver receives
those that stand before a `0`.
-/

namespace JamSAT

namespace Parser

open TextStream (isSpace intMax isSpace_of_isDigit)

/-! ## Texts that end with whitespace -/

def Closed (text : List Char) : Prop := ∃ init c, text = init ++ [c] ∧ isSpace c = true

section
variable {a b : List Char} {p : Char → Bool}

theorem Closed.ne_nil (h : Closed a) : a ≠ [] := by
  obtain ⟨init, c, rfl, -⟩ := h
  exact List.append_ne_nil_of_right_ne_nil _ (List.cons_ne_nil _ _)

theorem closed_iff : Closed a ↔ a.getLast?.any isSpace = true := by
  constructor
  · intro h
    obtain ⟨init, c, rfl, hc⟩ := h
    rw [List.getLast?_concat]
    exact hc
  · intro h
    cases a using List.reverseRecOn with
    | nil => cases h
    | append_singleton init c =>
      rw [List.getLast?_concat] at h
      exact ⟨init, c, rfl, h⟩

theorem Closed.append (b : List Char) (h : Closed a) : Closed (b ++ a) := by
  obtain ⟨init, c, rfl, hc⟩ := h
  exact ⟨b ++ init, c, (List.append_assoc _ _ _).symm, hc⟩

theorem Closed.suffix (h : Closed a) (hs : b <:+ a) (hb : b ≠ []) : Closed b := by
  obtain ⟨pre, rfl⟩ := hs
  rw [closed_iff, List.getLast?_append_of_ne_nil _ hb] at h
  exact closed_iff.mpr h

theorem Closed.exists_not (h : Closed a) (hp : ∀ c, isSpace c = true → p c = false) : ∃ c ∈ a, p c = false := by
  obtain ⟨init, c, rfl, hc⟩ := h
  exact ⟨c, List.mem_append_right _ (List.mem_singleton_self c), hp c hc⟩

theorem dropWhile_append_of_exists (h : ∃ c ∈ a, p c = false) (b : List Char) :
    (a ++ b).dropWhile p = a.dropWhile p ++ b ∧ (a ++ b).takeWhile p = a.takeWhile p ∧ a.dropWhile p ≠ [] := by
  induction a with
  | nil =>
    obtain ⟨c, hc, -⟩ := h
    cases hc
  | cons x a ih =>
    rw [List.cons_append]
    cases hx : p x with
    | false => simp [hx]
    | true =>
      obtain ⟨c, hc, hp⟩ := h
      cases List.mem_cons.mp hc with
      | inl he =>
        rw [he, hx] at hp
        cases hp
      | inr hc => simpa [hx] using ih ⟨c, hc, hp⟩

theorem Closed.dropWhile (h : Closed a) (hex : ∃ c ∈ a, p c = false) : Closed (a.dropWhile p) :=
  h.suffix (List.dropWhile_suffix p) (dropWhile_append_of_exists hex []).2.2

theorem isDigit_of_isSpace {c : Char} (h : isSpace c = true) : c.isDigit = false := by
  cases hd : c.isDigit with
  | false => rfl
  | true =>
    rw [isSpace_of_isDigit hd] at h
    cases h

theorem takeSign_suffix (text : List Char) : (takeSign text).2 <:+ text := by
  unfold takeSign
  split
  · exact List.suffix_cons _ _
  · exact List.suffix_cons _ _
  · exact List.suffix_rfl

theorem takeSign_append (h : Closed a) (b : List Char) :
    takeSign (a ++ b) = ((takeSign a).1, (takeSign a).2 ++ b) ∧ Closed (takeSign a).2 := by
  obtain ⟨x, a, rfl⟩ := List.exists_cons_of_ne_nil h.ne_nil
  have hne : isSpace x = false → a ≠ [] := by
    intro hx ha
    rw [closed_iff, ha] at h
    rw [show isSpace x = true from h] at hx
    cases hx
  by_cases hm : x = '-'
  · subst hm
    exact ⟨rfl, h.suffix (List.suffix_cons _ _) (hne (by decide))⟩
  · by_cases hp : x = '+'
    · subst hp
      exact ⟨rfl, h.suffix (List.suffix_cons _ _) (hne (by decide))⟩
    · have hs : ∀ rest, takeSign (x :: rest) = (false, x :: rest) := by
        intro rest
        unfold takeSign
        split
        · rename_i he
          exact absurd (List.cons.inj he).1 hm
        · rename_i he
          exact absurd (List.cons.inj he).1 hp
        · rfl
      rw [List.cons_append, hs, hs]
      exact ⟨rfl, h⟩

/-! ## One literal -/

theorem strtol_of_blank (h : ∀ c ∈ a, isSpace c = true) (b : List Char) : strtol (a ++ b) = strtol b := by
  unfold strtol
  rw [List.dropWhile_append_of_pos h]

theorem strtol_append (h : Closed a) (hex : ∃ c ∈ a, isSpace c = false) (b : List Char) :
    strtol (a ++ b) = (strtol a).map (fun r => (r.1, r.2 ++ b)) ∧ ∀ n rest, strtol a = some (n, rest) →
      Closed rest := by
  obtain ⟨hd, -, -⟩ := dropWhile_append_of_exists hex b
  obtain ⟨hs, hc⟩ := takeSign_append (h.dropWhile hex) b
  have hdigit := hc.exists_not (p := Char.isDigit) fun c => isDigit_of_isSpace
  obtain ⟨hdd, hdt, -⟩ := dropWhile_append_of_exists hdigit b
  unfold strtol
  rw [hd, hs]
  dsimp only
  rw [hdd, hdt]
  split
  · exact ⟨rfl, fun n rest he => nomatch he⟩
  · refine ⟨rfl, fun n rest he => ?_⟩
    rw [← (Prod.mk.inj (Option.some.inj he)).2]
    exact hc.dropWhile hdigit

theorem strtol_length {n : Int} {rest : List Char} (h : strtol a = some (n, rest)) : rest.length < a.length := by
  unfold strtol at h
  dsimp only at h
  split at h
  · cases h
  · rename_i hne
    obtain ⟨-, rfl⟩ := Prod.mk.inj (Option.some.inj h)
    have hsign := (takeSign_suffix (a.dropWhile isSpace)).length_le
    have hblank := (List.dropWhile_suffix isSpace (l := a)).length_le
    have hparts := congrArg List.length
      (List.takeWhile_append_dropWhile (p := Char.isDigit) (l := (takeSign (a.dropWhile isSpace)).2))
    rw [List.length_append] at hparts
    have hpos := List.length_pos_of_ne_nil hne
    omega

theorem scan_length {n : Int} {rest : List Char} (h : scan a = .literal n rest) : rest.length < a.length := by
  unfold scan at h
  split at h
  · rename_i m endCursor hs
    split at h
    · cases h
    · obtain ⟨-, rfl⟩ := Scan.literal.inj h
      exact strtol_length hs
  · split at h <;> cases h

theorem scan_of_blank (h : ∀ c ∈ a, isSpace c = true) (b : List Char) : scan (a ++ b) = scan b := by
  have hfind : (a ++ b).find? (fun c => !isSpace c) = b.find? fun c => !isSpace c := by
    rw [List.find?_append, List.find?_eq_none.mpr fun c hc => by rw [h c hc]; decide]
    rfl
  unfold scan
  rw [strtol_of_blank h, hfind]

theorem scan_blank (h : ∀ c ∈ a, isSpace c = true) : scan a = .blank := by
  have := scan_of_blank h []
  rw [List.append_nil] at this
  rw [this]
  rfl

theorem scan_append (h : Closed a) (hex : ∃ c ∈ a, isSpace c = false) (b : List Char) :
    (∃ n rest, scan a = .literal n rest ∧ scan (a ++ b) = .literal n (rest ++ b) ∧ Closed rest) ∨
    ∃ message, scan a = .error message ∧ scan (a ++ b) = .error message := by
  obtain ⟨hs, hc⟩ := strtol_append h hex b
  unfold scan
  rw [hs]
  cases hr : strtol a with
  | some r =>
    obtain ⟨n, rest⟩ := r
    dsimp only [Option.map_some]
    split
    · exact .inr ⟨_, rfl, rfl⟩
    · exact .inl ⟨n, rest, rfl, rfl, hc n rest hr⟩
  | none =>
    obtain ⟨c, hc, hsp⟩ := hex
    have hsome : (a.find? fun c => !isSpace c).isSome = true :=
      List.find?_isSome.mpr ⟨c, hc, by rw [hsp]; rfl⟩
    obtain ⟨c, hfind⟩ := Option.isSome_iff_exists.mp hsome
    dsimp only [Option.map_none]
    rw [List.find?_append, hfind]
    exact .inr ⟨_, rfl, rfl⟩

/-! ## The literals of a text -/

def literalsLoop : (fuel : Nat) → List Char → List Int × Option String
  | 0, _ => ([], none)
  | fuel + 1, text =>
    match scan text with
    | .blank => ([], none)
    | .error message => ([], some message)
    | .literal literal rest => (literal :: (literalsLoop fuel rest).1, (literalsLoop fuel rest).2)

def literals (text : List Char) : List Int × Option String := literalsLoop (text.length + 1) text

theorem literalsLoop_eq {fuel : Nat} (hf : a.length < fuel) : literalsLoop fuel a = literals a := by
  suffices h : ∀ fuel fuel' (a : List Char), a.length < fuel → a.length < fuel' →
      literalsLoop fuel a = literalsLoop fuel' a from h _ _ a hf (Nat.lt_succ_self _)
  intro fuel
  induction fuel with
  | zero => exact fun _ a hf => absurd hf (Nat.not_lt_zero _)
  | succ fuel ih =>
    intro fuel' a hf hf'
    obtain ⟨fuel', rfl⟩ := Nat.exists_eq_succ_of_ne_zero (Nat.ne_zero_of_lt hf')
    unfold literalsLoop
    cases hs : scan a with
    | blank => rfl
    | error message => rfl
    | literal n rest =>
      have hlen := scan_length hs
      dsimp only
      rw [ih fuel' rest (by omega) (by omega)]

theorem literals_eq (a : List Char) : literals a =
    match scan a with
    | .blank => ([], none)
    | .error message => ([], some message)
    | .literal literal rest => (literal :: (literals rest).1, (literals rest).2) := by
  rw [literals, literalsLoop]
  cases hs : scan a with
  | blank => rfl
  | error message => rfl
  | literal n rest =>
    dsimp only
    rw [literalsLoop_eq (scan_length hs)]

def thenRead (r : List Int × Option String) (b : List Char) : List Int × Option String :=
  match r with
  | (ts, some message) => (ts, some message)
  | (ts, none) => (ts ++ (literals b).1, (literals b).2)

theorem literals_blank (h : ∀ c ∈ a, isSpace c = true) (b : List Char) : literals (a ++ b) = literals b := by
  rw [literals_eq, scan_of_blank h, ← literals_eq]

theorem literals_append (h : Closed a) (b : List Char) : literals (a ++ b) = thenRead (literals a) b := by
  induction hn : a.length using Nat.strongRecOn generalizing a with
  | ind n ih =>
    by_cases hex : ∃ c ∈ a, isSpace c = false
    · rw [literals_eq (a ++ b), literals_eq a]
      rcases scan_append h hex b with ⟨m, rest, hs, hsb, hc⟩ | ⟨message, hs, hsb⟩
      · rw [hs, hsb]
        dsimp only
        rw [ih rest.length (hn ▸ scan_length hs) hc rfl]
        cases hr : literals rest with
        | mk ts e => cases e <;> rfl
      · rw [hs, hsb]
        rfl
    · have hblank : ∀ c ∈ a, isSpace c = true := by
        intro c hc
        cases hsp : isSpace c with
        | true => rfl
        | false => exact absurd ⟨c, hc, hsp⟩ hex
      rw [literals_blank hblank, literals_eq a, scan_blank hblank]
      rfl

def Reader.read (r : Reader) (text : List Char) : Reader × Option String :=
  ((literals text).1.foldl Reader.take r, (literals text).2)

theorem readBuffer_eq {fuel : Nat} (hf : a.length < fuel) (r : Reader) : readBuffer fuel a r = r.read a := by
  induction fuel generalizing a r with
  | zero => exact absurd hf (Nat.not_lt_zero _)
  | succ fuel ih =>
    unfold readBuffer Reader.read
    rw [literals_eq]
    cases hs : scan a with
    | blank => rfl
    | error message => rfl
    | literal n rest =>
      have hlen := scan_length hs
      exact ih (by omega) (r.take n)

theorem Reader.read_append (r : Reader) (h : Closed a) (b : List Char) : r.read (a ++ b) =
    match r.read a with
    | (r, some message) => (r, some message)
    | (r, none) => r.read b := by
  unfold Reader.read
  rw [literals_append h]
  cases hl : literals a with
  | mk ts e =>
    cases e with
    | some message => rfl
    | none =>
      simp only [thenRead, List.foldl_append]

/-! ## Chunks -/

def GzFile.WellFormed (file : GzFile) : Prop := file.eof = true → file.rest = []

theorem finishLiteral_spec (rest : List Char) : rest = (finishLiteral rest).1 ++ (finishLiteral rest).2.rest ∧
    (finishLiteral rest).2.WellFormed ∧ ((finishLiteral rest).2.rest = [] ∨ Closed (finishLiteral rest).1) := by
  induction rest with
  | nil => exact ⟨rfl, fun _ => rfl, .inl rfl⟩
  | cons c rest ih =>
    unfold finishLiteral
    split
    · rename_i hc
      exact ⟨rfl, fun h => absurd h Bool.false_ne_true, .inr ⟨[], c, rfl, hc⟩⟩
    · obtain ⟨he, hw, hcl⟩ := ih
      refine ⟨congrArg (c :: ·) he, hw, hcl.imp_right fun h => ?_⟩
      exact h.append [c]

/-- A chunk is not cut off within a literal. -/
theorem readChunk_spec {file : GzFile} {n : Nat} (hn : 0 < n) (hw : file.WellFormed) :
    ∃ buffer file', readChunk file n = (toInt buffer.length, buffer, file') ∧ file.rest = buffer ++ file'.rest ∧
      file'.WellFormed ∧ (file'.rest = [] ∨ Closed buffer) ∧ (file.rest ≠ [] → buffer ≠ []) := by
  have hne : file.rest ≠ [] → file.rest.take n ≠ [] := by
    intro h he
    cases List.take_eq_nil_iff.mp he with
    | inl he => exact absurd he hn.ne'
    | inr he => exact h he
  have hsplit := (List.take_append_drop n file.rest).symm
  unfold readChunk
  rw [if_neg hn.ne']
  dsimp only [gzread]
  split
  · rename_i he
    have hdrop : file.rest.drop n = [] := by
      rw [Bool.or_eq_true, decide_eq_true_eq] at he
      cases he with
      | inl he => rw [hw he, List.drop_nil]
      | inr he => exact List.drop_eq_nil_of_le he.le
    exact ⟨_, _, rfl, hsplit, fun _ => hdrop, .inl hdrop, hne⟩
  · rename_i he
    split
    · rename_i hc
      exact ⟨_, _, rfl, hsplit, fun h => absurd h he, .inr (closed_iff.mpr hc), hne⟩
    · obtain ⟨hrest, hwf, hcl⟩ := finishLiteral_spec (file.rest.drop n)
      refine ⟨file.rest.take n ++ (finishLiteral (file.rest.drop n)).1, _, ?_, ?_, hwf, ?_, fun h => ?_⟩
      · rw [List.length_append]
      · rw [List.append_assoc, ← hrest]
        exact hsplit
      · exact hcl.imp_right fun h => h.append _
      · exact List.append_ne_nil_of_left_ne_nil (hne h) _

end

end Parser

end JamSAT
