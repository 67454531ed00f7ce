import Mathlib.Data.List.Basic
import Mathlib.Data.Char

/-!
# Text streams

Formatted input from a text, with the end-of-file and failure bits of a stream.
Reads are unchecked: a failed read leaves its target as it was.
-/

structure TextStream where
  rest : List Char
  eofbit : Bool
  failbit : Bool
  deriving DecidableEq, Repr

namespace TextStream

def ofText (text : List Char) : TextStream := ⟨text, false, false⟩

def good (s : TextStream) : Bool := !s.eofbit && !s.failbit

/-- The conversion of a stream to `bool`. -/
def ok (s : TextStream) : Bool := !s.failbit

def setFail (s : TextStream) : TextStream := { s with failbit := true }

def isSpace (c : Char) : Bool := c == ' ' || c == '\t' || c == '\n' || c == '\x0b' || c == '\x0c' || c == '\r'

def takeWhile (p : Char → Bool) (s : TextStream) : List Char × TextStream :=
  (s.rest.takeWhile p, { s with rest := s.rest.dropWhile p, eofbit := s.eofbit || (s.rest.dropWhile p).isEmpty })

def ws (s : TextStream) : TextStream := if s.good then (s.takeWhile isSpace).2 else s.setFail

/-- Begins a formatted read; on success a character is left. -/
def sentry (s : TextStream) : TextStream :=
  let s := s.ws
  if s.good then s else s.setFail

def getline (s : TextStream) (line : List Char) : List Char × TextStream :=
  if s.good then
    match s.takeWhile (· != '\n') with
    | (line, ⟨_ :: rest, _, failbit⟩) => (line, ⟨rest, false, failbit⟩)
    | (line, ⟨[], _, failbit⟩) => (line, ⟨[], true, failbit || line.isEmpty⟩)
  else (line, s.setFail)

def readToken (s : TextStream) (token : List Char) : List Char × TextStream :=
  let s := s.sentry
  if s.ok then s.takeWhile fun c => !isSpace c else (token, s)

/-- Returns whether the sign is negative. -/
def takeSign (s : TextStream) : Bool × TextStream :=
  match s.rest with
  | '-' :: rest => (true, { s with rest := rest, eofbit := rest.isEmpty })
  | '+' :: rest => (false, { s with rest := rest, eofbit := rest.isEmpty })
  | _ => (false, s)

def takeDigits (s : TextStream) : Option Nat × TextStream :=
  match s.takeWhile Char.isDigit with
  | ([], s) => (none, s.setFail)
  | (digits, s) => (some (Nat.ofDigitChars 10 digits 0), s)

/-- A sign and digits; `none` if there are no digits. -/
def readNumber (s : TextStream) : Option (Bool × Nat) × TextStream :=
  let s := s.sentry
  if s.ok then
    let (negative, s) := s.takeSign
    let (n, s) := s.takeDigits
    (n.map fun n => (negative, n), s)
  else (none, s)

def intMax : Nat := 2147483647

def unsignedMax : Nat := 4294967295

def readInt (s : TextStream) : Option Int × TextStream :=
  match s.readNumber with
  | (none, s) => (none, s)
  | (some (negative, n), s) =>
    if negative then if n ≤ intMax + 1 then (some (-n), s) else (none, s.setFail)
    else if n ≤ intMax then (some n, s) else (none, s.setFail)

/-- `>> x` for an `unsigned int`. A negative number wraps around. -/
def readUnsigned (s : TextStream) : Option Nat × TextStream :=
  match s.readNumber with
  | (none, s) => (none, s)
  | (some (negative, n), s) =>
    if n ≤ unsignedMax then (some (if negative then (unsignedMax + 1 - n) % (unsignedMax + 1) else n), s)
    else (none, s.setFail)

-- the equations of what reads with them are found without evaluating them
attribute [irreducible] readToken readInt readUnsigned getline

/-! ## Reading what is there -/

variable {s : TextStream}

theorem takeWhile_append {p : Char → Bool} {a b : List Char} (ha : ∀ c ∈ a, p c = true)
    (hb : ∀ c, b.head? = some c → p c = false) :
    (⟨a ++ b, false, false⟩ : TextStream).takeWhile p = (a, ⟨b, b.isEmpty, false⟩) := by
  have hb' : b.dropWhile p = b ∧ b.takeWhile p = [] := by
    cases b with
    | nil => exact ⟨rfl, rfl⟩
    | cons c b =>
      have hc := hb c rfl
      exact ⟨by simp [hc], by simp [hc]⟩
  have hdrop : (a ++ b).dropWhile p = b := by rw [List.dropWhile_append_of_pos ha, hb'.1]
  have htake : (a ++ b).takeWhile p = a := by rw [List.takeWhile_append_of_pos ha, hb'.2, List.append_nil]
  rw [takeWhile, hdrop, htake]
  rfl

theorem isSpace_singleton {c : Char} (h : isSpace c = true) : ∀ x ∈ [c], isSpace x = true :=
  List.forall_mem_singleton.mpr h

theorem sentry_append {blanks : List Char} {c : Char} {rest : List Char} (hb : ∀ x ∈ blanks, isSpace x = true)
    (hc : isSpace c = false) : (ofText (blanks ++ c :: rest)).sentry = ofText (c :: rest) := by
  have hw : (ofText (blanks ++ c :: rest)).ws = ofText (c :: rest) := by
    show (TextStream.takeWhile isSpace ⟨blanks ++ c :: rest, false, false⟩).2 = _
    rw [takeWhile_append (b := c :: rest) hb fun x hx => Option.some.inj hx ▸ hc]
    rfl
  rw [sentry, hw]
  rfl

theorem sentry_nil : (ofText []).sentry = ⟨[], true, true⟩ := rfl

theorem sentry_blanks {blanks : List Char} (hb : ∀ x ∈ blanks, isSpace x = true) :
    (ofText blanks).sentry = ⟨[], true, true⟩ := by
  have hw : (ofText blanks).ws = ⟨[], true, false⟩ := by
    show (TextStream.takeWhile isSpace ⟨blanks, false, false⟩).2 = _
    have := takeWhile_append (b := []) hb fun x hx => by cases hx
    rw [List.append_nil] at this
    rw [this]
    rfl
  rw [sentry, hw]
  rfl

section
variable {blanks token rest : List Char}

theorem readToken_append (blanks token rest : List Char) (hb : ∀ x ∈ blanks, isSpace x = true)
    (ht : ∀ c ∈ token, isSpace c = false)
    (hn : token ≠ []) (hr : ∀ c, rest.head? = some c → isSpace c = true) (old : List Char) :
    (ofText (blanks ++ token ++ rest)).readToken old = (token, ⟨rest, rest.isEmpty, false⟩) := by
  obtain ⟨c, token, rfl⟩ := List.exists_cons_of_ne_nil hn
  have hs : (ofText (blanks ++ c :: token ++ rest)).sentry = ofText (c :: token ++ rest) := by
    rw [List.append_assoc, List.cons_append]
    exact sentry_append hb (ht c List.mem_cons_self)
  rw [readToken, hs]
  exact takeWhile_append (fun x hx => by rw [ht x hx]; rfl) fun x hx => by rw [hr x hx]; rfl

theorem getline_append (rest : List Char) (hl : ∀ c ∈ token, c ≠ '\n') (old : List Char) :
    (ofText (token ++ '\n' :: rest)).getline old = (token, ofText rest) := by
  have htake : (ofText (token ++ '\n' :: rest)).takeWhile (· != '\n') = (token, ⟨'\n' :: rest, false, false⟩) :=
    takeWhile_append (fun c hc => bne_iff_ne.mpr (hl c hc)) fun c hc => Option.some.inj hc ▸ (by decide)
  have hgood : (ofText (token ++ '\n' :: rest)).good = true := rfl
  rw [getline, if_pos hgood, htake]
  rfl

theorem isSpace_of_isDigit {c : Char} (h : c.isDigit = true) : isSpace c = false := by
  unfold isSpace
  rw [Char.isDigit, Bool.and_eq_true, decide_eq_true_eq, decide_eq_true_eq] at h
  simp only [Bool.or_eq_false_iff, beq_eq_false_iff_ne]
  refine ⟨⟨⟨⟨⟨?_, ?_⟩, ?_⟩, ?_⟩, ?_⟩, ?_⟩ <;> rintro rfl <;> exact absurd h.1 (by decide)

theorem isDigit_of_mem {n : Nat} {c : Char} (hc : c ∈ Nat.toDigits 10 n) : c.isDigit = true :=
  Nat.isDigit_of_mem_toDigits (by decide) (by decide) hc

theorem takeDigits_toDigits {n : Nat} (hr : ∀ c, rest.head? = some c → c.isDigit = false) :
    (ofText (Nat.toDigits 10 n ++ rest)).takeDigits = (some n, ⟨rest, rest.isEmpty, false⟩) := by
  have htake : (ofText (Nat.toDigits 10 n ++ rest)).takeWhile Char.isDigit = _ :=
    takeWhile_append (fun c hc => isDigit_of_mem hc) hr
  rw [takeDigits, htake]
  split
  · rename_i h
    exact absurd (Prod.mk.inj h).1 Nat.toDigits_ne_nil
  · rename_i h
    obtain ⟨rfl, rfl⟩ := Prod.mk.inj h
    rw [Nat.ofDigitChars_ten_toDigits]

theorem takeSign_of_isDigit {c : Char} (hc : c.isDigit = true) :
    (ofText (c :: rest)).takeSign = (false, ofText (c :: rest)) := by
  unfold takeSign
  split
  · rename_i h
    obtain ⟨rfl, -⟩ := List.cons.inj h
    cases hc
  · rename_i h
    obtain ⟨rfl, -⟩ := List.cons.inj h
    cases hc
  · rfl

theorem readNumber_of_sentry {t u : TextStream} {negative : Bool} (hs : s.sentry = t) (hok : t.ok = true)
    (hu : t.takeSign = (negative, u)) :
    s.readNumber = (u.takeDigits.1.map fun n => (negative, n), u.takeDigits.2) := by
  rw [readNumber, hs]
  simp only [hok, hu, if_true]

theorem readNumber_digits (blanks rest : List Char) (hb : ∀ x ∈ blanks, isSpace x = true)
    (hr : ∀ c, rest.head? = some c → c.isDigit = false)
    (n : Nat) : (ofText (blanks ++ Nat.toDigits 10 n ++ rest)).readNumber =
      (some (false, n), ⟨rest, rest.isEmpty, false⟩) := by
  have htake := takeDigits_toDigits (n := n) hr
  have hmem := @isDigit_of_mem n
  obtain ⟨c, digits, hd⟩ := List.exists_cons_of_ne_nil (Nat.toDigits_ne_nil (n := n) (b := 10))
  rw [hd] at htake hmem ⊢
  have hc := hmem List.mem_cons_self
  have hs : (ofText (blanks ++ c :: digits ++ rest)).sentry = ofText (c :: digits ++ rest) := by
    rw [List.append_assoc, List.cons_append]
    exact sentry_append hb (isSpace_of_isDigit hc)
  have hsign : (ofText (c :: digits ++ rest)).takeSign = (false, ofText (c :: digits ++ rest)) :=
    takeSign_of_isDigit hc
  rw [readNumber_of_sentry hs rfl hsign, htake]
  rfl

theorem readNumber_neg (blanks rest : List Char) (hb : ∀ x ∈ blanks, isSpace x = true)
    (hr : ∀ c, rest.head? = some c → c.isDigit = false)
    (n : Nat) : (ofText (blanks ++ '-' :: Nat.toDigits 10 n ++ rest)).readNumber =
      (some (true, n), ⟨rest, rest.isEmpty, false⟩) := by
  have htake := takeDigits_toDigits (n := n) hr
  have hs :
      (ofText (blanks ++ '-' :: Nat.toDigits 10 n ++ rest)).sentry = ofText ('-' :: Nat.toDigits 10 n ++ rest) := by
    rw [List.append_assoc, List.cons_append]
    exact sentry_append hb (by decide)
  have hsign :
      (ofText ('-' :: Nat.toDigits 10 n ++ rest)).takeSign = (true, ofText (Nat.toDigits 10 n ++ rest)) := by
    obtain ⟨c, digits, hd⟩ := List.exists_cons_of_ne_nil (Nat.toDigits_ne_nil (n := n) (b := 10))
    rw [hd]
    rfl
  rw [readNumber_of_sentry hs rfl hsign, htake]
  rfl

end

end TextStream
