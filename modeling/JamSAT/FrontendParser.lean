import JamSAT.CNFProblem

/-!
# The parser of the frontend and the IPASIR layer

`readProblem` reads a decompressed problem file in chunks and passes its clauses
to an IPASIR solver, which turns the integers into literals. `int` has 32 bits,
`long` has 64 and `char` is signed. Errors of the operating system are left out.
-/

namespace JamSAT

namespace Parser

open TextStream (isSpace intMax)

/-- What is left of a file, and its end-of-file indicator. -/
structure GzFile where
  rest : List Char
  eof : Bool
  deriving DecidableEq, Repr

/-- The next bytes, at most `len`. The indicator is set when there are fewer. -/
def gzread (file : GzFile) (len : Nat) : List Char × GzFile :=
  (file.rest.take len, ⟨file.rest.drop len, file.eof || decide (file.rest.length < len)⟩)

/-! ## The header -/

structure DIMACSHeader where
  numVariables : Nat
  numClauses : Nat
  deriving DecidableEq, Repr

def readCharFromGzFile (file : GzFile) : Except String (Char × GzFile) :=
  match gzread file 1 with
  | ([], _) => .error "Syntax error: unexpected end of input file"
  | (character :: _, file) => .ok (character, file)

/-- The loops of `readLine` and `skipLine`. Every turn takes a character. -/
def readLineLoop : (fuel : Nat) → GzFile → (result : List Char) → Except String (List Char × GzFile)
  | 0, _, _ => .error "Syntax error: unexpected end of input file"
  | fuel + 1, file, result =>
    match readCharFromGzFile file with
    | .error message => .error message
    | .ok (character, file) =>
      if character = '\n' then .ok (result, file) else readLineLoop fuel file (result ++ [character])

def readLine (file : GzFile) : Except String (List Char × GzFile) := readLineLoop (file.rest.length + 1) file []

def skipLine (file : GzFile) : Except String GzFile := (readLine file).map Prod.snd

def skipComments : (fuel : Nat) → GzFile → Except String (Char × GzFile)
  | 0, _ => .error "Syntax error: unexpected end of input file"
  | fuel + 1, file =>
    match readCharFromGzFile file with
    | .error message => .error message
    | .ok (lineBegin, file) =>
      if lineBegin = 'c' then
        match skipLine file with
        | .error message => .error message
        | .ok file => skipComments fuel file
      else .ok (lineBegin, file)

def parseHeaderLine (headerLine : List Char) : Except String DIMACSHeader :=
  let headerStream := TextStream.ofText headerLine
  let (cnfToken, headerStream) := headerStream.readToken []
  if headerStream.failbit ∨ cnfToken ≠ "cnf".toList then .error "Syntax error: malformed problem description line"
  else
    let (numVariables, headerStream) := headerStream.readUnsigned
    if headerStream.failbit then .error "Syntax error: malformed problem description line"
    else
      let (numClauses, headerStream) := headerStream.readUnsigned
      if headerStream.failbit then .error "Syntax error: malformed problem description line"
      else .ok ⟨numVariables.getD 0, numClauses.getD 0⟩

def readHeader (file : GzFile) : Except String (DIMACSHeader × GzFile) :=
  match skipComments (file.rest.length + 1) file with
  | .error message => .error message
  | .ok (lineBegin, file) =>
    if lineBegin ≠ 'p' then .error "Syntax error: missing problem description line"
    else
      match readLine file with
      | .error message => .error message
      | .ok (headerLine, file) => (parseHeaderLine headerLine).map fun header => (header, file)

/-! ## Chunks -/

/-- A size that is returned as an `int`. -/
def toInt (size : Nat) : Int := Int.bmod size uint32Size

def finishLiteral : (rest : List Char) → List Char × GzFile
  | [] => ([], ⟨[], true⟩)
  | character :: rest =>
    if isSpace character then ([character], ⟨rest, false⟩)
    else (character :: (finishLiteral rest).1, (finishLiteral rest).2)

/-- The number of bytes, and the buffer without the `0` behind them. -/
def readChunk (file : GzFile) (preferredChunkSize : Nat) : Int × List Char × GzFile :=
  if preferredChunkSize = 0 then (0, [], file)
  else
    let (buffer, file) := gzread file preferredChunkSize
    if file.eof then (toInt buffer.length, buffer, file)
    else if buffer.getLast?.any isSpace then (toInt buffer.length, buffer, file)
    else
      -- stopped in the middle of a literal
      let (more, file) := finishLiteral file.rest
      (toInt (buffer.length + more.length), buffer ++ more, file)

/-! ## Clauses -/

def longMax : Int := 9223372036854775807

def takeSign : List Char → Bool × List Char
  | '-' :: cursor => (true, cursor)
  | '+' :: cursor => (false, cursor)
  | cursor => (false, cursor)

/-- `strtol` with radix 10: the literal and what is behind it, if there are digits. -/
def strtol (cursor : List Char) : Option (Int × List Char) :=
  let (negative, cursor) := takeSign (cursor.dropWhile isSpace)
  if cursor.takeWhile Char.isDigit = [] then none
  else
    let n : Int := Nat.ofDigitChars 10 (cursor.takeWhile Char.isDigit) 0
    some (if negative then max (-n) (-longMax - 1) else min n longMax, cursor.dropWhile Char.isDigit)

def charCode (c : Char) : Int := Int.bmod c.toNat 256

inductive Scan
  | blank
  | literal (literal : Int) (endCursor : List Char)
  | error (message : String)

def scan (cursor : List Char) : Scan :=
  match strtol cursor with
  | some (literal, endCursor) =>
    if literal < -(intMax : Int) - 1 ∨ intMax < literal then .error "Literal out of range"
    else .literal literal endCursor
  | none =>
    match cursor.find? fun c => !isSpace c with
    | some c => .error ("Syntax error: invalid character with code " ++ toString (charCode c))
    | none => .blank

structure Reader where
  clauseBuffer : List Int
  effectiveClauses : Nat
  added : List (List Int)
  deriving DecidableEq, Repr

def Reader.new : Reader := ⟨[], 0, []⟩

def Reader.take (r : Reader) (literal : Int) : Reader :=
  if literal = 0 then ⟨[], (r.effectiveClauses + 1) % uint32Size, r.added ++ [r.clauseBuffer]⟩
  else { r with clauseBuffer := r.clauseBuffer ++ [literal] }

/-- The loop over the buffer; a literal takes at least one character. -/
def readBuffer : (fuel : Nat) → (cursor : List Char) → Reader → Reader × Option String
  | 0, _, r => (r, none)
  | fuel + 1, cursor, r =>
    match scan cursor with
    | .blank => (r, none)
    | .error message => (r, some message)
    | .literal literal endCursor => readBuffer fuel endCursor (r.take literal)

/-- The loop over the chunks; a chunk has at least one character. -/
def readChunks (preferredChunkSize : Nat) : (fuel : Nat) → GzFile → Reader → Reader × Option String
  | 0, _, r => (r, none)
  | fuel + 1, file, r =>
    match readChunk file preferredChunkSize with
    | (bytesRead, buffer, file) =>
      if bytesRead = 0 then (r, none)
      else
        match readBuffer (buffer.length + 1) buffer r with
        | (r, some message) => (r, some message)
        | (r, none) => readChunks preferredChunkSize fuel file r

def checkCount (header : DIMACSHeader) : Reader × Option String → List (List Int) × Option String
  | (r, some message) => (r.added, some message)
  | (r, none) =>
    if r.effectiveClauses = header.numClauses then (r.added, none)
    else
      let moreFewer := if r.effectiveClauses < header.numClauses then "fewer" else "more"
      (r.added, some ("Error: input file contains " ++ moreFewer ++ " clauses than specified in the DIMACS header"))

def readClauses (preferredChunkSize : Nat) (file : GzFile) (header : DIMACSHeader) :
    List (List Int) × Option String :=
  checkCount header (readChunks preferredChunkSize (file.rest.length + 2) file .new)

def preferredChunkReadSize : Nat := 1048576

def readProblem (content : List Char) : List (List Int) × Option String :=
  match readHeader ⟨content, false⟩ with
  | .error message => ([], some message)
  | .ok (header, file) => readClauses preferredChunkReadSize file header

end Parser

/-! ## The IPASIR layer -/

namespace Ipasir

/-- `std::abs`, which overflows for the smallest `int`. -/
def abs (n : Int) : Option Nat := if n = -(TextStream.intMax + 1 : Nat) then none else some n.natAbs

def packLit (rawVariable : Nat) (sign : CNFSign) : Option CNFLit :=
  if rawVariable = CNFVar.undefinedVariable then none
  else
    let value := (rawVariable * 2 + sign.rawValue) % uint32Size
    some ⟨value / 2, if value % 2 = 1 then .positive else .negative⟩

def ipasirLitToCNFLit (ipasirLit : Int) : Option CNFLit :=
  let sign := if 0 < ipasirLit then CNFSign.positive else CNFSign.negative
  (abs ipasirLit).bind fun n => packLit (n - 1) sign

end Ipasir

end JamSAT
