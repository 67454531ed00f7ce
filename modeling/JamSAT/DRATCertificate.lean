import JamSAT.CNFLiteral

/-!
# Certificate files

`BinaryDRATEncoder` and `FileDRATCertificate`. A write outside of a buffer has no
result; writing to the file succeeds.
-/

namespace JamSAT

/-- `*outIter = value` -/
def store (buffer : List UInt8) (i : Nat) (value : UInt8) : Option (List UInt8) :=
  if i < buffer.length then some (buffer.set i value) else none

namespace BinaryDRATEncoder

/-- The loop over the groups of seven bits; 32 bits have five groups. -/
def encodeRawValue : (groups : Nat) → UInt32 → List UInt8 → (out : Nat) → Option (List UInt8 × Nat)
  | 0, _, _, _ => none
  | groups + 1, rawValue, buffer, out => do
    let leastSignificant := (rawValue &&& 0x7F).toUInt8
    let msbMask : UInt8 := if rawValue >>> 7 ≠ 0 then 0x80 else 0x00
    let buffer ← store buffer out (leastSignificant ||| msbMask)
    if rawValue >>> 7 ≠ 0 then encodeRawValue groups (rawValue >>> 7) buffer (out + 1)
    else return (buffer, out + 1)

def externalRawValue (literal : CNFLit) : UInt32 := (UInt32.ofNat literal.rawValue + 2) ^^^ 1

def encodeLiteral (literal : CNFLit) (buffer : List UInt8) (out : Nat) : Option (List UInt8 × Nat) :=
  encodeRawValue 5 (externalRawValue literal) buffer out

def encodeLiterals : List CNFLit → List UInt8 → (out : Nat) → Option (List UInt8 × Nat)
  | [], buffer, out => some (buffer, out)
  | literal :: literals, buffer, out => do
    let (buffer, out) ← encodeLiteral literal buffer out
    encodeLiterals literals buffer out

/-- Writes the literals into the buffer from position `out` on and returns the
position after them. The space that is left is asserted. -/
def encode (literals : List CNFLit) (buffer : List UInt8) (out : Nat) : Option (List UInt8 × Nat) :=
  if buffer.length - out ≥ literals.length * 5 then encodeLiterals literals buffer out else none

end BinaryDRATEncoder

structure FileDRATCertificate where
  buffer : List UInt8
  /-- the bytes written to the file -/
  file : List UInt8
  deriving DecidableEq, Repr

inductive CertificateCall
  | addATClause (clause : List CNFLit)
  | addRATClause (clause : List CNFLit) (pivotIdx : Nat)
  | deleteClause (clause : List CNFLit)
  deriving DecidableEq, Repr

namespace FileDRATCertificate

open BinaryDRATEncoder

def new : FileDRATCertificate := ⟨List.replicate 1 0, []⟩

def ensureBufferLargeEnough (cert : FileDRATCertificate) (numLits : Nat) : FileDRATCertificate :=
  let requiredBufferSize := 5 * numLits + 2
  if cert.buffer.length < requiredBufferSize then
    { cert with buffer := cert.buffer ++ List.replicate (requiredBufferSize - cert.buffer.length) 0 }
  else cert

def fwrite (cert : FileDRATCertificate) (size : Nat) : Option FileDRATCertificate :=
  if size ≤ cert.buffer.length then some { cert with file := cert.file ++ cert.buffer.take size } else none

/-- Encodes the parts of a clause one after the other behind the first byte of the buffer. -/
def writeParts (cert : FileDRATCertificate) (parts : List (List CNFLit)) (added : Bool) : Option FileDRATCertificate := do
  let buffer ← store cert.buffer 0 (if added then 0x61 else 0x64)
  let (buffer, encodingLen) ← parts.foldlM (fun (buffer, encodingLen) part => encode part buffer encodingLen) (buffer, 1)
  let buffer ← store buffer encodingLen 0
  fwrite { cert with buffer := buffer } (encodingLen + 1)

def writeLiterals (cert : FileDRATCertificate) (clause : List CNFLit) (added : Bool) : Option FileDRATCertificate :=
  (cert.ensureBufferLargeEnough clause.length).writeParts [clause] added

def writeLiteralsPivotFirst (cert : FileDRATCertificate) (clause : List CNFLit) (added : Bool) (pivotIdx : Nat) :
    Option FileDRATCertificate :=
  (cert.ensureBufferLargeEnough clause.length).writeParts
    [(clause.drop pivotIdx).take 1, clause.take pivotIdx, clause.drop (pivotIdx + 1)] added

def addRATClause (cert : FileDRATCertificate) (clause : List CNFLit) (pivotIdx : Nat) : Option FileDRATCertificate :=
  if pivotIdx = 0 then cert.writeLiterals clause true else cert.writeLiteralsPivotFirst clause true pivotIdx

def addATClause (cert : FileDRATCertificate) (clause : List CNFLit) : Option FileDRATCertificate :=
  cert.writeLiterals clause true

def deleteClause (cert : FileDRATCertificate) (clause : List CNFLit) : Option FileDRATCertificate :=
  cert.writeLiterals clause false

def call (cert : FileDRATCertificate) : CertificateCall → Option FileDRATCertificate
  | .addATClause clause => cert.addATClause clause
  | .addRATClause clause pivotIdx => cert.addRATClause clause pivotIdx
  | .deleteClause clause => cert.deleteClause clause

end FileDRATCertificate

end JamSAT
