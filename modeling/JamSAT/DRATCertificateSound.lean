import JamSAT.Base128
import JamSAT.DRATCertificate
import Mathlib.Data.Nat.Bitwise

/-!
# Binary DRAT

The format of a proof file, and that a certificate writes files of this format
which are read in one way only: as the steps that have been written.
-/

namespace JamSAT

open Base128

/-! ## The format -/

structure DRATStep where
  added : Bool
  literals : List CNFLit
  deriving DecidableEq, Repr

/-- The literal with the number `n`: twice the DIMACS variable plus the sign bit. -/
def literalOfNumber (n : Nat) : CNFLit := ⟨n / 2 - 1, if n % 2 = 0 then .positive else .negative⟩

inductive IsLiterals : List UInt8 → List CNFLit → Prop
  | nil : IsLiterals [] []
  | cons {bytes rest : List UInt8} {n : Nat} {literals : List CNFLit} (hn : IsNumber bytes n) (hv : 2 ≤ n)
    (h : IsLiterals rest literals) : IsLiterals (bytes ++ rest) (literalOfNumber n :: literals)

inductive IsProof : List UInt8 → List DRATStep → Prop
  | nil : IsProof [] []
  | cons {bytes rest : List UInt8} {added : Bool} {literals : List CNFLit} {steps : List DRATStep}
    (hl : IsLiterals bytes literals) (h : IsProof rest steps) :
    IsProof ((if added then 0x61 else 0x64) :: bytes ++ 0 :: rest) (⟨added, literals⟩ :: steps)

section
variable {bytes bytes' rest rest' : List UInt8}

theorem isNumber_zero : IsNumber [0] 0 := .last (b := 0) (by decide)

/-- A zero byte ends the literals. -/
theorem IsLiterals.unique {literals literals' : List CNFLit} (h : IsLiterals bytes literals)
    (h' : IsLiterals bytes' literals') (he : bytes ++ 0 :: rest = bytes' ++ 0 :: rest') :
    literals = literals' ∧ rest = rest' := by
  induction h generalizing bytes' literals' with
  | nil =>
    cases h' with
    | nil => exact ⟨rfl, (List.cons.inj he).2⟩
    | cons hn hv h =>
      rw [List.append_assoc] at he
      obtain ⟨-, rfl, -⟩ := isNumber_zero.unique hn he
      omega
  | cons hn hv h ih =>
    cases h' with
    | nil =>
      rw [List.append_assoc] at he
      obtain ⟨-, rfl, -⟩ := hn.unique isNumber_zero he
      omega
    | cons hn' hv' h' =>
      rw [List.append_assoc, List.append_assoc] at he
      obtain ⟨-, rfl, he⟩ := hn.unique hn' he
      obtain ⟨rfl, rfl⟩ := ih h' he
      exact ⟨rfl, rfl⟩

theorem prefixByte_inj {added added' : Bool}
    (h : (if added then 0x61 else 0x64 : UInt8) = if added' then 0x61 else 0x64) : added = added' := by
  revert h
  cases added <;> cases added' <;> decide

theorem IsProof.unique {steps steps' : List DRATStep} (h : IsProof bytes steps) :
    ∀ {bytes' : List UInt8}, IsProof bytes' steps' → bytes = bytes' → steps = steps' := by
  induction h generalizing steps' with
  | nil =>
    intro bytes' h' he
    cases h' with
    | nil => rfl
    | cons => cases he
  | cons hl h ih =>
    intro bytes' h' he
    cases h' with
    | nil => cases he
    | cons hl' h' =>
      obtain ⟨hbyte, htail⟩ := List.cons.inj he
      obtain ⟨rfl, rfl⟩ := hl.unique hl' htail
      rw [prefixByte_inj hbyte, ih h' rfl]

/-! ## Encoding -/

structure Appends (bytes : List UInt8) (before after : List UInt8 × Nat) : Prop where
  take : after.1.take after.2 = before.1.take before.2 ++ bytes
  out : after.2 = before.2 + bytes.length
  length : after.1.length = before.1.length

theorem Appends.refl (b : List UInt8 × Nat) : Appends [] b b := ⟨(List.append_nil _).symm, rfl, rfl⟩

theorem Appends.trans {a b c : List UInt8 × Nat} (h : Appends bytes a b) (h' : Appends bytes' b c) :
    Appends (bytes ++ bytes') a c := by
  refine ⟨?_, ?_, h'.length.trans h.length⟩
  · rw [h'.take, h.take, List.append_assoc]
  · rw [h'.out, h.out, List.length_append, Nat.add_assoc]

end

theorem store_spec (buffer : List UInt8) {i : Nat} (h : i < buffer.length) (b : UInt8) :
    ∃ buffer', store buffer i b = some buffer' ∧ Appends [b] (buffer, i) (buffer', i + 1) := by
  refine ⟨_, if_pos h, ?_, rfl, List.length_set⟩
  dsimp only
  rw [List.take_add_one, List.take_set_of_le le_rfl, List.getElem?_set_self h]
  rfl

namespace BinaryDRATEncoder

theorem toNat_shiftRight_seven (v : UInt32) : (v >>> 7).toNat = v.toNat / 128 := by
  rw [UInt32.toNat_shiftRight]
  exact Nat.shiftRight_eq_div_pow _ _

theorem shiftRight_seven_ne_zero {v : UInt32} : v >>> 7 ≠ 0 ↔ ¬ v.toNat < 128 := by
  have hz : v >>> 7 = 0 ↔ v.toNat / 128 = 0 := by
    rw [← UInt32.toNat_inj, toNat_shiftRight_seven]
    rfl
  rw [Ne, hz]
  omega

theorem toNat_low (v : UInt32) : ((v &&& 0x7F).toUInt8).toNat = v.toNat % 128 := by
  have hand : v.toNat &&& (0x7F : UInt32).toNat = v.toNat % 128 := Nat.and_two_pow_sub_one_eq_mod v.toNat 7
  rw [UInt32.toNat_toUInt8, UInt32.toNat_and, hand]
  omega

theorem groupByte_eq (v : UInt32) :
    ((v &&& 0x7F).toUInt8 ||| if v >>> 7 ≠ 0 then 0x80 else 0x00) =
      if v.toNat < 128 then UInt8.ofNat v.toNat else UInt8.ofNat (v.toNat % 128 + 128) := by
  apply UInt8.toNat_inj.mp
  rw [UInt8.toNat_or, toNat_low]
  by_cases h : v.toNat < 128
  · rw [if_neg (not_not_intro h ∘ shiftRight_seven_ne_zero.mp), if_pos h, toNat_ofNat (h.trans (by decide)),
      Nat.mod_eq_of_lt h]
    exact Nat.or_zero _
  · have hlt : v.toNat % 128 < 2 ^ 7 := Nat.mod_lt _ (by decide)
    have hor := Nat.two_pow_add_eq_or_of_lt hlt 1
    rw [if_pos (shiftRight_seven_ne_zero.mpr h), if_neg h, toNat_ofNat (by omega), Nat.or_comm]
    exact hor.symm.trans (Nat.add_comm _ _)

theorem encodeRawValue_spec : ∀ (groups : Nat) {v : UInt32} (buffer : List UInt8) (out : Nat),
    v.toNat < 128 ^ groups → 0 < groups → out + (Base128.encode v.toNat).length ≤ buffer.length →
    ∃ r, encodeRawValue groups v buffer out = some r ∧ Appends (Base128.encode v.toNat) (buffer, out) r := by
  intro groups
  induction groups with
  | zero => exact fun _ _ _ h₀ _ => absurd h₀ (lt_irrefl 0)
  | succ groups ih =>
    intro v buffer out hv _ hlen
    rw [encodeRawValue, groupByte_eq]
    rw [Base128.encode] at hlen ⊢
    by_cases h : v.toNat < 128
    · rw [if_pos h] at hlen
      obtain ⟨buffer', hstore, happ⟩ := store_spec buffer (Nat.lt_of_succ_le hlen) (UInt8.ofNat v.toNat)
      refine ⟨(buffer', out + 1), ?_, ?_⟩
      · rw [if_pos h, hstore, Option.bind_eq_bind, Option.bind_some,
          if_neg (not_not_intro h ∘ shiftRight_seven_ne_zero.mp)]
        rfl
      · rw [if_pos h]
        exact happ
    · rw [if_neg h, List.length_cons] at hlen
      obtain ⟨buffer', hstore, happ⟩ := store_spec buffer (i := out) (by omega)
        (UInt8.ofNat (v.toNat % 128 + 128))
      have hdiv : (v >>> 7).toNat = v.toNat / 128 := toNat_shiftRight_seven v
      have hlt : (v >>> 7).toNat < 128 ^ groups := by
        rw [hdiv, Nat.div_lt_iff_lt_mul (by decide)]
        exact hv.trans_eq (Nat.pow_succ 128 groups)
      have hpos : 0 < groups := by
        apply Nat.pos_of_ne_zero
        rintro rfl
        rw [hdiv, pow_zero] at hlt
        omega
      obtain ⟨r, hr, happ'⟩ := ih buffer' (out + 1) hlt hpos
        (by rw [hdiv, happ.length]; dsimp only; omega)
      refine ⟨r, ?_, ?_⟩
      · rw [if_neg h, hstore, Option.bind_eq_bind, Option.bind_some, if_pos (shiftRight_seven_ne_zero.mpr h), hr]
      · rw [if_neg h, ← hdiv]
        exact happ.trans happ'

theorem toNat_rawValue_add_two {l : CNFLit} (hl : l.var < CNFVar.undefinedVariable) :
    (UInt32.ofNat l.rawValue + 2).toNat = l.rawValue + 2 := by
  have hle : l.rawValue ≤ 2 * l.var + 1 := by
    unfold CNFLit.rawValue
    exact Nat.add_le_add_left (by cases l.sign <;> decide) _
  unfold CNFVar.undefinedVariable at hl
  have htwo : (2 : UInt32).toNat = 2 := rfl
  rw [UInt32.toNat_add, UInt32.toNat_ofNat', htwo]
  omega

theorem toNat_externalRawValue {l : CNFLit} (hl : l.var < CNFVar.undefinedVariable) :
    (externalRawValue l).toNat = 2 * (l.var + 1) + (match l.sign with | .positive => 0 | .negative => 1) := by
  unfold externalRawValue
  rw [UInt32.toNat_xor, toNat_rawValue_add_two hl]
  obtain ⟨v, sign⟩ := l
  cases sign with
  | positive =>
    have hraw : CNFLit.rawValue ⟨v, .positive⟩ + 2 = 2 * (v + 1) + 1 := rfl
    rw [hraw]
    exact Nat.xor_one_of_odd ⟨v + 1, rfl⟩
  | negative =>
    have hraw : CNFLit.rawValue ⟨v, .negative⟩ + 2 = 2 * (v + 1) := rfl
    rw [hraw]
    exact Nat.xor_one_of_even (even_two_mul _)

def literalBytes (l : CNFLit) : List UInt8 := Base128.encode (externalRawValue l).toNat

theorem isNumber_literalBytes {l : CNFLit} (hl : l.var < CNFVar.undefinedVariable) :
    ∃ n, IsNumber (literalBytes l) n ∧ 2 ≤ n ∧ literalOfNumber n = l := by
  refine ⟨_, isNumber_encode _, ?_, ?_⟩
  · rw [toNat_externalRawValue hl]
    omega
  · rw [toNat_externalRawValue hl]
    obtain ⟨v, sign⟩ := l
    unfold literalOfNumber
    cases sign with
    | positive =>
      have hvar : (2 * (v + 1) + 0) / 2 - 1 = v := by omega
      dsimp only
      rw [if_pos (by omega), hvar]
    | negative =>
      have hvar : (2 * (v + 1) + 1) / 2 - 1 = v := by omega
      dsimp only
      rw [if_neg (by omega), hvar]

theorem length_literalBytes_le (l : CNFLit) : (literalBytes l).length ≤ 5 := by
  apply length_encode_le
  exact (externalRawValue l).toNat_lt.trans (by decide)

theorem zero_not_mem_literalBytes {l : CNFLit} (hl : l.var < CNFVar.undefinedVariable) : 0 ∉ literalBytes l := by
  apply zero_not_mem_encode
  rw [toNat_externalRawValue hl]
  omega

theorem encodeLiteral_spec (l : CNFLit) (buffer : List UInt8) (out : Nat) (h : out + 5 ≤ buffer.length) :
    ∃ r, encodeLiteral l buffer out = some r ∧ Appends (literalBytes l) (buffer, out) r := by
  have hle := length_literalBytes_le l
  apply encodeRawValue_spec 5 buffer out _ (by decide)
  · change out + (literalBytes l).length ≤ _
    omega
  · exact (externalRawValue l).toNat_lt.trans (by decide)

theorem length_flatMap_literalBytes_le (literals : List CNFLit) :
    (literals.flatMap literalBytes).length ≤ literals.length * 5 := by
  induction literals with
  | nil => exact le_rfl
  | cons l ls ih =>
    have hle := length_literalBytes_le l
    rw [List.flatMap_cons, List.length_append, List.length_cons]
    omega

theorem encodeLiterals_spec (literals : List CNFLit) : ∀ (buffer : List UInt8) (out : Nat),
    out + literals.length * 5 ≤ buffer.length →
    ∃ r, encodeLiterals literals buffer out = some r ∧ Appends (literals.flatMap literalBytes) (buffer, out) r := by
  induction literals with
  | nil => exact fun _ _ _ => ⟨_, rfl, Appends.refl _⟩
  | cons l ls ih =>
    intro buffer out h
    rw [List.length_cons] at h
    have hle := length_literalBytes_le l
    obtain ⟨⟨buffer', out'⟩, hr, happ⟩ := encodeLiteral_spec l buffer out (by omega)
    have hout : out' = out + (literalBytes l).length := happ.out
    have hlen : buffer'.length = buffer.length := happ.length
    obtain ⟨r, hr', happ'⟩ := ih buffer' out' (by omega)
    refine ⟨r, ?_, happ.trans happ'⟩
    rw [encodeLiterals, hr, Option.bind_eq_bind, Option.bind_some]
    exact hr'

theorem encode_spec (literals : List CNFLit) (buffer : List UInt8) (out : Nat)
    (h : out + literals.length * 5 ≤ buffer.length) :
    ∃ r, encode literals buffer out = some r ∧ Appends (literals.flatMap literalBytes) (buffer, out) r := by
  unfold encode
  rw [if_pos (by omega)]
  exact encodeLiterals_spec literals buffer out h

theorem encode_parts_spec (parts : List (List CNFLit)) : ∀ (buffer : List UInt8) (out : Nat),
    out + parts.flatten.length * 5 ≤ buffer.length →
    ∃ r, parts.foldlM (fun (buffer, encodingLen) part => encode part buffer encodingLen) (buffer, out) = some r ∧
      Appends (parts.flatten.flatMap literalBytes) (buffer, out) r := by
  induction parts with
  | nil => exact fun _ _ _ => ⟨_, rfl, Appends.refl _⟩
  | cons part parts ih =>
    intro buffer out h
    rw [List.flatten_cons, List.length_append] at h
    have hle := length_flatMap_literalBytes_le part
    obtain ⟨⟨buffer', out'⟩, hr, happ⟩ := encode_spec part buffer out (by omega)
    have hout : out' = out + (part.flatMap literalBytes).length := happ.out
    have hlen : buffer'.length = buffer.length := happ.length
    obtain ⟨r, hr', happ'⟩ := ih buffer' out' (by omega)
    refine ⟨r, ?_, ?_⟩
    · rw [List.foldlM_cons, Option.bind_eq_bind]
      dsimp only
      rw [hr, Option.bind_some, hr']
    · rw [List.flatten_cons, List.flatMap_append]
      exact happ.trans happ'

theorem isLiterals_flatMap {literals : List CNFLit} (h : ∀ l ∈ literals, l.var < CNFVar.undefinedVariable) :
    IsLiterals (literals.flatMap literalBytes) literals := by
  induction literals with
  | nil => exact .nil
  | cons l ls ih =>
    obtain ⟨hl, hls⟩ := List.forall_mem_cons.mp h
    obtain ⟨n, hn, hv, hlit⟩ := isNumber_literalBytes hl
    have hcons := IsLiterals.cons hn hv (ih hls)
    rwa [hlit] at hcons

theorem count_zero_flatMap {literals : List CNFLit} (h : ∀ l ∈ literals, l.var < CNFVar.undefinedVariable) :
    (literals.flatMap literalBytes).count 0 = 0 := by
  rw [List.count_eq_zero, List.mem_flatMap]
  rintro ⟨l, hl, hzero⟩
  exact zero_not_mem_literalBytes (h l hl) hzero

end BinaryDRATEncoder

/-! ## Certificates -/

open BinaryDRATEncoder

def DRATStep.bytes (s : DRATStep) : List UInt8 :=
  (if s.added then 0x61 else 0x64) :: s.literals.flatMap literalBytes ++ [0]

namespace FileDRATCertificate

theorem length_ensureBufferLargeEnough (cert : FileDRATCertificate) (n : Nat) :
    5 * n + 2 ≤ (cert.ensureBufferLargeEnough n).buffer.length := by
  unfold ensureBufferLargeEnough
  dsimp only
  split
  · rw [List.length_append, List.length_replicate]
    omega
  · omega

@[simp] theorem ensureBufferLargeEnough_file (cert : FileDRATCertificate) (n : Nat) :
    (cert.ensureBufferLargeEnough n).file = cert.file := by
  unfold ensureBufferLargeEnough
  dsimp only
  split <;> rfl

theorem writeParts_spec {cert : FileDRATCertificate} (parts : List (List CNFLit)) (added : Bool)
    (h : 5 * parts.flatten.length + 2 ≤ cert.buffer.length) :
    ∃ cert', cert.writeParts parts added = some cert' ∧
      cert'.file = cert.file ++ (DRATStep.mk added parts.flatten).bytes := by
  have hle := length_flatMap_literalBytes_le parts.flatten
  obtain ⟨b₀, hs₀, happ₀⟩ := store_spec cert.buffer (i := 0) (by omega) (if added then 0x61 else 0x64)
  have hlen₀ : b₀.length = cert.buffer.length := happ₀.length
  obtain ⟨⟨b₁, out⟩, hs₁, happ₁⟩ := encode_parts_spec parts b₀ 1 (by omega)
  have hlen₁ : b₁.length = b₀.length := happ₁.length
  have hout : out = 1 + (parts.flatten.flatMap literalBytes).length := happ₁.out
  obtain ⟨b₂, hs₂, happ₂⟩ := store_spec b₁ (i := out) (by omega) 0
  have hlen₂ : b₂.length = b₁.length := happ₂.length
  have htake : b₂.take (out + 1) = (DRATStep.mk added parts.flatten).bytes :=
    ((happ₀.trans happ₁).trans happ₂).take
  refine ⟨⟨b₂, cert.file ++ b₂.take (out + 1)⟩, ?_, ?_⟩
  · unfold writeParts
    rw [hs₀, Option.bind_eq_bind, Option.bind_some, hs₁, Option.bind_eq_bind, Option.bind_some]
    dsimp only
    rw [hs₂, Option.bind_some]
    exact if_pos (by dsimp only; omega)
  · rw [htake]

theorem writeLiterals_spec (cert : FileDRATCertificate) (clause : List CNFLit) (added : Bool) :
    ∃ cert', cert.writeLiterals clause added = some cert' ∧
      cert'.file = cert.file ++ (DRATStep.mk added clause).bytes := by
  have hlen := cert.length_ensureBufferLargeEnough clause.length
  have hw := writeParts_spec [clause] added (by rwa [List.flatten_singleton])
  rwa [List.flatten_singleton, ensureBufferLargeEnough_file] at hw

end FileDRATCertificate

namespace CertificateCall

open FileDRATCertificate

def literals : CertificateCall → List CNFLit
  | .addATClause clause => clause
  | .addRATClause clause pivotIdx => (clause[pivotIdx]?).toList ++ clause.eraseIdx pivotIdx
  | .deleteClause clause => clause

def step (c : CertificateCall) : DRATStep :=
  ⟨match c with | .deleteClause _ => false | _ => true, c.literals⟩

/-- What the caller guarantees: regular variables and a pivot within the clause. -/
def Regular (c : CertificateCall) : Prop :=
  (∀ l ∈ c.literals, l.var < CNFVar.undefinedVariable) ∧
    match c with | .addRATClause clause pivotIdx => pivotIdx < clause.length | _ => True

instance (c : CertificateCall) : Decidable c.Regular := by
  unfold Regular
  cases c <;> exact inferInstance

theorem pivot_first {clause : List CNFLit} {i : Nat} (h : i < clause.length) :
    [(clause.drop i).take 1, clause.take i, clause.drop (i + 1)].flatten =
      (clause[i]?).toList ++ clause.eraseIdx i := by
  rw [List.eraseIdx_eq_take_drop_succ, List.drop_eq_getElem_cons h, List.getElem?_eq_getElem h]
  simp only [List.flatten_cons, List.flatten_nil, List.append_nil, List.take_succ_cons, List.take_zero,
    Option.toList_some]

theorem call_spec (cert : FileDRATCertificate) {c : CertificateCall} (h : c.Regular) :
    ∃ cert', cert.call c = some cert' ∧ cert'.file = cert.file ++ c.step.bytes := by
  cases c with
  | addATClause clause => exact cert.writeLiterals_spec clause true
  | deleteClause clause => exact cert.writeLiterals_spec clause false
  | addRATClause clause pivotIdx =>
    have hi : pivotIdx < clause.length := h.2
    have hfl := pivot_first hi
    change ∃ cert', cert.addRATClause clause pivotIdx = some cert' ∧ _
    unfold FileDRATCertificate.addRATClause
    split
    · rename_i hz
      subst hz
      have hfirst : (clause[0]?).toList ++ clause.eraseIdx 0 = clause := by
        cases clause with
        | nil => rfl
        | cons => rfl
      unfold step literals
      dsimp only
      rw [hfirst]
      exact cert.writeLiterals_spec clause true
    · have hlen := cert.length_ensureBufferLargeEnough clause.length
      have hcount : ((clause[pivotIdx]?).toList ++ clause.eraseIdx pivotIdx).length = clause.length := by
        rw [List.getElem?_eq_getElem hi, Option.toList_some, List.length_append, List.length_eraseIdx_of_lt hi,
          List.length_singleton]
        omega
      obtain ⟨cert', hw, hfile⟩ := writeParts_spec _ true (by rwa [hfl, hcount])
      rw [hfl, ensureBufferLargeEnough_file] at hfile
      exact ⟨cert', hw, hfile⟩

theorem count_zero_bytes {c : CertificateCall} (h : c.Regular) : c.step.bytes.count 0 = 1 := by
  have hz := count_zero_flatMap h.1
  have hb : ∀ b : Bool, (if b then 0x61 else 0x64 : UInt8) ≠ 0 := by decide
  unfold DRATStep.bytes
  rw [List.count_append, List.count_cons_of_ne (hb _)]
  change List.count 0 (c.literals.flatMap literalBytes) + 1 = 1
  rw [hz]

theorem isProof_append {c : CertificateCall} (h : c.Regular) {rest : List UInt8} {steps : List DRATStep}
    (hr : IsProof rest steps) : IsProof (c.step.bytes ++ rest) (c.step :: steps) := by
  unfold DRATStep.bytes
  rw [List.append_assoc, List.singleton_append]
  exact .cons (isLiterals_flatMap h.1) hr

theorem run_spec (calls : List CertificateCall) : ∀ (cert : FileDRATCertificate), (∀ c ∈ calls, c.Regular) →
    ∃ cert', calls.foldlM call cert = some cert' ∧
      cert'.file = cert.file ++ (calls.map step).flatMap DRATStep.bytes := by
  induction calls with
  | nil => exact fun _ _ => ⟨_, rfl, (List.append_nil _).symm⟩
  | cons c cs ih =>
    intro cert h
    obtain ⟨hc, hcs⟩ := List.forall_mem_cons.mp h
    obtain ⟨cert₁, hcall, hfile₁⟩ := call_spec cert hc
    obtain ⟨cert₂, hrun, hfile₂⟩ := ih cert₁ hcs
    refine ⟨cert₂, ?_, ?_⟩
    · rw [List.foldlM_cons, hcall, Option.bind_eq_bind, Option.bind_some, hrun]
    · rw [hfile₂, hfile₁, List.map_cons, List.flatMap_cons, List.append_assoc]

theorem isProof_steps {calls : List CertificateCall} (h : ∀ c ∈ calls, c.Regular) :
    IsProof ((calls.map step).flatMap DRATStep.bytes) (calls.map step) ∧
      ((calls.map step).flatMap DRATStep.bytes).count 0 = calls.length := by
  induction calls with
  | nil => exact ⟨.nil, rfl⟩
  | cons c cs ih =>
    obtain ⟨hc, hcs⟩ := List.forall_mem_cons.mp h
    obtain ⟨hproof, hcount⟩ := ih hcs
    rw [List.map_cons, List.flatMap_cons]
    refine ⟨isProof_append hc hproof, ?_⟩
    rw [List.count_append, count_zero_bytes hc, hcount, List.length_cons, Nat.add_comm]

/-- The file of a run of calls has one reading, the steps of the calls. Each zero byte in it ends a step. -/
theorem proof_read_back (calls : List CertificateCall) (h : ∀ c ∈ calls, c.Regular) :
    ∃ cert, calls.foldlM call new = some cert ∧
      (∀ steps, IsProof cert.file steps ↔ steps = calls.map step) ∧
      cert.file.count 0 = calls.length := by
  obtain ⟨cert, hrun, hfile⟩ := run_spec calls new h
  obtain ⟨hproof, hcount⟩ := isProof_steps h
  have hnew : cert.file = (calls.map step).flatMap DRATStep.bytes := hfile
  refine ⟨cert, hrun, ?_, ?_⟩
  · intro steps
    rw [hnew]
    constructor
    · exact fun hs => hs.unique hproof rfl
    · rintro rfl
      exact hproof
  · rw [hnew, hcount]

def pivotCalls : List CertificateCall :=
  [.addRATClause [⟨0, .positive⟩, ⟨63, .negative⟩, ⟨1073741822, .negative⟩] 1,
    .deleteClause [⟨0, .positive⟩], .addATClause []]

theorem pivotCalls_read_back :
    ∃ cert, pivotCalls.foldlM call new = some cert ∧
      (∀ steps, IsProof cert.file steps ↔ steps = pivotCalls.map step) ∧
      cert.file.count 0 = pivotCalls.length :=
  proof_read_back pivotCalls (by decide)

end CertificateCall

end JamSAT
