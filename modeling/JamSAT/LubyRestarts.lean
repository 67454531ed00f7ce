import JamSAT.LubyNumbers

/-!
# The Luby sequence and its restart policy

`LubySequence` keeps a pair of 64-bit integers, `LubyRestartPolicy` counts down from
its scaled elements. The client of the policy registers a restart whenever one is advised.
-/

namespace JamSAT

open LubyNumbers

structure LubySequence where
  u : Int64
  v : Int64
  deriving DecidableEq, Repr

namespace LubySequence

def new : LubySequence := ⟨1, 1⟩

def current (s : LubySequence) : Int64 := s.v

/-- What `next` returns is `current` afterwards. -/
def next (s : LubySequence) : LubySequence := if s.u &&& -s.u == s.v then ⟨s.u + 1, 1⟩ else ⟨s.u, 2 * s.v⟩

/-- The state holds a pair of the library modulo `2 ^ 64`. -/
structure Holds (s : LubySequence) (p : Nat × Nat) : Prop where
  u : s.u.toBitVec = BitVec.ofNat 64 p.1
  v : s.v.toBitVec = BitVec.ofNat 64 (2 ^ p.2)

theorem Holds.next {s : LubySequence} {p : Nat × Nat} (h : Holds s p) (hd : 2 ^ p.2 ∣ p.1) (he : p.2 < 64) :
    Holds s.next (LubyNumbers.next p) := by
  have hguard : (s.u &&& -s.u == s.v) = true ↔ ¬ 2 ^ (p.2 + 1) ∣ p.1 := by
    rw [beq_iff_eq, ← Int64.toBitVec_inj, Int64.toBitVec_and, Int64.toBitVec_neg, h.u, h.v, and_neg_eq_iff he hd]
  unfold LubySequence.next LubyNumbers.next
  by_cases hn : 2 ^ (p.2 + 1) ∣ p.1
  · rw [if_neg fun hg => hguard.mp hg hn, if_pos hn]
    refine ⟨h.u, ?_⟩
    rw [Int64.toBitVec_mul, h.v, pow_succ', BitVec.ofNat_mul]
    rfl
  · rw [if_pos (hguard.mpr hn), if_neg hn]
    refine ⟨?_, rfl⟩
    rw [Int64.toBitVec_add, h.u, BitVec.ofNat_add]
    rfl

theorem exponent_lt {n : Nat} (hn : n + 2 < 2 ^ 64) : (pair n).2 < 63 := (block 63).lt n (by omega)

theorem iterate_succ (n : Nat) : LubySequence.next^[n + 1] new = (LubySequence.next^[n] new).next :=
  Function.iterate_succ_apply' LubySequence.next n new

theorem holds_iterate {n : Nat} (hn : n + 2 < 2 ^ 64) : Holds (LubySequence.next^[n] new) (pair n) := by
  induction n with
  | zero => exact ⟨rfl, rfl⟩
  | succ n ih =>
    have hlt := exponent_lt (n := n) (by omega)
    rw [iterate_succ, pair_succ]
    exact (ih (by omega)).next (pair_dvd n) (by omega)

theorem toNat_current_iterate {n : Nat} (hn : n + 2 < 2 ^ 64) :
    (LubySequence.next^[n] new).current.toBitVec.toNat = luby (n + 1) := by
  have hpow : 2 ^ (pair n).2 < 2 ^ 64 := Nat.pow_lt_pow_right (by omega) (by have := exponent_lt hn; omega)
  rw [current, (holds_iterate hn).v, BitVec.toNat_ofNat, luby_eq, Nat.mod_eq_of_lt hpow]

/-- As long as the elements are 64-bit integers: the element at `2 ^ 64 - 1` is `2 ^ 63`. -/
theorem current_iterate_next {n : Nat} (hn : n + 2 < 2 ^ 64) :
    (LubySequence.next^[n] new).current.toInt = luby (n + 1) := by
  have hlt : 2 * luby (n + 1) < 2 ^ 64 := by
    rw [luby_eq, ← pow_succ']
    exact Nat.pow_lt_pow_right (by omega) (by have := exponent_lt hn; omega)
  have hnat := toNat_current_iterate hn
  rw [← Int64.toInt_toBitVec, BitVec.toInt_eq_toNat_of_lt (by rw [hnat]; exact hlt), hnat]

theorem current_iterate_next_six : (LubySequence.next^[6] new).current.toInt = luby 7 :=
  current_iterate_next (by decide)

end LubySequence

/-! ## The restart policy -/

structure LubyRestartPolicy where
  lubySeq : LubySequence
  conflictsUntilRestart : UInt64
  log2OfScaleFactor : UInt64
  deriving DecidableEq, Repr

namespace LubyRestartPolicy

structure Options where
  graceTime : UInt64 := 10000
  log2OfScaleFactor : UInt64 := 7
  deriving DecidableEq, Repr

/-- `element << log2OfScaleFactor`, converted to `uint64_t`. -/
def scaled (element : Int64) (log2OfScaleFactor : UInt64) : UInt64 :=
  UInt64.ofBitVec (element.toBitVec <<< log2OfScaleFactor.toNat)

def new (options : Options) : LubyRestartPolicy where
  lubySeq := .new
  conflictsUntilRestart :=
    if options.graceTime > 0 then options.graceTime + 1
    else scaled LubySequence.new.current options.log2OfScaleFactor
  log2OfScaleFactor := options.log2OfScaleFactor

def registerConflict (p : LubyRestartPolicy) : LubyRestartPolicy :=
  if p.conflictsUntilRestart > 0 then { p with conflictsUntilRestart := p.conflictsUntilRestart - 1 } else p

def registerRestart (p : LubyRestartPolicy) : LubyRestartPolicy :=
  { p with
    lubySeq := p.lubySeq.next
    conflictsUntilRestart := scaled p.lubySeq.next.current p.log2OfScaleFactor }

def shouldRestart (p : LubyRestartPolicy) : Bool := p.conflictsUntilRestart == 0

end LubyRestartPolicy

structure LubyClient where
  policy : LubyRestartPolicy
  restarts : Nat
  deriving DecidableEq, Repr

namespace LubyClient

open LubyRestartPolicy

def followAdvice (c : LubyClient) : LubyClient :=
  if c.policy.shouldRestart then ⟨c.policy.registerRestart, c.restarts + 1⟩ else c

def conflict (c : LubyClient) : LubyClient := { c.followAdvice with policy := c.followAdvice.policy.registerConflict }

/-- The client when that many conflicts have been registered, before it follows the advice. -/
def after (options : Options) (conflicts : Nat) : LubyClient := conflict^[conflicts] ⟨.new options, 0⟩

theorem after_succ (o : Options) (c : Nat) : after o (c + 1) = (after o c).conflict :=
  Function.iterate_succ_apply' conflict c _

def Advises (options : Options) (n conflicts : Nat) : Prop :=
  (after options conflicts).policy.shouldRestart = true ∧ (after options conflicts).restarts + 1 = n

/-- The grace time and the sum of the scaled elements. -/
def schedule (o : Options) (n : Nat) : Nat := o.graceTime.toNat + 2 ^ o.log2OfScaleFactor.toNat * lubySum n

/-- As far as its values are 64-bit integers, the restarts are advised by the schedule. -/
def FollowsSchedule (o : Options) : Prop :=
  ∀ n ≥ 1, schedule o n < 2 ^ 63 → (∀ c, Advises o n c ↔ c = schedule o n) ∧
    (schedule o (n + 1) < 2 ^ 63 → ∀ c, schedule o n < c → c < schedule o (n + 1) →
      (after o c).policy.shouldRestart = false)

def firstInterval (o : Options) : Nat :=
  if o.graceTime.toNat = 0 then 2 ^ o.log2OfScaleFactor.toNat else o.graceTime.toNat + 1

/-- When the `n`-th restart is advised: no element is used for the grace time. -/
def restartTime (o : Options) (n : Nat) : Nat :=
  firstInterval o + 2 ^ o.log2OfScaleFactor.toNat * (lubySum n - 1)

theorem restartTime_one (o : Options) : restartTime o 1 = firstInterval o := by
  simp [restartTime, lubySum_succ, luby_eq]

theorem restartTime_succ (o : Options) (n : Nat) :
    restartTime o (n + 1 + 1) = restartTime o (n + 1) + 2 ^ o.log2OfScaleFactor.toNat * luby (n + 1 + 1) := by
  have hpos : 1 ≤ lubySum (n + 1) := (Nat.succ_le_succ (Nat.zero_le n)).trans (le_lubySum (n + 1))
  rw [restartTime, restartTime, lubySum_succ (n + 1), Nat.sub_add_comm hpos, Nat.mul_add, ← Nat.add_assoc]

theorem restartTime_lt_succ (o : Options) (n : Nat) : restartTime o (n + 1) < restartTime o (n + 1 + 1) := by
  rw [restartTime_succ]
  exact Nat.lt_add_of_pos_right (Nat.mul_pos (Nat.pow_pos (by omega)) (luby_pos _))

theorem restartTime_strictMono (o : Options) : StrictMono fun n => restartTime o (n + 1) :=
  strictMono_nat_of_lt_succ (restartTime_lt_succ o)

/-- Without a scale, or without a grace time, the element that is left out does not matter. -/
theorem restartTime_eq_schedule {o : Options} (ho : o.graceTime.toNat = 0 ∨ o.log2OfScaleFactor.toNat = 0)
    (n : Nat) :
    restartTime o (n + 1) = schedule o (n + 1) := by
  have hpos : 1 ≤ lubySum (n + 1) := (Nat.succ_le_succ (Nat.zero_le n)).trans (le_lubySum (n + 1))
  obtain ⟨m, hm⟩ : ∃ m, lubySum (n + 1) = m + 1 := ⟨_, (Nat.sub_add_cancel hpos).symm⟩
  unfold restartTime schedule firstInterval
  rw [hm, Nat.add_sub_cancel]
  by_cases hg : o.graceTime.toNat = 0
  · rw [if_pos hg, hg, Nat.mul_add, Nat.mul_one, Nat.zero_add, Nat.add_comm]
  · have hk : o.log2OfScaleFactor.toNat = 0 := ho.resolve_left hg
    rw [if_neg hg, hk, pow_zero]
    omega

/-! ## The countdown -/

structure Counting (o : Options) (conflicts : Nat) (c : LubyClient) : Prop where
  lubySeq : c.policy.lubySeq = LubySequence.next^[c.restarts] .new
  log2OfScaleFactor : c.policy.log2OfScaleFactor = o.log2OfScaleFactor
  countdown : conflicts + c.policy.conflictsUntilRestart.toNat = restartTime o (c.restarts + 1)
  passed : ∀ n, c.restarts = n + 1 → restartTime o (n + 1) < conflicts

theorem shouldRestart_iff {p : LubyRestartPolicy} : p.shouldRestart = true ↔ p.conflictsUntilRestart.toNat = 0 := by
  rw [shouldRestart, beq_iff_eq, ← UInt64.toNat_inj]
  rfl

theorem toNat_scaled {n : Nat} {k : UInt64} (hn : n + 2 < 2 ^ 64) (h : 2 ^ k.toNat * luby (n + 1) < 2 ^ 64) :
    (scaled (LubySequence.next^[n] .new).current k).toNat = 2 ^ k.toNat * luby (n + 1) := by
  show ((LubySequence.next^[n] .new).current.toBitVec <<< k.toNat).toNat = _
  rw [BitVec.toNat_shiftLeft, LubySequence.toNat_current_iterate hn, Nat.shiftLeft_eq, Nat.mul_comm,
    Nat.mod_eq_of_lt h]

theorem restarts_mono (o : Options) : Monotone fun c => (after o c).restarts := by
  apply monotone_nat_of_le_succ
  intro c
  show (after o c).restarts ≤ (after o (c + 1)).restarts
  rw [after_succ, LubyClient.conflict, followAdvice]
  split
  · exact Nat.le_succ _
  · exact le_rfl

variable {o : Options} (hfit : o.graceTime.toNat + 2 ^ o.log2OfScaleFactor.toNat < 2 ^ 63)
include hfit

theorem counting_new : Counting o 0 ⟨.new o, 0⟩ where
  lubySeq := rfl
  log2OfScaleFactor := rfl
  countdown := by
    rw [Nat.zero_add, restartTime_one, firstInterval]
    unfold LubyRestartPolicy.new
    by_cases hg : o.graceTime.toNat = 0
    · have hn : ¬ o.graceTime > 0 := by
        rw [gt_iff_lt, UInt64.lt_iff_toNat_lt, hg]
        exact Nat.lt_irrefl 0
      have hl : luby 1 = 1 := luby_eq 0
      have hone := toNat_scaled (n := 0) (k := o.log2OfScaleFactor) (by omega) (by rw [hl]; omega)
      rw [hl, Nat.mul_one] at hone
      rw [if_pos hg]
      simp only [hn, if_false]
      exact hone
    · have hp : o.graceTime > 0 := UInt64.lt_iff_toNat_lt.mpr (Nat.pos_of_ne_zero hg)
      have hpow : 0 < 2 ^ o.log2OfScaleFactor.toNat := Nat.pow_pos (by omega)
      have hlt : o.graceTime.toNat + 1 < 2 ^ 64 := by omega
      rw [if_neg hg]
      simp only [hp, if_true]
      rw [UInt64.toNat_add, UInt64.toNat_one, Nat.mod_eq_of_lt hlt]
  passed n hn := absurd hn (Nat.succ_ne_zero n).symm

/-- The next element neither leaves the range of the sequence nor overflows when it is scaled. -/
theorem scaled_fits {r : Nat} (hr : restartTime o (r + 1) < 2 ^ 63) : r + 1 + 2 < 2 ^ 64 ∧
    2 ^ o.log2OfScaleFactor.toNat * luby (r + 1 + 1) < 2 ^ 64 := by
  have hsum := le_lubySum (r + 1)
  have hle : lubySum (r + 1) - 1 ≤ 2 ^ o.log2OfScaleFactor.toNat * (lubySum (r + 1) - 1) :=
    Nat.le_mul_of_pos_left _ (Nat.pow_pos (by omega))
  have hmul : 2 ^ o.log2OfScaleFactor.toNat * lubySum (r + 1) =
      2 ^ o.log2OfScaleFactor.toNat * (lubySum (r + 1) - 1) + 2 ^ o.log2OfScaleFactor.toNat := by
    rw [← Nat.mul_succ, Nat.succ_eq_add_one, Nat.sub_add_cancel (by omega)]
  have hnext : 2 ^ o.log2OfScaleFactor.toNat * luby (r + 1 + 1) ≤ 2 ^ o.log2OfScaleFactor.toNat * lubySum (r + 1) :=
    Nat.mul_le_mul_left _ (luby_le_lubySum r)
  unfold restartTime at hr
  omega

theorem Counting.conflict {n : Nat} {c : LubyClient} (h : Counting o n c) (hn : n < 2 ^ 63) :
    Counting o (n + 1) c.conflict := by
  unfold LubyClient.conflict LubyClient.followAdvice registerConflict
  cases hs : c.policy.shouldRestart with
  | true =>
    have hzero := shouldRestart_iff.mp hs
    have htime : restartTime o (c.restarts + 1) = n := by
      rw [← h.countdown, hzero, Nat.add_zero]
    obtain ⟨hrange, hscaled⟩ := scaled_fits hfit (htime ▸ hn)
    -- the countdown starts again
    have hseq : c.policy.lubySeq.next = LubySequence.next^[c.restarts + 1] .new := by
      rw [h.lubySeq, LubySequence.iterate_succ]
    have hcount : (c.policy.registerRestart).conflictsUntilRestart.toNat =
        2 ^ o.log2OfScaleFactor.toNat * luby (c.restarts + 1 + 1) := by
      rw [← toNat_scaled hrange hscaled, registerRestart, hseq, h.log2OfScaleFactor]
    have hpos : 0 < 2 ^ o.log2OfScaleFactor.toNat * luby (c.restarts + 1 + 1) :=
      Nat.mul_pos (Nat.pow_pos (by omega)) (luby_pos _)
    have hgt : c.policy.registerRestart.conflictsUntilRestart > 0 := UInt64.lt_iff_toNat_lt.mpr (hcount ▸ hpos)
    have htop := hcount ▸ hpos
    simp only [if_true, hgt]
    refine ⟨hseq, h.log2OfScaleFactor, ?_, fun m hm => ?_⟩
    · show n + 1 + (c.policy.registerRestart.conflictsUntilRestart - 1).toNat = _
      have hone : (1 : UInt64) ≤ c.policy.registerRestart.conflictsUntilRestart := UInt64.le_iff_toNat_le.mpr htop
      rw [UInt64.toNat_sub_of_le _ _ hone, restartTime_succ, htime, hcount, UInt64.toNat_one]
      omega
    · obtain rfl : c.restarts = m := Nat.succ.inj hm
      rw [htime]
      exact Nat.lt_succ_self n
  | false =>
    have hne : c.policy.conflictsUntilRestart.toNat ≠ 0 :=
      fun hz => by rw [shouldRestart_iff.mpr hz] at hs; cases hs
    have hpos := Nat.pos_of_ne_zero hne
    have hgt : c.policy.conflictsUntilRestart > 0 := UInt64.lt_iff_toNat_lt.mpr hpos
    simp only [hgt, if_true, Bool.false_eq_true, if_false]
    refine ⟨h.lubySeq, h.log2OfScaleFactor, ?_, fun m hm => (h.passed m hm).trans (Nat.lt_succ_self n)⟩
    show n + 1 + (c.policy.conflictsUntilRestart - 1).toNat = _
    have hone : (1 : UInt64) ≤ c.policy.conflictsUntilRestart := UInt64.le_iff_toNat_le.mpr hpos
    rw [UInt64.toNat_sub_of_le _ _ hone, ← h.countdown, UInt64.toNat_one]
    omega

theorem counting_after {n : Nat} (hn : n ≤ 2 ^ 63) : Counting o n (after o n) := by
  induction n with
  | zero => exact counting_new hfit
  | succ n ih => exact after_succ o n ▸ (ih (by omega)).conflict hfit (by omega)

/-- The restarts as the code advises them, whatever the options. -/
theorem advises_iff {n c : Nat} (hc : c ≤ 2 ^ 63) : Advises o (n + 1) c ↔ c = restartTime o (n + 1) := by
  have h := counting_after hfit hc
  have hcount := h.countdown
  constructor
  · intro ⟨hs, hr⟩
    rw [← Nat.succ.inj hr, ← hcount, shouldRestart_iff.mp hs, Nat.add_zero]
  · intro he
    have hr : (after o c).restarts = n := by
      apply Nat.le_antisymm
      · by_contra hlt
        obtain ⟨m, hm⟩ : ∃ m, (after o c).restarts = m + 1 := Nat.exists_eq_succ_of_ne_zero (by omega)
        have hpassed := h.passed m hm
        have hle := (restartTime_strictMono o).monotone (show n ≤ m by omega)
        exact absurd (he ▸ hpassed) (Nat.not_lt.mpr hle)
      · apply (restartTime_strictMono o).le_iff_le.mp
        show restartTime o (n + 1) ≤ restartTime o ((after o c).restarts + 1)
        omega
    rw [hr] at hcount
    exact ⟨shouldRestart_iff.mpr (by omega), by rw [hr]⟩

theorem advises_iff_of_lt {n : Nat} (hn : restartTime o (n + 1) < 2 ^ 63) (c : Nat) :
    Advises o (n + 1) c ↔ c = restartTime o (n + 1) := by
  by_cases hc : c ≤ 2 ^ 63
  · exact advises_iff hfit hc
  · refine ⟨fun ⟨_, hr⟩ => ?_, fun he => absurd he (by omega)⟩
    have hadv : Advises o (n + 1) (restartTime o (n + 1)) := (advises_iff hfit hn.le).mpr rfl
    have hnext : (after o (restartTime o (n + 1) + 1)).restarts = n + 1 := by
      rw [after_succ, LubyClient.conflict, followAdvice, if_pos hadv.1]
      exact hadv.2
    have hmono := restarts_mono o (show restartTime o (n + 1) + 1 ≤ c by omega)
    simp only [hnext] at hmono
    omega

theorem shouldRestart_between {n c : Nat} (hc : restartTime o (n + 1) < c) (hlt : c < restartTime o (n + 1 + 1))
    (hn : restartTime o (n + 1 + 1) < 2 ^ 63) : (after o c).policy.shouldRestart = false := by
  by_contra hs
  have hadv : Advises o ((after o c).restarts + 1) c := ⟨Bool.eq_true_of_not_eq_false hs, rfl⟩
  have he := (advises_iff hfit (by omega)).mp hadv
  have hlow := (restartTime_strictMono o).lt_iff_lt.mp (show restartTime o (n + 1) < _ from he ▸ hc)
  have hhigh := (restartTime_strictMono o).lt_iff_lt.mp (show _ < restartTime o (n + 1 + 1) from he ▸ hlt)
  omega

omit hfit

/-- The constructor does not scale the element after the grace time. -/
theorem followsSchedule_iff (o : Options) : FollowsSchedule o ↔ o.graceTime.toNat = 0 ∨
    o.log2OfScaleFactor.toNat = 0 ∨ 2 ^ 63 ≤ o.graceTime.toNat + 2 ^ o.log2OfScaleFactor.toNat := by
  have hone : schedule o 1 = o.graceTime.toNat + 2 ^ o.log2OfScaleFactor.toNat := by
    simp [schedule, lubySum_succ, luby_eq]
  constructor
  · intro h
    by_contra hno
    rw [not_or, not_or, Nat.not_le] at hno
    obtain ⟨hg, hk, hfit⟩ := hno
    have htime : restartTime o 1 = o.graceTime.toNat + 1 := by rw [restartTime_one, firstInterval, if_neg hg]
    have htwo : 2 ^ 1 ≤ 2 ^ o.log2OfScaleFactor.toNat := Nat.pow_le_pow_right (by omega) (by omega)
    have hadv : Advises o 1 (o.graceTime.toNat + 1) := (advises_iff hfit (by omega)).mpr htime.symm
    have he := ((h 1 le_rfl (hone ▸ hfit)).1 _).mp hadv
    omega
  · intro h n hn hlt
    obtain ⟨m, rfl⟩ := Nat.exists_eq_add_of_le' hn
    have hfit : o.graceTime.toNat + 2 ^ o.log2OfScaleFactor.toNat < 2 ^ 63 := by
      have hsum := le_lubySum (m + 1)
      have hle := Nat.le_mul_of_pos_right (2 ^ o.log2OfScaleFactor.toNat) (show 0 < lubySum (m + 1) by omega)
      unfold schedule at hlt
      omega
    have ho : o.graceTime.toNat = 0 ∨ o.log2OfScaleFactor.toNat = 0 := by omega
    rw [← restartTime_eq_schedule ho, ← restartTime_eq_schedule ho] at *
    exact ⟨fun c => advises_iff_of_lt hfit hlt c, fun hnext c hc hc' => shouldRestart_between hfit hc hc' hnext⟩

/-- With a grace time of 4 and a scale factor of 2, the first restart is advised after 5
conflicts and not after 6. -/
theorem not_followsSchedule : ¬ FollowsSchedule ⟨4, 1⟩ := by
  intro h
  have hone : schedule ⟨4, 1⟩ 1 = 6 := by simp [schedule, lubySum_succ, luby_eq]
  have hadv : Advises ⟨4, 1⟩ 1 5 := by constructor <;> decide
  have he := ((h 1 le_rfl (by rw [hone]; omega)).1 5).mp hadv
  omega

end LubyClient

end JamSAT
