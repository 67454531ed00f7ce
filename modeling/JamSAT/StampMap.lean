import Mathlib.Data.BitVec
import Mathlib.Logic.Function.Basic

/-!
# Stamp maps

A cell is stamped when it holds the current stamp. A context that ends moves on to the
next stamp; after the last stamp of the type all cells are reset.
-/

namespace JamSAT

structure StampType where
  signed : Bool
  width : Nat
  width_ge : 8 ≤ width

namespace StampType

variable (T : StampType)

abbrev Value : Type := BitVec T.width

def min : T.Value := if T.signed then BitVec.intMin T.width else 0

def max : T.Value := if T.signed then BitVec.intMax T.width else BitVec.allOnes T.width

def rank (x : T.Value) : Nat := (x - T.min).toNat

end StampType

structure StampMap (T : StampType) where
  stamps : List T.Value
  currentStamp : T.Value
  contextActive : Bool
  deriving DecidableEq, Repr

inductive StampEvent {κ : Type} (K : κ → Type)
  | createContext
  | setStamped (i : κ) (obj : K i) (stamped : Bool)
  | isStamped (i : κ) (obj : K i)
  | increaseSizeTo (maxIdx : Nat)
  | endContext

namespace StampMap

variable {T : StampType} {κ : Type} {K : κ → Type} (getIndex : ∀ i, K i → Nat)

def new (T : StampType) (maxIdx : Nat) : StampMap T := ⟨List.replicate (maxIdx + 1) 0, 0 + 1, false⟩

/-! The functions return `none` where an assertion fails. -/

def createContext (m : StampMap T) : Option (T.Value × StampMap T) :=
  if m.contextActive then none else some (m.currentStamp, { m with contextActive := true })

def increaseSizeTo (m : StampMap T) (maxIdx : Nat) : Option (StampMap T) :=
  if m.stamps.length ≤ maxIdx + 1 then
    some { m with stamps := m.stamps ++ List.replicate (maxIdx + 1 - m.stamps.length) T.min }
  else none

def clear (m : StampMap T) : StampMap T :=
  if m.currentStamp = T.max then ⟨m.stamps.map fun _ => T.min, T.min + 1, false⟩
  else ⟨m.stamps, m.currentStamp + 1, false⟩

def setStamped (m : StampMap T) (i : κ) (obj : K i) (stamp : T.Value) (stamped : Bool) : Option (StampMap T) :=
  if stamp = m.currentStamp ∧ getIndex i obj < m.stamps.length then
    some { m with stamps := m.stamps.set (getIndex i obj) (if stamped then stamp else T.min) }
  else none

def isStamped (m : StampMap T) (i : κ) (obj : K i) (stamp : T.Value) : Option Bool :=
  if stamp = m.currentStamp then m.stamps[getIndex i obj]?.map fun x => x == stamp else none

end StampMap

structure StampClient (T : StampType) where
  map : StampMap T
  context : Option T.Value
  deriving DecidableEq, Repr

namespace StampClient

variable {T : StampType} {κ : Type} {K : κ → Type} (getIndex : ∀ i, K i → Nat)

def new (T : StampType) (maxIdx : Nat) : StampClient T := ⟨.new T maxIdx, none⟩

/-- There is one context at a time, stamps are set and read within it and within the size, and the
size is only increased. -/
def Legal (c : StampClient T) : StampEvent K → Prop
  | .createContext => c.context = none
  | .setStamped i obj _ | .isStamped i obj => c.context.isSome = true ∧ getIndex i obj < c.map.stamps.length
  | .increaseSizeTo maxIdx => c.map.stamps.length ≤ maxIdx + 1
  | .endContext => c.context.isSome = true

def step (c : StampClient T) : StampEvent K → Option (StampClient T)
  | .createContext => c.map.createContext.map fun r => ⟨r.2, some r.1⟩
  | .setStamped i obj stamped =>
    c.context.bind fun stamp => (c.map.setStamped getIndex i obj stamp stamped).map fun m => { c with map := m }
  | .isStamped i obj => c.context.bind fun stamp => (c.map.isStamped getIndex i obj stamp).map fun _ => c
  | .increaseSizeTo maxIdx => (c.map.increaseSizeTo maxIdx).map fun m => { c with map := m }
  | .endContext => some ⟨c.map.clear, none⟩

/-- The runs of a new map, with the latest event first. -/
inductive Run (maxIdx : Nat) : List (StampEvent K) → StampClient T → Prop
  | new : Run maxIdx [] (.new T maxIdx)
  | step {events : List (StampEvent K)} {c c' : StampClient T} {e : StampEvent K} (h : Run maxIdx events c)
      (legal : c.Legal getIndex e) (hs : c.step getIndex e = some c') : Run maxIdx (e :: events) c'

/-- What was passed last for the index in the context, with the latest event first. -/
def lastSet : List (StampEvent K) → Nat → Bool
  | .setStamped i obj stamped :: events, index =>
    if getIndex i obj = index then stamped else lastSet events index
  | .isStamped _ _ :: events, index | .increaseSizeTo _ :: events, index => lastSet events index
  | .createContext :: _, _ | .endContext :: _, _ | [], _ => false

end StampClient

/-! ## Stamps in their order -/

namespace StampType

variable {T : StampType}

@[simp] theorem rank_min : T.rank T.min = 0 := by simp [rank]

theorem one_lt : 1 < 2 ^ (T.width - 1) := Nat.one_lt_two_pow (by have := T.width_ge; omega)

theorem two_pow_width : 2 ^ T.width = 2 ^ (T.width - 1) * 2 := by
  rw [← Nat.pow_succ, Nat.succ_eq_add_one, Nat.sub_add_cancel (by have := T.width_ge; omega)]

theorem toNat_one : (1 : T.Value).toNat = 1 := by
  have hone := one_lt (T := T)
  show (1#T.width).toNat = 1
  rw [BitVec.toNat_ofNat, Nat.mod_eq_of_lt (by rw [two_pow_width]; omega)]

theorem max_eq : T.max = T.min - 1 := by
  unfold max min
  cases T.signed with
  | true =>
    have hone := one_lt (T := T)
    have hmin : (BitVec.intMin T.width).toNat = 2 ^ (T.width - 1) := by
      rw [BitVec.toNat_intMin, two_pow_width, Nat.mod_eq_of_lt (by omega)]
    have hle : (1 : T.Value) ≤ BitVec.intMin T.width := by
      rw [BitVec.le_def, toNat_one, hmin]
      omega
    apply BitVec.eq_of_toNat_eq
    rw [if_pos rfl, if_pos rfl, BitVec.toNat_intMax, BitVec.toNat_sub_of_le hle, toNat_one, hmin]
  | false => simp [BitVec.neg_one_eq_allOnes]

theorem rank_succ {x : T.Value} (h : x ≠ T.max) : T.rank (x + 1) = T.rank x + 1 := by
  have hne : x - T.min ≠ BitVec.allOnes T.width := by
    intro he
    apply h
    rw [max_eq, ← sub_add_cancel x T.min, he, ← BitVec.neg_one_eq_allOnes, add_comm, ← sub_eq_add_neg]
    rfl
  have htop : (x - T.min).toNat ≠ 2 ^ T.width - 1 := by
    intro he
    apply hne
    apply BitVec.eq_of_toNat_eq
    rw [he, BitVec.toNat_allOnes]
  have hbound := (x - T.min).isLt
  unfold rank
  rw [add_sub_right_comm, BitVec.toNat_add, toNat_one, Nat.mod_eq_of_lt (by omega)]

theorem min_ne_max : T.min ≠ T.max := by
  rw [max_eq]
  intro h
  have hzero : (1 : T.Value).toNat = (0 : T.Value).toNat := congrArg BitVec.toNat (sub_eq_self.mp h.symm)
  rw [toNat_one] at hzero
  simp at hzero

theorem zero_ne_max : (0 : T.Value) ≠ T.max := by
  have hone := one_lt (T := T)
  unfold max
  intro h
  have hnat := congrArg BitVec.toNat h
  cases hs : T.signed with
  | true =>
    rw [hs, if_pos rfl, BitVec.toNat_intMax] at hnat
    simp at hnat
    omega
  | false =>
    rw [hs, if_neg Bool.false_ne_true, BitVec.toNat_allOnes, two_pow_width] at hnat
    simp at hnat
    omega

end StampType

/-! ## The stamps of a run -/

namespace StampClient

variable {T : StampType} {κ : Type} {K : κ → Type} {getIndex : ∀ i, K i → Nat} {maxIdx : Nat}
  {events : List (StampEvent K)} {c c' : StampClient T}

/-- The stamped cells hold the current stamp, the other ones hold less than it. -/
structure Inv (getIndex : ∀ i, K i → Nat) (events : List (StampEvent K)) (c : StampClient T) : Prop where
  contextActive : c.map.contextActive = c.context.isSome
  context : ∀ stamp, c.context = some stamp → stamp = c.map.currentStamp
  outside : c.context = none → ∀ index, lastSet getIndex events index = false
  stamped : ∀ index, c.map.stamps[index]? = some c.map.currentStamp ↔ lastSet getIndex events index = true
  older : ∀ x ∈ c.map.stamps, T.rank x ≤ T.rank c.map.currentStamp
  pos : 0 < T.rank c.map.currentStamp

theorem inv_new : Inv getIndex [] (.new T maxIdx) where
  contextActive := rfl
  context stamp h := by cases h
  outside _ _ := rfl
  stamped index := by
    have hne : (0 : T.Value) ≠ 0 + 1 := by
      intro h
      have hr := StampType.rank_succ (StampType.zero_ne_max (T := T))
      rw [← h] at hr
      omega
    refine ⟨fun h => ?_, fun h => by cases h⟩
    exact absurd (List.eq_of_mem_replicate (List.mem_of_getElem? h)).symm hne
  older x hx := by
    rw [List.eq_of_mem_replicate hx]
    show T.rank 0 ≤ T.rank (0 + 1)
    rw [StampType.rank_succ StampType.zero_ne_max]
    exact Nat.le_succ _
  pos := by
    show 0 < T.rank (0 + 1)
    rw [StampType.rank_succ StampType.zero_ne_max]
    exact Nat.succ_pos _

section
variable (h : Inv getIndex events c)
include h

theorem Inv.min_ne : T.min ≠ c.map.currentStamp := by
  intro he
  have hpos := h.pos
  rw [← he, StampType.rank_min] at hpos
  exact absurd hpos (Nat.lt_irrefl 0)

theorem Inv.createContext (hc : c.context = none) :
    ∃ c', c.step getIndex .createContext = some c' ∧ Inv getIndex (.createContext :: events) c' := by
  have hfree : c.map.contextActive = false := by rw [h.contextActive, hc]; rfl
  refine ⟨⟨{ c.map with contextActive := true }, some c.map.currentStamp⟩, ?_, rfl, ?_, ?_, ?_, h.older, h.pos⟩
  · simp [step, StampMap.createContext, hfree]
  · intro stamp hs
    exact (Option.some.inj hs).symm
  · intro hn
    cases hn
  · intro index
    rw [h.stamped, h.outside hc]
    exact Iff.rfl

theorem Inv.setStamped {i : κ} {obj : K i} {b : Bool} (hc : c.context.isSome = true)
    (hlt : getIndex i obj < c.map.stamps.length) : ∃ c', c.step getIndex (.setStamped i obj b) = some c' ∧
      Inv getIndex (.setStamped i obj b :: events) c' := by
  obtain ⟨stamp, hstamp⟩ := Option.isSome_iff_exists.mp hc
  obtain rfl := h.context stamp hstamp
  have hstep : c.step getIndex (.setStamped i obj b) = some { c with map := { c.map with
      stamps := c.map.stamps.set (getIndex i obj) (if b then c.map.currentStamp else T.min) } } := by
    simp [step, StampMap.setStamped, hstamp, hlt]
  refine ⟨_, hstep, h.contextActive, h.context, fun hn => ?_, fun index => ?_, fun x hx => ?_, h.pos⟩
  · rw [hstamp] at hn
    cases hn
  · show (c.map.stamps.set _ _)[index]? = _ ↔ (if getIndex i obj = index then b else _) = true
    by_cases he : getIndex i obj = index
    · rw [if_pos he, ← he, List.getElem?_set_self hlt]
      cases b with
      | true => simp
      | false => simp [h.min_ne]
    · rw [if_neg he, List.getElem?_set_ne he, h.stamped]
  · cases List.mem_or_eq_of_mem_set hx with
    | inl hx => exact h.older x hx
    | inr hx =>
      rw [hx]
      cases b with
      | true => exact le_rfl
      | false => exact StampType.rank_min (T := T) ▸ Nat.zero_le _

theorem Inv.isStamped {i : κ} (obj : K i) {stamp : T.Value} (hc : c.context = some stamp)
    (hlt : getIndex i obj < c.map.stamps.length) :
    c.map.isStamped getIndex i obj stamp = some (lastSet getIndex events (getIndex i obj)) := by
  obtain rfl := h.context stamp hc
  have hget := List.getElem?_eq_getElem hlt
  have hiff := h.stamped (getIndex i obj)
  rw [hget, Option.some.injEq] at hiff
  rw [StampMap.isStamped, if_pos rfl, hget, Option.map_some, Option.some.injEq, Bool.eq_iff_iff, beq_iff_eq, hiff]

theorem Inv.increaseSizeTo {n : Nat} (hle : c.map.stamps.length ≤ n + 1) :
    ∃ c', c.step getIndex (.increaseSizeTo n) = some c' ∧ Inv getIndex (.increaseSizeTo n :: events) c' := by
  have hstep : c.step getIndex (.increaseSizeTo n) = some { c with map := { c.map with
      stamps := c.map.stamps ++ List.replicate (n + 1 - c.map.stamps.length) T.min } } := by
    simp [step, StampMap.increaseSizeTo, hle]
  refine ⟨_, hstep, h.contextActive, h.context, h.outside, fun index => ?_, fun x hx => ?_, h.pos⟩
  · show (c.map.stamps ++ _)[index]? = _ ↔ lastSet getIndex events index = true
    rw [← h.stamped]
    by_cases hlt : index < c.map.stamps.length
    · rw [List.getElem?_append_left hlt]
    · -- a new cell has not been stamped
      rw [List.getElem?_append_right (Nat.le_of_not_lt hlt), List.getElem?_eq_none (Nat.le_of_not_lt hlt)]
      refine ⟨fun hm => ?_, fun hn => by cases hn⟩
      exact absurd (List.eq_of_mem_replicate (List.mem_of_getElem? hm)).symm h.min_ne
  · cases List.mem_append.mp hx with
    | inl hx => exact h.older x hx
    | inr hx =>
      rw [List.eq_of_mem_replicate hx, StampType.rank_min]
      exact Nat.zero_le _

end

theorem inv_freshStamp {stamps : List T.Value} {next : T.Value} (hlt : ∀ x ∈ stamps, T.rank x < T.rank next)
    (hpos : 0 < T.rank next) : Inv getIndex (.endContext :: events) ⟨⟨stamps, next, false⟩, none⟩ where
  contextActive := rfl
  context stamp hs := by cases hs
  outside _ _ := rfl
  stamped index := by
    refine ⟨fun hm => ?_, fun hn => by cases hn⟩
    exact absurd (hlt _ (List.mem_of_getElem? hm)) (Nat.lt_irrefl _)
  older x hx := (hlt x hx).le
  pos := hpos

theorem Inv.endContext (h : Inv getIndex events c) : Inv getIndex (.endContext :: events) ⟨c.map.clear, none⟩ := by
  unfold StampMap.clear
  split
  · have hnext := StampType.rank_succ (StampType.min_ne_max (T := T))
    rw [StampType.rank_min] at hnext
    apply inv_freshStamp
    · intro x hx
      obtain ⟨_, -, rfl⟩ := List.mem_map.mp hx
      rw [hnext, StampType.rank_min]
      exact Nat.zero_lt_one
    · rw [hnext]
      exact Nat.zero_lt_one
  · rename_i hne
    have hnext := StampType.rank_succ hne
    apply inv_freshStamp
    · intro x hx
      rw [hnext]
      exact Nat.lt_succ_of_le (h.older x hx)
    · rw [hnext]
      exact Nat.succ_pos _

theorem Inv.step {e : StampEvent K} (h : Inv getIndex events c) (legal : c.Legal getIndex e) :
    ∃ c', c.step getIndex e = some c' ∧ Inv getIndex (e :: events) c' := by
  cases e with
  | createContext => exact h.createContext legal
  | setStamped i obj b => exact h.setStamped legal.1 legal.2
  | isStamped i obj =>
    obtain ⟨stamp, hstamp⟩ := Option.isSome_iff_exists.mp legal.1
    refine ⟨c, ?_, h.contextActive, h.context, h.outside, h.stamped, h.older, h.pos⟩
    simp [StampClient.step, hstamp, h.isStamped obj hstamp legal.2]
  | increaseSizeTo n => exact h.increaseSizeTo legal
  | endContext => exact ⟨_, rfl, h.endContext⟩

theorem Run.inv (h : Run getIndex maxIdx events c) : Inv getIndex events c := by
  induction h with
  | new => exact inv_new
  | step _ legal hs ih =>
    obtain ⟨c', hs', hi⟩ := ih.step legal
    rw [hs] at hs'
    cases hs'
    exact hi

/-- In every run of a stamp map no assertion fails, and a key is stamped if and only if the last
stamping of its index in the context says so. -/
theorem isStamped_exact (h : Run getIndex maxIdx events c) :
    (∀ e : StampEvent K, c.Legal getIndex e → (c.step getIndex e).isSome = true) ∧
    ∀ stamp, c.context = some stamp → ∀ i (obj : K i), getIndex i obj < c.map.stamps.length →
      c.map.isStamped getIndex i obj stamp = some (lastSet getIndex events (getIndex i obj)) := by
  constructor
  · intro e legal
    obtain ⟨c', hs, -⟩ := h.inv.step legal
    rw [hs]
    rfl
  · intro stamp hstamp i obj hlt
    exact h.inv.isStamped obj hstamp hlt

theorem isStamped_exact_uint8 :
    (⟨[0, 0, 1], 1, true⟩ : StampMap ⟨false, 8, le_rfl⟩).isStamped (fun (_ : Unit) n => n) () 2 1 = some true := by
  let T : StampType := ⟨false, 8, le_rfl⟩
  have hcreated : Run (fun (_ : Unit) (n : Nat) => n) 2 [.createContext]
      (⟨⟨[0, 0, 0], 1, true⟩, some 1⟩ : StampClient T) := by
    refine Run.step .new ?_ ?_
    · rfl
    · rfl
  have hstamped : Run (fun (_ : Unit) (n : Nat) => n) 2 [.setStamped () 2 true, .createContext]
      (⟨⟨[0, 0, 1], 1, true⟩, some 1⟩ : StampClient T) := by
    refine Run.step hcreated ?_ ?_
    · exact ⟨rfl, by decide⟩
    · rfl
  exact (isStamped_exact hstamped).2 1 rfl () 2 (by decide)

end StampClient

end JamSAT
