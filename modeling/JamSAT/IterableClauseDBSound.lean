import JamSAT.IterableClauseDB
import JamSAT.Runs
import Mathlib.Data.List.Forall2

/-!
# The clause database loses and duplicates nothing

The clauses of a region lie one behind the other from its start to the next free cell. A
clause keeps its initial size when it is shrunk, as long as that size fits the literal that
stores it.
-/

namespace JamSAT

namespace IterableClauseDB

/-! ## Sizes -/

theorem getAllocationSize_eq {n : Nat} (h : 1 ≤ n) :
    Clause.getAllocationSize n = (20 + 4 * n + 7) / 8 * 8 := by
  unfold Clause.getAllocationSize sizeofClause sizeofCNFLit alignofClause
  rw [if_neg (Nat.ne_of_gt h)]
  dsimp only
  split <;> omega

theorem getAllocationSize_dvd {n : Nat} (h : 1 ≤ n) : 8 ∣ Clause.getAllocationSize n := by
  rw [getAllocationSize_eq h]
  exact Nat.dvd_mul_left 8 _

theorem le_getAllocationSize {n : Nat} (h : 1 ≤ n) : sizeofClause ≤ Clause.getAllocationSize n := by
  rw [getAllocationSize_eq h]
  unfold sizeofClause
  omega

theorem getAllocationSize_mono {m n : Nat} (h : 1 ≤ m) (hmn : m ≤ n) :
    Clause.getAllocationSize m ≤ Clause.getAllocationSize n := by
  rw [getAllocationSize_eq h, getAllocationSize_eq (h.trans hmn)]
  omega

theorem align_eq {size ptr space : Nat} (h : 8 ∣ ptr) :
    align alignofClause size ptr space = if space < size then none else some (ptr, space) := by
  unfold align alignofClause
  have hp : (8 - ptr % 8) % 8 = 0 := by omega
  dsimp only
  rw [hp]
  rfl

/-! ## Clause objects -/

structure Clause.Valid (c : Clause) : Prop where
  pos : 1 ≤ c.m_size
  le : c.m_size ≤ c.initialSize

theorem Clause.constructIn_valid {n : Nat} (h : 1 ≤ n) (u : Nat → CNFLit) :
    (constructIn n u).Valid ∧ (constructIn n u).initialSize = n :=
  ⟨⟨h, Nat.le_refl _⟩, rfl⟩

section
variable {c : Clause}

theorem Clause.initialSize_shrunk {n : Nat} (hn : n < c.m_size) :
    (c.resize n).initialSize = c.initialSize % 2147483648 := by
  unfold resize
  rw [if_neg (Nat.ne_of_lt hn)]
  show ((Function.update c.m_anchor n (sizeLiteral c.initialSize)) n).var = _
  rw [Function.update_self]
  rfl

theorem Clause.initialSize_resize {n : Nat} (hn : n < c.m_size → c.initialSize < 2147483648) (hle : n ≤ c.m_size) :
    (c.resize n).initialSize = c.initialSize := by
  by_cases he : n = c.m_size
  · unfold resize
    rw [if_pos he]
  · have hlt := Nat.lt_of_le_of_ne hle he
    rw [initialSize_shrunk hlt, Nat.mod_eq_of_lt (hn hlt)]

theorem Clause.value_resize {n : Nat} (hle : n ≤ c.m_size) :
    (c.resize n).value = { c.value with lits := c.value.lits.take n } := by
  unfold resize
  split
  · rename_i he
    subst he
    have : c.value.lits.take c.m_size = c.value.lits := by
      apply List.take_of_length_le
      unfold value
      rw [List.length_map, List.length_range]
    rw [this]
  · unfold value
    dsimp only
    rw [← List.map_take, List.take_range, Nat.min_eq_left hle]
    congr 1
    apply List.map_congr_left
    intro i hi
    exact Function.update_of_ne (Nat.ne_of_lt (List.mem_range.mp hi)) _ _

theorem Clause.value_write (i : Nat) (l : CNFLit) :
    (c.write i l).value = { c.value with lits := c.value.lits.set i l } := by
  unfold write value
  dsimp only
  congr 1
  apply List.ext_getElem
  · simp
  · intro j _ _
    simp only [List.getElem_map, List.getElem_range, List.getElem_set]
    by_cases hij : i = j
    · subst hij
      simp
    · rw [if_neg hij, Function.update_of_ne (Ne.symm hij)]

theorem Clause.length_value : c.value.lits.length = c.m_size := by
  unfold value
  rw [List.length_map, List.length_range]

theorem Clause.assign_eq {d : Clause} (h : d.m_size = c.m_size) : d.assign c = { d with
    m_lbd := c.m_lbd
    m_flags := c.m_flags
    m_anchor := fun i => if i < c.m_size then c.m_anchor i else d.m_anchor i } := by
  unfold assign resize
  simp [h]

theorem Clause.assign_value {d : Clause} (h : d.m_size = c.m_size) : (d.assign c).value = c.value := by
  rw [assign_eq h]
  unfold value
  dsimp only
  rw [h]
  congr 1
  apply List.map_congr_left
  intro i hi
  exact if_pos (List.mem_range.mp hi)

def Clause.compressed (c : Clause) : Clause := (constructIn c.m_size default).assign c

theorem Clause.compressed_value (c : Clause) : c.compressed.value = c.value := assign_value rfl

theorem Clause.assign_constructIn (hv : c.Valid) (u : Nat → CNFLit) :
    ((constructIn c.m_size u).assign c).Valid ∧ ((constructIn c.m_size u).assign c).initialSize = c.m_size := by
  rw [assign_eq (show (constructIn c.m_size u).m_size = c.m_size from rfl)]
  exact ⟨⟨hv.pos, Nat.le_refl _⟩, rfl⟩

theorem Edit.apply_spec (hv : c.Valid) {e : Edit} (ha : e.Allowed c.m_size)
    (hn : ∀ n, e = .resize n → n < c.m_size → c.initialSize < 2147483648) :
    (e.apply c).Valid ∧ (e.apply c).initialSize = c.initialSize ∧ (e.apply c).value = e.applyValue c.value := by
  cases e with
  | write i l =>
    have hi : (c.write i l).initialSize = c.initialSize := by
      unfold Clause.initialSize Clause.write
      dsimp only
      rw [Function.update_of_ne (Nat.ne_of_gt ha)]
    exact ⟨⟨hv.pos, hv.le.trans_eq hi.symm⟩, hi, Clause.value_write i l⟩
  | resize n =>
    have hi := Clause.initialSize_resize (hn n rfl) ha.2
    have hs : (c.resize n).m_size = n := by
      unfold Clause.resize
      split
      · rename_i he
        exact he.symm
      · rfl
    refine ⟨⟨ha.1.trans_eq hs.symm, ?_⟩, hi, Clause.value_resize ha.2⟩
    show (c.resize n).m_size ≤ (c.resize n).initialSize
    rw [hs, hi]
    exact ha.2.trans hv.le
  | setLBD lbd => exact ⟨⟨hv.pos, hv.le⟩, rfl, rfl⟩
  | setFlag f => exact ⟨⟨hv.pos, hv.le⟩, rfl, rfl⟩
  | clearFlag f => exact ⟨⟨hv.pos, hv.le⟩, rfl, rfl⟩

end

/-! ## Regions -/

inductive Layout (memory : Nat → Option Clause) : Nat → List (Nat × Clause) → Nat → Prop
  | nil (p : Nat) : Layout memory p [] p
  | cons {p q : Nat} {c : Clause} {cs : List (Nat × Clause)} (hm : memory p = some c) (hv : c.Valid)
    (h : Layout memory (p + Clause.getAllocationSize c.initialSize) cs q) : Layout memory p ((p, c) :: cs) q

namespace Layout

variable {memory memory' : Nat → Option Clause} {p q r : Nat} {c : Clause} {cs cs' : List (Nat × Clause)}

theorem append (h : Layout memory p cs q) (h' : Layout memory q cs' r) : Layout memory p (cs ++ cs') r := by
  induction h with
  | nil p => exact h'
  | cons hm hv _ ih => exact .cons hm hv (ih h')

theorem split : ∀ {cs : List (Nat × Clause)} {p : Nat}, Layout memory p (cs ++ cs') r →
    ∃ q, Layout memory p cs q ∧ Layout memory q cs' r := by
  intro cs
  induction cs with
  | nil => exact fun h => ⟨_, .nil _, h⟩
  | cons x cs ih =>
    intro p h
    cases h with
    | cons hm hv h =>
      obtain ⟨q, h₁, h₂⟩ := ih h
      exact ⟨q, .cons hm hv h₁, h₂⟩

theorem size_pos (hv : c.Valid) : sizeofClause ≤ Clause.getAllocationSize c.initialSize :=
  le_getAllocationSize (hv.pos.trans hv.le)

theorem le (h : Layout memory p cs q) : p + sizeofClause * cs.length ≤ q := by
  induction h with
  | nil p => exact Nat.le_refl _
  | cons hm hv _ ih =>
    have := size_pos hv
    rw [List.length_cons, Nat.mul_succ]
    omega

theorem dvd (h : Layout memory p cs q) (hp : 8 ∣ p) : 8 ∣ q := by
  induction h with
  | nil p => exact hp
  | cons hm hv _ ih => exact ih (Nat.dvd_add hp (getAllocationSize_dvd (hv.pos.trans hv.le)))

theorem congr (h : Layout memory p cs q) (hm : ∀ x, p ≤ x → x < q → memory' x = memory x) :
    Layout memory' p cs q := by
  induction h with
  | nil p => exact .nil p
  | cons hc hv h ih =>
    have hle := h.le
    have hpos := size_pos hv
    unfold sizeofClause at hle hpos
    refine .cons ((hm _ (Nat.le_refl _) (by omega)).trans hc) hv (ih fun x h₁ h₂ => hm x (by omega) h₂)

theorem replace {c' : Clause} (h : Layout memory p (cs ++ (r, c) :: cs') q) (hv : c'.Valid)
    (hi : c'.initialSize = c.initialSize) :
    Layout (Function.update memory r (some c')) p (cs ++ (r, c') :: cs') q := by
  obtain ⟨r', h₁, h₂⟩ := h.split
  cases h₂ with
  | cons hm hvc h₂ =>
    have hpos := size_pos hvc
    have hle := h₁.le
    unfold sizeofClause at hpos
    refine (h₁.congr fun x _ hx => Function.update_of_ne (Nat.ne_of_lt hx) _ _).append ?_
    refine .cons (Function.update_self _ _ _) hv ?_
    rw [hi]
    exact h₂.congr fun x hx _ => Function.update_of_ne (by omega) _ _

theorem offset_bounds (h : Layout memory p cs q) : ∀ x ∈ cs, p ≤ x.1 ∧ x.1 < q := by
  induction h with
  | nil p => exact nofun
  | cons hm hv h ih =>
    have hle := h.le
    have hpos := size_pos hv
    unfold sizeofClause at hle hpos
    refine List.forall_mem_cons.mpr ⟨⟨Nat.le_refl _, by omega⟩, fun x hx => ?_⟩
    have := ih x hx
    omega

theorem nodup_offsets (h : Layout memory p cs q) : (cs.map Prod.fst).Nodup := by
  induction h with
  | nil p => exact List.nodup_nil
  | cons hm hv h ih =>
    have hpos := size_pos hv
    unfold sizeofClause at hpos
    refine List.nodup_cons.mpr ⟨fun hp => ?_, ih⟩
    obtain ⟨x, hx, hxp⟩ := List.mem_map.mp hp
    have := (h.offset_bounds x hx).1
    omega

theorem offset_ne (h : Layout memory p (cs ++ (r, c) :: cs') q) : ∀ x ∈ cs ++ cs', x.1 ≠ r := by
  intro x hx hxr
  have hn := h.nodup_offsets
  rw [List.map_append, List.map_cons, List.nodup_middle, ← List.map_append] at hn
  exact (List.nodup_cons.mp hn).1 (List.mem_map.mpr ⟨x, hx, hxr⟩)

end Layout

structure Region.Holds (r : Region) (cs : List (Nat × Clause)) : Prop where
  layout : Layout r.memory 0 cs r.m_nextFreeCell
  free : r.m_nextFreeCell + r.m_free = r.m_size

namespace Region.Holds

variable {r : Region} {cs cs' : List (Nat × Clause)} {p : Nat} {c : Clause}

theorem new (size : Nat) : (Region.new size).Holds [] := ⟨.nil 0, Nat.zero_add _⟩

section
variable (h : r.Holds cs)
include h

theorem used : r.getUsedSize = r.m_nextFreeCell := by
  unfold getUsedSize
  rw [← h.free]
  exact Nat.add_sub_cancel _ _

theorem used_eq_zero : r.getUsedSize = 0 ↔ cs = [] := by
  rw [h.used]
  have hle := h.layout.le
  unfold sizeofClause at hle
  constructor
  · intro h₀
    exact List.length_eq_zero_iff.mp (by omega)
  · intro hc
    have hl := h.layout
    rw [hc] at hl
    generalize r.m_nextFreeCell = q at hl
    cases hl with
    | nil => rfl

theorem empty_iff : r.empty = true ↔ cs = [] := by
  rw [← h.used_eq_zero, h.used]
  unfold empty
  rw [beq_iff_eq]
  have := h.free
  omega

theorem length_le : sizeofClause * cs.length ≤ r.m_size := by
  have := h.layout.le
  have := h.free
  omega

theorem dvd : 8 ∣ r.m_nextFreeCell := h.layout.dvd (Nat.dvd_zero 8)

theorem getFirstClause : r.getFirstClause = some (cs.head?.map Prod.fst) := by
  unfold Region.getFirstClause
  cases cs with
  | nil => exact if_pos (h.used_eq_zero.mpr rfl)
  | cons x cs =>
    rw [if_neg (mt h.used_eq_zero.mp (List.cons_ne_nil _ _)), align_eq (Nat.dvd_zero 8)]
    have hlen := h.length_le
    rw [List.length_cons, Nat.mul_succ] at hlen
    rw [if_neg (by omega)]
    have hl := h.layout
    cases hl with
    | cons hm hv hl => rfl

end

theorem getNextClause (h : r.Holds (cs ++ (p, c) :: cs')) : r.memory p = some c ∧ c.Valid ∧
    r.getNextClause p = some (cs'.head?.map Prod.fst) := by
  have hused := h.used
  obtain ⟨q, h₁, h₂⟩ := h.layout.split
  cases h₂ with
  | cons hm hv h₂ =>
    refine ⟨hm, hv, ?_⟩
    have hfree := h.free
    have hd : 8 ∣ p + Clause.getAllocationSize c.initialSize :=
      Nat.dvd_add (h₁.dvd (Nat.dvd_zero 8)) (getAllocationSize_dvd (hv.pos.trans hv.le))
    unfold Region.getNextClause
    rw [hm]
    dsimp only [Option.bind_eq_bind, Option.bind_some]
    rw [hused]
    generalize p + Clause.getAllocationSize c.initialSize = next at h₂ hd
    cases h₂ with
    | nil => exact if_pos rfl
    | cons hm' hv' h₂ =>
      have hle := h₂.le
      have hpos := Layout.size_pos hv'
      unfold sizeofClause at hle hpos
      rw [if_neg (by omega), align_eq hd, if_neg (by unfold sizeofClause; omega)]
      rfl

theorem destroy : ∀ {cs : List (Nat × Clause)} (pre : List (Nat × Clause)) {steps : Nat}, r.Holds (pre ++ cs) →
    cs.length ≤ steps →
    r.destroy steps (cs.head?.map Prod.fst) = some cs := by
  intro cs
  induction cs with
  | nil =>
    intro pre steps _ _
    cases steps with
    | zero => rfl
    | succ steps => rfl
  | cons x cs ih =>
    intro pre steps h hlen
    obtain ⟨p, c⟩ := x
    obtain ⟨hm, -, hnext⟩ := h.getNextClause
    cases steps with
    | zero => exact absurd hlen (Nat.not_succ_le_zero _)
    | succ steps =>
      have hrest := ih (pre ++ [(p, c)]) (by rw [List.append_assoc]; exact h) (Nat.le_of_succ_le_succ hlen)
      show (do
        let clause ← r.memory p
        let next ← r.getNextClause p
        return (p, clause) :: (← r.destroy steps next)) = _
      rw [hm, hnext]
      dsimp only [Option.bind_eq_bind, Option.bind_some]
      rw [hrest]
      rfl

theorem clear (h : r.Holds cs) : ∃ r', r.clear = some r' ∧ r'.Holds [] ∧ r'.m_size = r.m_size := by
  refine ⟨{ r with m_free := r.m_size, m_nextFreeCell := 0 }, ?_, ⟨.nil 0, Nat.zero_add _⟩, rfl⟩
  have hlen := h.length_le
  unfold sizeofClause at hlen
  unfold Region.clear
  rw [h.getFirstClause]
  dsimp only [Option.bind_eq_bind, Option.bind_some]
  rw [destroy [] h (by omega)]
  rfl

theorem allocate (h : r.Holds cs) {n : Nat} (hn : 1 ≤ n) (u : Nat → CNFLit) :
    (r.m_free < Clause.getAllocationSize n → r.allocate n u = none) ∧
    (Clause.getAllocationSize n ≤ r.m_free → ∃ r', r.allocate n u = some (r.m_nextFreeCell, r') ∧
      r'.Holds (cs ++ [(r.m_nextFreeCell, Clause.constructIn n u)]) ∧ r'.m_size = r.m_size ∧
      r'.m_nextFreeCell = r.m_nextFreeCell + Clause.getAllocationSize n) := by
  have hfree := h.free
  unfold Region.allocate getFreeSize
  constructor
  · exact fun hlt => if_pos hlt
  · intro hle
    dsimp only
    rw [if_neg (Nat.not_lt_of_le hle), align_eq h.dvd, if_neg (Nat.not_lt_of_le hle)]
    refine ⟨_, rfl, ⟨?_, ?_⟩, rfl, rfl⟩
    · obtain ⟨hv, hi⟩ := Clause.constructIn_valid hn u
      refine (h.layout.congr fun x _ hx => ?_).append (.cons (Function.update_self _ _ _) hv ?_)
      · exact (Function.update_of_ne (Nat.ne_of_lt hx) _ _).trans (if_neg fun hc => Nat.not_lt_of_le hc.1 hx)
      · rw [hi]
        exact .nil _
    · show r.m_nextFreeCell + Clause.getAllocationSize n + (r.m_free - Clause.getAllocationSize n) = r.m_size
      omega

theorem put (h : r.Holds (cs ++ (p, c) :: cs')) {c' : Clause} (hv : c'.Valid)
    (hi : c'.initialSize = c.initialSize) :
    (r.put p c').Holds (cs ++ (p, c') :: cs') := ⟨h.layout.replace hv hi, h.free⟩

end Region.Holds

/-! ## Iteration -/

def listing : (i : Nat) → List (List (Nat × Clause)) → List (Pointer × ClauseValue)
  | _, [] => []
  | i, cs :: css => cs.map (fun x => (⟨i, x.1⟩, x.2.value)) ++ listing (i + 1) css

def objects : (i : Nat) → List (List (Nat × Clause)) → List (Pointer × Clause)
  | _, [] => []
  | i, cs :: css => cs.map (fun x => (⟨i, x.1⟩, x.2)) ++ objects (i + 1) css

def clauses (css : List (List (Nat × Clause))) : List Clause := css.flatten.map Prod.snd

theorem listing_eq (css : List (List (Nat × Clause))) : ∀ i : Nat,
    listing i css = (objects i css).map fun x => (x.1, x.2.value) := by
  induction css with
  | nil => exact fun _ => rfl
  | cons cs css ih =>
    intro i
    rw [listing, objects, List.map_append, List.map_map, ih]
    rfl

theorem objects_clauses (css : List (List (Nat × Clause))) : ∀ i : Nat,
    (objects i css).map Prod.snd = clauses css := by
  induction css with
  | nil => exact fun _ => rfl
  | cons cs css ih =>
    intro i
    rw [objects, List.map_append, ih, List.map_map]
    unfold clauses
    rw [List.flatten_cons, List.map_append]
    rfl

section
variable {regions : List Region} {css : List (List (Nat × Clause))} {i : Nat}

theorem getElem?_of_drop {r : Region} {rs : List Region} (h : regions.drop i = r :: rs) : regions[i]? = some r := by
  have hd : (regions.drop i)[0]? = regions[i + 0]? := List.getElem?_drop
  rw [h] at hd
  exact hd.symm

theorem drop_succ {r : Region} {rs : List Region} (h : regions.drop i = r :: rs) : regions.drop (i + 1) = rs := by
  rw [← List.tail_drop, h]
  rfl

theorem enter_skipEmpty (h : List.Forall₂ Region.Holds (regions.drop i) css) :
    ∃ it, FlatteningIterator.enter regions (FlatteningIterator.skipEmpty regions i) = some it ∧
      (it.m_innerIt = none ∧ listing i css = [] ∨
        ∃ k cs css', it = ⟨k, some (cs.head?.map Prod.fst)⟩ ∧ cs ≠ [] ∧
          List.Forall₂ Region.Holds (regions.drop k) (cs :: css') ∧ listing i css = listing k (cs :: css')) := by
  induction css generalizing i with
  | nil =>
    have hd := List.forall₂_nil_right_iff.mp h
    have hn : regions[i]? = none := List.getElem?_eq_none (List.drop_eq_nil_iff.mp hd)
    refine ⟨⟨i, none⟩, ?_, .inl ⟨rfl, rfl⟩⟩
    unfold FlatteningIterator.enter FlatteningIterator.skipEmpty
    rw [hd, List.takeWhile_nil, List.length_nil, Nat.add_zero, hn]
  | cons cs css ih =>
    obtain ⟨r, rs, hr, hrs, hd⟩ := List.forall₂_cons_right_iff.mp h
    by_cases hc : cs = []
    · have he : r.empty = true := hr.empty_iff.mpr hc
      rw [← drop_succ hd] at hrs
      obtain ⟨it, hit, hcase⟩ := ih hrs
      have hskip : FlatteningIterator.skipEmpty regions i = FlatteningIterator.skipEmpty regions (i + 1) := by
        unfold FlatteningIterator.skipEmpty
        rw [hd, List.takeWhile_cons, if_pos he, drop_succ hd, List.length_cons]
        omega
      have hlist : listing i (cs :: css) = listing (i + 1) css := by
        rw [hc]
        rfl
      rw [hskip, hlist]
      exact ⟨it, hit, hcase⟩
    · have he : ¬r.empty = true := mt hr.empty_iff.mp hc
      refine ⟨⟨i, some (cs.head?.map Prod.fst)⟩, ?_, .inr ⟨i, cs, css, rfl, hc, h, rfl⟩⟩
      unfold FlatteningIterator.enter FlatteningIterator.skipEmpty
      rw [hd, List.takeWhile_cons, if_neg he, List.length_nil, Nat.add_zero, getElem?_of_drop hd]
      dsimp only
      rw [hr.getFirstClause]
      rfl

end

section
variable {db : IterableClauseDB} {css : List (List (Nat × Clause))}

theorem collect_eq :
    ∀ {steps i : Nat} (pre : List (Nat × Clause)) {post : List (Nat × Clause)} {css : List (List (Nat × Clause))},
    List.Forall₂ Region.Holds (db.m_activeRegions.drop i) ((pre ++ post) :: css) → post ≠ [] →
    (listing i (post :: css)).length < steps →
    db.collect steps ⟨i, some (post.head?.map Prod.fst)⟩ = some (listing i (post :: css)) := by
  intro steps
  induction steps with
  | zero => exact fun _ _ _ _ _ hlt => absurd hlt (Nat.not_lt_zero _)
  | succ steps ih =>
    intro i pre post css h hne hlt
    obtain ⟨x, post, rfl⟩ := List.exists_cons_of_ne_nil hne
    obtain ⟨p, c⟩ := x
    obtain ⟨r, rs, hr, hrs, hd⟩ := List.forall₂_cons_right_iff.mp h
    have hi := getElem?_of_drop hd
    obtain ⟨hm, -, hnext⟩ := hr.getNextClause
    have hread : db.read ⟨i, p⟩ = some c := by
      unfold read
      rw [hi]
      exact hm
    -- the rest of the range
    have hrest : ∃ it, FlatteningIterator.next db.m_activeRegions ⟨i, some (some p)⟩ = some it ∧
        db.collect steps it = some (listing i (post :: css)) := by
      have hlen : (listing i (post :: css)).length < steps := Nat.lt_of_succ_lt_succ hlt
      unfold FlatteningIterator.next
      dsimp only
      rw [hi]
      dsimp only [Option.bind_eq_bind, Option.bind_some]
      rw [hnext]
      cases post with
      | nil =>
        rw [← drop_succ hd] at hrs
        obtain ⟨it, hit, hcase⟩ := enter_skipEmpty hrs
        refine ⟨it, hit, ?_⟩
        have hlist : listing i ([] :: css) = listing (i + 1) css := rfl
        rw [hlist] at hlen ⊢
        obtain ⟨k, inner⟩ := it
        cases hcase with
        | inl hcase =>
          obtain ⟨hn, hl⟩ := hcase
          obtain rfl : inner = none := hn
          rw [hl] at hlen ⊢
          cases steps with
          | zero => exact absurd hlen (Nat.not_lt_zero _)
          | succ steps => rfl
        | inr hcase =>
          obtain ⟨k', cs, css', he, hcs, hrs', hl⟩ := hcase
          cases he
          rw [hl] at hlen ⊢
          exact ih [] hrs' hcs hlen
      | cons y post =>
        refine ⟨⟨i, some (some y.1)⟩, rfl, ih (pre ++ [(p, c)]) ?_ (List.cons_ne_nil _ _) hlen⟩
        rw [List.append_assoc]
        exact h
    obtain ⟨it, hit, hcol⟩ := hrest
    unfold collect
    dsimp only [List.head?_cons, Option.map_some, Option.bind_eq_bind, Option.bind_some]
    rw [hread]
    dsimp only [Option.bind_some]
    rw [hit]
    dsimp only [Option.bind_some]
    rw [hcol]
    rfl

theorem length_listing_le : ∀ {regions : List Region} {css : List (List (Nat × Clause))} {i : Nat},
    List.Forall₂ Region.Holds regions css → (listing i css).length ≤ (regions.map Region.getUsedSize).sum := by
  intro regions css i h
  induction h generalizing i with
  | nil => exact Nat.le_refl _
  | cons hr _ ih =>
    have hlen := hr.layout.le
    have hrest := ih (i := i + 1)
    unfold sizeofClause at hlen
    unfold listing
    rw [List.length_append, List.length_map, List.map_cons, List.sum_cons, hr.used]
    omega

theorem getClauses_eq (h : List.Forall₂ Region.Holds db.m_activeRegions css) :
    db.getClauses = some (listing 0 css) := by
  have hlen := length_listing_le (i := 0) h
  obtain ⟨it, hit, hcase⟩ := enter_skipEmpty (i := 0) h
  unfold getClauses FlatteningIterator.new
  rw [hit]
  dsimp only [Option.bind_eq_bind, Option.bind_some]
  obtain ⟨k, inner⟩ := it
  cases hcase with
  | inl hcase =>
    obtain ⟨hn, hl⟩ := hcase
    obtain rfl : inner = none := hn
    rw [hl]
    rfl
  | inr hcase =>
    obtain ⟨k', cs, css', he, hcs, hrs, hl⟩ := hcase
    cases he
    rw [hl] at hlen ⊢
    exact collect_eq [] hrs hcs (Nat.lt_succ_of_le hlen)

end

end IterableClauseDB

end JamSAT
