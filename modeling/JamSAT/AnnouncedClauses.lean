import JamSAT.ClauseDBRuns
import JamSAT.ClauseShrinking

/-!
# The approximations of announced clauses

A clause is announced by `clauseUpdated`. Shrinking it does not make its approximation smaller,
and a copy does not get the approximation at all.
-/

namespace JamSAT

namespace IterableClauseDB

/-! ## Sessions -/

inductive Change
  | createClause (size : Nat) (uninitialized : Nat → CNFLit)
  | edit (p : Pointer) (e : Edit)
  | erase (p : Pointer) (pos : Nat)
  | eraseRange (p : Pointer) (first last : Nat)
  | clauseUpdated (p : Pointer)
  /-- `*target = *source` -/
  | assign (target source : Pointer)
  | compress

def Edit.writes : Edit → Bool
  | .write _ _ => true
  | _ => false

structure Announcements where
  db : IterableClauseDB
  /-- the clauses created and not removed, in that order; `true` from `clauseUpdated` until a literal is written -/
  clauses : List (Pointer × Bool)

namespace Announcements

def new (regionSize : Nat) : Announcements := ⟨.new regionSize, []⟩

def change (s : Announcements) (p : Pointer) (f : Clause → Clause) (announced : Bool → Bool) :
    Option Announcements := do
  let db ← s.db.modify p f
  return ⟨db, s.clauses.map fun x => (x.1, if x.1 = p then announced x.2 else x.2)⟩

def scheduled (s : Announcements) (p : Pointer) : Bool :=
  (s.db.read p).any fun c => c.getFlag .SCHEDULED_FOR_DELETION

/-- The resulting clause of an assignment or of `compress` is announced when the original is. -/
def step (s : Announcements) : Change → Option Announcements
  | .createClause size uninitialized =>
    match s.db.createClause size uninitialized with
    | (none, db) => some { s with db := db }
    | (some p, db) => some ⟨db, s.clauses ++ [(p, false)]⟩
  | .edit p e => s.change p (fun c => e.apply c) fun announced => announced && !e.writes
  | .erase p pos => s.change p (fun c => c.erase pos) id
  | .eraseRange p first last => s.change p (fun c => c.eraseRange first last) id
  | .clauseUpdated p => s.change p Clause.clauseUpdated fun _ => true
  | .assign target source =>
    if target = source then some s
    else do
      let other ← s.db.read source
      s.change target (fun c => c.assign other) fun _ => decide ((source, true) ∈ s.clauses)
  | .compress => do
    let db ← s.db.compress
    let range ← db.getClauses
    return ⟨db, relocate (range.map Prod.fst) (s.clauses.filter fun x => !s.scheduled x.1)⟩

def Allowed (s : Announcements) : Change → Prop
  | .createClause size _ => 1 ≤ size
  | .edit p e => p ∈ s.clauses.map Prod.fst ∧ ∃ c ∈ s.db.read p, e.Allowed c.m_size
  | .erase p pos => p ∈ s.clauses.map Prod.fst ∧ ∃ c ∈ s.db.read p, pos < c.m_size ∧ 2 ≤ c.m_size
  | .eraseRange p first last => p ∈ s.clauses.map Prod.fst ∧
      ∃ c ∈ s.db.read p, first ≤ last ∧ last ≤ c.m_size ∧ last - first < c.m_size
  | .clauseUpdated p => p ∈ s.clauses.map Prod.fst
  | .assign target source => target ∈ s.clauses.map Prod.fst ∧ source ∈ s.clauses.map Prod.fst ∧
      ∃ c ∈ s.db.read target, ∃ other ∈ s.db.read source, other.m_size ≤ c.m_size
  | .compress => True

instance (s : Announcements) : ∀ op : Change, Decidable (s.Allowed op)
  | .createClause size _ => inferInstanceAs (Decidable (1 ≤ size))
  | .edit p e => inferInstanceAs (Decidable (p ∈ s.clauses.map Prod.fst ∧ ∃ c ∈ s.db.read p, e.Allowed c.m_size))
  | .erase p pos =>
    inferInstanceAs (Decidable (p ∈ s.clauses.map Prod.fst ∧ ∃ c ∈ s.db.read p, pos < c.m_size ∧ 2 ≤ c.m_size))
  | .eraseRange p first last => inferInstanceAs (Decidable (p ∈ s.clauses.map Prod.fst ∧
      ∃ c ∈ s.db.read p, first ≤ last ∧ last ≤ c.m_size ∧ last - first < c.m_size))
  | .clauseUpdated p => inferInstanceAs (Decidable (p ∈ s.clauses.map Prod.fst))
  | .assign target source => inferInstanceAs (Decidable (target ∈ s.clauses.map Prod.fst ∧
      source ∈ s.clauses.map Prod.fst ∧ ∃ c ∈ s.db.read target, ∃ other ∈ s.db.read source,
        other.m_size ≤ c.m_size))
  | .compress => .isTrue trivial

def Storable (s : Announcements) : Change → Prop
  | .edit p (.resize newSize) => ∀ c ∈ s.db.read p, newSize < c.m_size → c.initialSize < 2147483648
  | .erase p _ => ∀ c ∈ s.db.read p, c.initialSize < 2147483648
  | .eraseRange p first last => ∀ c ∈ s.db.read p, first < last → c.initialSize < 2147483648
  | .assign target source => ∀ c ∈ s.db.read target, ∀ other ∈ s.db.read source, other.m_size < c.m_size →
      c.initialSize < 2147483648
  | _ => True

def SameRemainders (before after : List CNFLit) : Prop := ∀ l ∈ before, ∃ m ∈ after, m.var % 64 = l.var % 64

/-- No announced clause loses the last variable with a remainder, or is copied to a clause with another approximation,
as the fresh ones of `compress` are. -/
def Preserved (s : Announcements) : Change → Prop
  | .edit p (.resize newSize) => (p, true) ∈ s.clauses → ∀ c ∈ s.db.read p,
      SameRemainders c.value.lits (c.value.lits.take newSize)
  | .erase p pos =>
    (p, true) ∈ s.clauses → ∀ c ∈ s.db.read p, SameRemainders c.value.lits (c.value.lits.eraseIdx pos)
  | .eraseRange p first last => (p, true) ∈ s.clauses → ∀ c ∈ s.db.read p,
      SameRemainders c.value.lits (c.value.lits.take first ++ c.value.lits.drop last)
  | .assign target source => target ≠ source → (source, true) ∈ s.clauses → ∀ c ∈ s.db.read target,
      ∀ other ∈ s.db.read source, c.m_approximatedClause = other.m_approximatedClause
  | .compress => ∀ p, (p, true) ∈ s.clauses → s.scheduled p = true
  | _ => True

def Reachable (condition : Announcements → Change → Prop) (regionSize : Nat) : Announcements → Prop :=
  Runs.Reachable (fun s => s = .new regionSize) fun s t => ∃ op, s.Allowed op ∧ condition s op ∧ s.step op = some t

/-- The approximation of an announced clause is never too small. The clauses it is
compared with are announced too. -/
def OverApproximated (s : Announcements) : Prop :=
  ∀ p, (p, true) ∈ s.clauses → ∃ c, s.db.read p = some c ∧ (∀ l ∈ c.value.lits, c.mightContain l = true) ∧
    ∀ other : Clause, (other.clauseUpdated = other ∨ ∃ q, (q, true) ∈ s.clauses ∧ s.db.read q = some other) →
      (∀ l ∈ c.value.lits, ∃ m ∈ other.value.lits, m.var = l.var) → c.mightShareAllVarsWith other = true

end Announcements

/-! ## Exact approximations -/

namespace Clause

variable {c d : Clause}

theorem foldl_insert (lits : List CNFLit) : ∀ (s : OverApproximatingSet) (i : Fin 64),
    (lits.foldl (fun s lit => s.insert lit.var) s).approximatedSet i = true ↔
      s.approximatedSet i = true ∨ ∃ l ∈ lits, Fin.ofNat 64 l.var = i := by
  induction lits with
  | nil => simp
  | cons l lits ih =>
    intro s i
    rw [List.foldl_cons, ih]
    unfold OverApproximatingSet.insert
    dsimp only
    by_cases hi : Fin.ofNat 64 l.var = i
    · subst hi
      simp
    · rw [Function.update_of_ne (Ne.symm hi)]
      simp only [List.mem_cons, exists_eq_or_imp]
      exact or_congr Iff.rfl (or_iff_right hi).symm

theorem clauseUpdated_approximatedSet (c : Clause) (i : Fin 64) :
    c.clauseUpdated.m_approximatedClause.approximatedSet i = true ↔ ∃ l ∈ c.value.lits, Fin.ofNat 64 l.var = i := by
  refine (foldl_insert c.value.lits .empty i).trans (or_iff_right ?_)
  exact Bool.false_ne_true

/-- The clause approximates exactly its variables. -/
theorem clauseUpdated_eq_iff : c.clauseUpdated = c ↔
    ∀ i, c.m_approximatedClause.approximatedSet i = true ↔ ∃ l ∈ c.value.lits, Fin.ofNat 64 l.var = i := by
  constructor
  · intro h i
    rw [← clauseUpdated_approximatedSet, h]
  · intro h
    have hset : c.clauseUpdated.m_approximatedClause = c.m_approximatedClause := by
      show OverApproximatingSet.mk _ = OverApproximatingSet.mk _
      congr 1
      funext i
      rw [Bool.eq_iff_iff, h i]
      exact clauseUpdated_approximatedSet c i
    show { c with m_approximatedClause := c.clauseUpdated.m_approximatedClause } = c
    rw [hset]

theorem clauseUpdated_idem (c : Clause) : c.clauseUpdated.clauseUpdated = c.clauseUpdated := rfl

theorem clauseUpdated_shrunk (hc : c.clauseUpdated = c) (ha : d.m_approximatedClause = c.m_approximatedClause)
    (hl : d.value.lits ⊆ c.value.lits) :
    d.clauseUpdated = d ↔ Announcements.SameRemainders c.value.lits d.value.lits := by
  rw [clauseUpdated_eq_iff] at hc ⊢
  simp only [ha, hc]
  have hmod : ∀ l m : CNFLit, Fin.ofNat 64 m.var = Fin.ofNat 64 l.var ↔ m.var % 64 = l.var % 64 :=
    fun l m => Fin.ext_iff
  constructor
  · intro h l hlc
    obtain ⟨m, hm, he⟩ := (h (Fin.ofNat 64 l.var)).mp ⟨l, hlc, rfl⟩
    exact ⟨m, hm, (hmod l m).mp he⟩
  · intro h i
    constructor
    · intro hi
      obtain ⟨l, hlc, rfl⟩ := hi
      obtain ⟨m, hm, he⟩ := h l hlc
      exact ⟨m, hm, (hmod l m).mpr he⟩
    · intro hi
      obtain ⟨m, hm, he⟩ := hi
      exact ⟨m, hl hm, he⟩

theorem clauseUpdated_copied (hd : d.clauseUpdated = d) {e : Clause} (hl : e.value.lits = d.value.lits) :
    e.clauseUpdated = e ↔ e.m_approximatedClause = d.m_approximatedClause := by
  rw [clauseUpdated_eq_iff] at hd ⊢
  rw [hl]
  simp only [← hd]
  constructor
  · intro h
    show OverApproximatingSet.mk _ = OverApproximatingSet.mk _
    congr 1
    funext i
    exact Bool.eq_iff_iff.mpr (h i)
  · exact fun h i => by rw [h]

theorem mightContain_of_announced (hc : c.clauseUpdated = c) {l : CNFLit} (hl : l ∈ c.value.lits) :
    c.mightContain l = true := (clauseUpdated_eq_iff.mp hc _).mpr ⟨l, hl, rfl⟩

theorem mightShareAllVarsWith_of_announced (hc : c.clauseUpdated = c) (hd : d.clauseUpdated = d)
    (hsub : ∀ l ∈ c.value.lits, ∃ m ∈ d.value.lits, m.var = l.var) : c.mightShareAllVarsWith d = true := by
  refine OverApproximatingSet.mightBeSubsetOf_iff.mpr fun i hi => ?_
  obtain ⟨l, hl, rfl⟩ := (clauseUpdated_eq_iff.mp hc i).mp hi
  obtain ⟨m, hm, he⟩ := hsub l hl
  exact (clauseUpdated_eq_iff.mp hd _).mpr ⟨m, hm, by rw [he]⟩

/-- A clause that is right about its literals, and never wrong against announced
ones, has an exact approximation. -/
theorem announced_of_right (hl : ∀ l ∈ c.value.lits, c.mightContain l = true)
    (hs : c.mightShareAllVarsWith c.clauseUpdated = true) : c.clauseUpdated = c := by
  rw [clauseUpdated_eq_iff]
  intro i
  constructor
  · intro hi
    exact (clauseUpdated_approximatedSet c i).mp (OverApproximatingSet.mightBeSubsetOf_iff.mp hs i hi)
  · intro hi
    obtain ⟨l, hlc, rfl⟩ := hi
    exact hl l hlc

theorem resize_valid (hv : c.Valid) (anchor : Nat → CNFLit) (ha : anchor c.m_size = c.m_anchor c.m_size) (lbd : Nat)
    (flags : BitVec 15) {n : Nat} (hpos : 1 ≤ n) (hle : n ≤ c.m_size)
    (hn : n < c.m_size → c.initialSize < 2147483648) :
    ({ c with m_lbd := lbd, m_flags := flags, m_anchor := anchor }.resize n).Valid ∧
      ({ c with m_lbd := lbd, m_flags := flags, m_anchor := anchor }.resize n).initialSize = c.initialSize := by
  generalize hm : ({ c with m_lbd := lbd, m_flags := flags, m_anchor := anchor } : Clause) = moved
  have hsize : moved.m_size = c.m_size := hm ▸ rfl
  have hmoved : moved.initialSize = c.initialSize := by
    rw [← hm]
    unfold initialSize
    dsimp only
    rw [ha]
  have hi : (moved.resize n).initialSize = c.initialSize := by
    rw [initialSize_resize (by rw [hmoved, hsize]; exact hn) (hsize ▸ hle), hmoved]
  refine ⟨⟨hpos.trans_eq (size_resize _ n).symm, ?_⟩, hi⟩
  rw [hi, size_resize]
  exact hle.trans hv.le

theorem resize_approximation (c : Clause) (n : Nat) :
    (c.resize n).m_approximatedClause = c.m_approximatedClause := by
  unfold resize
  split <;> rfl

theorem eraseRange_valid (hv : c.Valid) {first last : Nat} (hle : first ≤ last) (hlast : last ≤ c.m_size)
    (hkeep : last - first < c.m_size) (hn : first < last → c.initialSize < 2147483648) :
    (c.eraseRange first last).Valid ∧ (c.eraseRange first last).initialSize = c.initialSize ∧
      (c.eraseRange first last).m_approximatedClause = c.m_approximatedClause := by
  unfold eraseRange
  dsimp only
  rw [replaceErased_eq _ _ _ _ (by split <;> omega)]
  generalize hr : (if c.m_size - (last - first) < first + (last - first) then first + (last - first)
    else c.m_size - (last - first)) = replacement
  have hlow : first + (c.m_size - replacement) ≤ c.m_size := by
    rw [← hr]
    split <;> omega
  obtain ⟨hv', hi⟩ := resize_valid hv
    (fun i => if first ≤ i ∧ i < first + (c.m_size - replacement) then c.m_anchor (replacement + (i - first))
      else c.m_anchor i) (if_neg (by omega)) c.m_lbd c.m_flags (n := c.m_size - (last - first)) (by omega)
    (Nat.sub_le _ _) fun hlt => hn (by omega)
  exact ⟨hv', hi, resize_approximation _ _⟩

theorem assign_valid (hv : c.Valid) (hd : d.Valid) (hle : d.m_size ≤ c.m_size)
    (hn : d.m_size < c.m_size → c.initialSize < 2147483648) :
    (c.assign d).Valid ∧ (c.assign d).initialSize = c.initialSize ∧
      (c.assign d).m_approximatedClause = c.m_approximatedClause := by
  obtain ⟨hv', hi⟩ := resize_valid hv c.m_anchor rfl d.m_lbd d.m_flags hd.pos hle hn
  have hsize := size_resize { c with m_lbd := d.m_lbd, m_flags := d.m_flags } d.m_size
  have hi' : (c.assign d).initialSize = c.initialSize := by
    rw [← hi]
    unfold assign initialSize
    dsimp only
    rw [hsize, if_neg (Nat.lt_irrefl _)]
  refine ⟨⟨hv'.pos, ?_⟩, hi', ?_⟩
  · rw [hi', ← hi]
    exact hv'.le
  · exact resize_approximation { c with m_lbd := d.m_lbd, m_flags := d.m_flags } _

theorem compressed_not_announced (hv : c.Valid) : c.compressed.clauseUpdated ≠ c.compressed := by
  intro h
  have hlen : 0 < c.compressed.value.lits.length := by
    rw [compressed_value, length_value]
    exact hv.pos
  have hmem := List.getElem_mem hlen
  have hset := mightContain_of_announced h hmem
  have hempty : c.compressed.m_approximatedClause = .empty := by
    unfold compressed assign
    exact resize_approximation _ _
  unfold mightContain at hset
  rw [hempty] at hset
  cases hset

end Clause

namespace Announcements

/-! ## Steps -/

structure Entry where
  p : Pointer
  clause : Clause
  announced : Bool

structure Tracks (s : Announcements) (regionSize : Nat) (xs : List Entry) : Prop where
  represents : ∃ css, s.db.Represents css ∧ objects 0 css = xs.map fun x => (x.p, x.clause)
  clauses : s.clauses = xs.map fun x => (x.p, x.announced)
  regionSize : s.db.m_regionSize = regionSize

def Exact (xs : List Entry) : Prop := ∀ x ∈ xs, x.announced = true → x.clause.clauseUpdated = x.clause

variable {s t : Announcements} {regionSize : Nat} {xs : List Entry}

section
variable (h : Tracks s regionSize xs)
include h

theorem Tracks.nodup : (xs.map Entry.p).Nodup := by
  obtain ⟨css, hrep, ho⟩ := h.represents
  have hn := nodup_objects hrep.active 0
  rw [ho, List.map_map] at hn
  exact hn

theorem Tracks.read {x : Entry} (hx : x ∈ xs) : s.db.read x.p = some x.clause ∧ x.clause.Valid := by
  obtain ⟨css, hrep, ho⟩ := h.represents
  have hm : (x.p, x.clause) ∈ objects 0 css := ho ▸ List.mem_map_of_mem (f := fun x : Entry => (x.p, x.clause)) hx
  obtain ⟨hr, hv, -⟩ := hrep.modify hm
  exact ⟨hr, hv⟩

theorem Tracks.eq_of_p_eq {x y : Entry} (hx : x ∈ xs) (hy : y ∈ xs) (he : x.p = y.p) : x = y :=
  List.inj_on_of_nodup_map h.nodup hx hy he

theorem Tracks.entry {p : Pointer} (hp : p ∈ s.clauses.map Prod.fst) : ∃ x ∈ xs, x.p = p := by
  rw [h.clauses, List.map_map] at hp
  obtain ⟨x, hx, rfl⟩ := List.mem_map.mp hp
  exact ⟨x, hx, rfl⟩

theorem Tracks.exists_read {x : Entry} (hx : x ∈ xs) {P : Clause → Prop} (hP : ∃ c ∈ s.db.read x.p, P c) :
    P x.clause := by
  obtain ⟨c, hc, hP⟩ := hP
  exact Option.some.inj ((h.read hx).1.symm.trans hc) ▸ hP

theorem Tracks.announced_iff {x : Entry} (hx : x ∈ xs) : (x.p, true) ∈ s.clauses ↔ x.announced = true := by
  rw [h.clauses]
  constructor
  · intro hm
    obtain ⟨y, hy, he⟩ := List.mem_map.mp hm
    obtain ⟨hp, ha⟩ := Prod.mk.inj he
    exact h.eq_of_p_eq hy hx hp ▸ ha
  · exact fun ha => List.mem_map.mpr ⟨x, hx, by rw [ha]⟩

theorem Tracks.mem_announced {p : Pointer} (hp : (p, true) ∈ s.clauses) :
    ∃ x ∈ xs, x.p = p ∧ x.announced = true := by
  rw [h.clauses] at hp
  obtain ⟨x, hx, he⟩ := List.mem_map.mp hp
  obtain ⟨hp, ha⟩ := Prod.mk.inj he
  exact ⟨x, hx, hp, ha⟩

theorem Tracks.overApproximated_iff : s.OverApproximated ↔ Exact xs := by
  constructor
  · intro ho x hx ha
    obtain ⟨c, hr, hl, hs⟩ := ho x.p ((h.announced_iff hx).mpr ha)
    obtain rfl := Option.some.inj ((h.read hx).1.symm.trans hr)
    exact Clause.announced_of_right hl (hs _ (.inl (Clause.clauseUpdated_idem _)) fun l hl => ⟨l, hl, rfl⟩)
  · intro he p hp
    obtain ⟨x, hx, rfl, ha⟩ := h.mem_announced hp
    refine ⟨x.clause, (h.read hx).1, fun l => Clause.mightContain_of_announced (he x hx ha),
      fun other ho hsub => ?_⟩
    apply Clause.mightShareAllVarsWith_of_announced (he x hx ha) _ hsub
    cases ho with
    | inl ho => exact ho
    | inr ho =>
      obtain ⟨q, hq, hr⟩ := ho
      obtain ⟨y, hy, rfl, hya⟩ := h.mem_announced hq
      obtain rfl := Option.some.inj ((h.read hy).1.symm.trans hr)
      exact he y hy hya

theorem Tracks.change {x : Entry} (hx : x ∈ xs) (f : Clause → Clause) (announced : Bool → Bool)
    (hv : (f x.clause).Valid) (hi : (f x.clause).initialSize = x.clause.initialSize) :
    ∃ t ys, s.change x.p f announced = some t ∧ Tracks t regionSize ys ∧ (Exact xs →
      (Exact ys ↔ (announced x.announced = true → (f x.clause).clauseUpdated = f x.clause))) := by
  obtain ⟨css, hrep, ho⟩ := h.represents
  have hm : (x.p, x.clause) ∈ objects 0 css := ho ▸ List.mem_map_of_mem (f := fun x : Entry => (x.p, x.clause)) hx
  obtain ⟨-, -, hmod⟩ := hrep.modify hm
  obtain ⟨db', css', hdb, hrep', hsize, ho'⟩ := hmod f hv hi
  let ys := xs.map fun y => if y.p = x.p then ⟨y.p, f y.clause, announced y.announced⟩ else y
  refine ⟨⟨db', s.clauses.map fun y => (y.1, if y.1 = x.p then announced y.2 else y.2)⟩, ys, ?_,
    ⟨⟨css', hrep', ?_⟩, ?_, hsize.trans h.regionSize⟩, fun he => ⟨fun hys hx' => ?_, fun hf => ?_⟩⟩
  · unfold Announcements.change
    rw [hdb]
    rfl
  · rw [ho', ho, List.map_map, List.map_map]
    refine List.map_congr_left fun y _ => ?_
    simp only [Function.comp_apply]
    split <;> rfl
  · rw [h.clauses, List.map_map, List.map_map]
    refine List.map_congr_left fun y _ => ?_
    simp only [Function.comp_apply]
    split <;> rfl
  · refine hys ⟨x.p, f x.clause, announced x.announced⟩ (List.mem_map.mpr ⟨x, hx, ?_⟩) hx'
    rw [if_pos rfl]
  · intro z hz hza
    obtain ⟨y, hy, rfl⟩ := List.mem_map.mp hz
    by_cases hp : y.p = x.p
    · obtain rfl := h.eq_of_p_eq hy hx hp
      simp only [if_true] at hza ⊢
      exact hf hza
    · simp only [hp, if_false] at hza ⊢
      exact he y hy hza

theorem Tracks.forall_read {x : Entry} (hx : x ∈ xs) (P : Clause → Prop) :
    (∀ c ∈ s.db.read x.p, P c) ↔ P x.clause := by
  rw [(h.read hx).1]
  exact ⟨fun hP => hP _ rfl, fun hP c hc => Option.some.inj hc ▸ hP⟩

theorem Tracks.shrink {x : Entry} (hx : x ∈ xs) (f : Clause → Clause) (hv : (f x.clause).Valid)
    (hi : (f x.clause).initialSize = x.clause.initialSize)
    (ha : (f x.clause).m_approximatedClause = x.clause.m_approximatedClause) (left : Clause → List CNFLit)
    (hleft : (f x.clause).value.lits.Perm (left x.clause)) (hsub : left x.clause ⊆ x.clause.value.lits) :
    ∃ t ys, s.change x.p f id = some t ∧ Tracks t regionSize ys ∧ (Exact xs →
      (Exact ys ↔ ((x.p, true) ∈ s.clauses → ∀ c ∈ s.db.read x.p, SameRemainders c.value.lits (left c)))) := by
  obtain ⟨t, ys, ht, hys, hexact⟩ := h.change hx f id hv hi
  refine ⟨t, ys, ht, hys, fun he => (hexact he).trans ?_⟩
  rw [h.announced_iff hx, h.forall_read hx fun c => SameRemainders c.value.lits (left c)]
  refine forall_congr' fun hxa => ?_
  rw [Clause.clauseUpdated_shrunk (he x hx hxa) ha fun l hl => hsub (hleft.subset hl)]
  exact forall₂_congr fun l _ => exists_congr fun m => and_congr_left fun _ => hleft.mem_iff

theorem Tracks.createClause {size : Nat} (hn : 1 ≤ size) (u : Nat → CNFLit) :
    ∃ t ys, s.step (.createClause size u) = some t ∧ Tracks t regionSize ys ∧ (Exact xs → (Exact ys ↔ True)) := by
  obtain ⟨css, hrep, ho⟩ := h.represents
  cases hrep.createClause hn u with
  | inl hnone =>
    refine ⟨s, xs, ?_, h, fun he => iff_true_intro he⟩
    unfold Announcements.step
    dsimp only
    rw [hnone.2]
  | inr hsome =>
    obtain ⟨-, p, db', css', hc, hrep', hsize, ho'⟩ := hsome
    refine ⟨⟨db', s.clauses ++ [(p, false)]⟩, xs ++ [⟨p, .constructIn size u, false⟩], ?_,
      ⟨⟨css', hrep', ?_⟩, ?_, hsize.trans h.regionSize⟩, fun he => iff_true_intro ?_⟩
    · unfold Announcements.step
      dsimp only
      rw [hc]
    · rw [ho', ho, List.map_append]
      rfl
    · rw [h.clauses, List.map_append]
      rfl
    · intro x hx hxa
      cases List.mem_append.mp hx with
      | inl hx => exact he x hx hxa
      | inr hx =>
        rw [List.mem_singleton.mp hx] at hxa
        cases hxa

theorem Tracks.edit {p : Pointer} {e : Edit} (ha : s.Allowed (.edit p e)) (hs : s.Storable (.edit p e)) :
    ∃ t ys, s.step (.edit p e) = some t ∧ Tracks t regionSize ys ∧
      (Exact xs → (Exact ys ↔ s.Preserved (.edit p e))) := by
  obtain ⟨hp, he⟩ := ha
  obtain ⟨x, hx, rfl⟩ := h.entry hp
  replace he := h.exists_read hx he
  obtain ⟨hv, hi, hval⟩ := Edit.apply_spec (h.read hx).2 he (by
    rintro n rfl hlt
    exact hs _ (h.read hx).1 hlt)
  obtain ⟨t, ys, ht, hys, hexact⟩ :=
    h.change hx (fun c => e.apply c) (fun announced => announced && !e.writes) hv hi
  refine ⟨t, ys, ht, hys, fun hex => (hexact hex).trans ?_⟩
  have hkeep : ∀ d : Clause, d.value.lits = x.clause.value.lits →
      d.m_approximatedClause = x.clause.m_approximatedClause → (x.announced && true) = true →
        d.clauseUpdated = d := by
    intro d hl happ hxa
    rw [Bool.and_true] at hxa
    exact (Clause.clauseUpdated_copied (hex x hx hxa) hl).mpr happ
  cases e with
  | write i l => exact iff_of_true (fun hf => absurd hf (by simp [Edit.writes])) trivial
  | resize n =>
    show (x.announced && true) = true → _ ↔ ((x.p, true) ∈ s.clauses → ∀ c ∈ s.db.read x.p, _)
    rw [Bool.and_true, h.announced_iff hx,
      h.forall_read hx fun c => SameRemainders c.value.lits (c.value.lits.take n)]
    refine forall_congr' fun hxa => ?_
    have hlits : (x.clause.resize n).value.lits = x.clause.value.lits.take n := congrArg ClauseValue.lits hval
    rw [← hlits]
    apply Clause.clauseUpdated_shrunk (hex x hx hxa) (Clause.resize_approximation x.clause n)
    rw [hlits]
    exact List.take_subset _ _
  | setLBD lbd => exact iff_of_true (hkeep (x.clause.setLBD lbd) rfl rfl) trivial
  | setFlag f => exact iff_of_true (hkeep (x.clause.setFlag f) rfl rfl) trivial
  | clearFlag f => exact iff_of_true (hkeep (x.clause.clearFlag f) rfl rfl) trivial

theorem Tracks.eraseRange {p : Pointer} {first last : Nat} (ha : s.Allowed (.eraseRange p first last))
    (hs : s.Storable (.eraseRange p first last)) :
    ∃ t ys, s.step (.eraseRange p first last) = some t ∧ Tracks t regionSize ys ∧
      (Exact xs → (Exact ys ↔ s.Preserved (.eraseRange p first last))) := by
  obtain ⟨hp, hc⟩ := ha
  obtain ⟨x, hx, rfl⟩ := h.entry hp
  obtain ⟨hle, hlast, hkeep⟩ := h.exists_read hx hc
  obtain ⟨hr, hv⟩ := h.read hx
  obtain ⟨hv', hi, happ⟩ := Clause.eraseRange_valid hv hle hlast hkeep (hs _ hr)
  refine h.shrink hx (fun c => c.eraseRange first last) hv' hi happ _ (Clause.eraseRange_perm hle hlast).2
    fun l hl => ?_
  exact (List.mem_append.mp hl).elim (fun hl => List.mem_of_mem_take hl) fun hl => List.mem_of_mem_drop hl

theorem Tracks.erase {p : Pointer} {pos : Nat} (ha : s.Allowed (.erase p pos)) (hs : s.Storable (.erase p pos)) :
    ∃ t ys, s.step (.erase p pos) = some t ∧ Tracks t regionSize ys ∧
      (Exact xs → (Exact ys ↔ s.Preserved (.erase p pos))) := by
  obtain ⟨hp, hc⟩ := ha
  obtain ⟨x, hx, rfl⟩ := h.entry hp
  obtain ⟨hpos, hsize⟩ := h.exists_read hx hc
  obtain ⟨hr, hv⟩ := h.read hx
  obtain ⟨hv', hi, happ⟩ := Clause.eraseRange_valid hv (Nat.le_succ pos) hpos (by omega) fun _ => hs _ hr
  have hperm := (Clause.eraseRange_perm (Nat.le_succ pos) hpos).2
  rw [← Clause.erase_eq hpos] at hv' hi happ hperm
  refine h.shrink hx (fun c => c.erase pos) hv' hi happ (fun c => c.value.lits.eraseIdx pos) ?_
    fun l hl => List.mem_of_mem_eraseIdx hl
  rw [List.eraseIdx_eq_take_drop_succ]
  exact hperm

theorem Tracks.clauseUpdated {p : Pointer} (ha : s.Allowed (.clauseUpdated p)) :
    ∃ t ys, s.step (.clauseUpdated p) = some t ∧ Tracks t regionSize ys ∧ (Exact xs → (Exact ys ↔ True)) := by
  obtain ⟨x, hx, rfl⟩ := h.entry ha
  obtain ⟨t, ys, ht, hys, hexact⟩ := h.change hx Clause.clauseUpdated (fun _ => true)
    ⟨(h.read hx).2.pos, (h.read hx).2.le⟩ rfl
  exact ⟨t, ys, ht, hys, fun he => (hexact he).trans (iff_true_intro fun _ => Clause.clauseUpdated_idem _)⟩

theorem Tracks.assign {target source : Pointer} (ha : s.Allowed (.assign target source))
    (hs : s.Storable (.assign target source)) :
    ∃ t ys, s.step (.assign target source) = some t ∧ Tracks t regionSize ys ∧
      (Exact xs → (Exact ys ↔ s.Preserved (.assign target source))) := by
  obtain ⟨htarget, hsource, hle⟩ := ha
  obtain ⟨x, hx, rfl⟩ := h.entry htarget
  obtain ⟨y, hy, rfl⟩ := h.entry hsource
  replace hle := h.exists_read hy (h.exists_read hx hle)
  unfold Announcements.step
  dsimp only
  by_cases hself : x.p = y.p
  · rw [if_pos hself]
    exact ⟨s, xs, rfl, h, fun he => iff_of_true he fun hne => absurd hself hne⟩
  · rw [if_neg hself, (h.read hy).1]
    obtain ⟨hv, hi, happ⟩ :=
      Clause.assign_valid (h.read hx).2 (h.read hy).2 hle (hs _ (h.read hx).1 _ (h.read hy).1)
    obtain ⟨t, ys, ht, hys, hexact⟩ := h.change hx (fun c => c.assign y.clause)
      (fun _ => decide ((y.p, true) ∈ s.clauses)) hv hi
    refine ⟨t, ys, ht, hys, fun he => (hexact he).trans ?_⟩
    have hread :=
      h.forall_read hx fun c => ∀ other ∈ s.db.read y.p, c.m_approximatedClause = other.m_approximatedClause
    unfold Preserved
    dsimp only
    rw [hread, h.forall_read hy fun other => x.clause.m_approximatedClause = other.m_approximatedClause,
      decide_eq_true_iff, h.announced_iff hy]
    have hlits : (x.clause.assign y.clause).value.lits = y.clause.value.lits :=
      (@Clause.Shrink.apply_spec _ (.assign y.clause) hle).2
    constructor
    · intro hcopy _ hya
      rw [← happ]
      exact (Clause.clauseUpdated_copied (he y hy hya) hlits).mp (hcopy hya)
    · intro hsame hya
      apply (Clause.clauseUpdated_copied (he y hy hya) hlits).mpr
      rw [happ]
      exact hsame hself hya

/-- The copies of `compress` have empty approximations. -/
theorem Tracks.compress : ∃ t ys, s.step .compress = some t ∧ Tracks t regionSize ys ∧
    (Exact xs → (Exact ys ↔ s.Preserved .compress)) := by
  obtain ⟨css, hrep, ho⟩ := h.represents
  obtain ⟨db', css', hdb, hrep', hsize, hval⟩ := hrep.compress
  have hscheduled : ∀ x ∈ xs, s.scheduled x.p = x.clause.getFlag .SCHEDULED_FOR_DELETION := by
    intro x hx
    unfold scheduled
    rw [(h.read hx).1]
    rfl
  obtain ⟨kept, hkept⟩ : ∃ kept, kept = xs.filter fun x => !x.clause.getFlag .SCHEDULED_FOR_DELETION := ⟨_, rfl⟩
  have hclauses : IterableClauseDB.clauses css' = kept.map fun x => x.clause.compressed := by
    rw [hval, ← objects_clauses css 0, ho, List.map_map, List.filter_map, List.map_map, hkept]
    rfl
  have hflags : (s.clauses.filter fun x => !s.scheduled x.1).map Prod.snd = kept.map Entry.announced := by
    rw [h.clauses, List.filter_map, List.map_map, hkept]
    refine congrArg (List.map Entry.announced) (List.filter_congr fun x hx => ?_)
    exact congrArg _ (hscheduled x hx)
  -- the pointers after it, in the same order
  obtain ⟨ps, hps⟩ : ∃ ps, ps = (objects 0 css').map Prod.fst := ⟨_, rfl⟩
  have hlen : ps.length = kept.length := by
    have hlength := congrArg List.length hclauses
    rw [← objects_clauses css' 0, List.length_map, List.length_map] at hlength
    rw [hps, List.length_map, hlength]
  have hrelocate : relocate ps (s.clauses.filter fun x => !s.scheduled x.1) =
      ps.zip (kept.map Entry.announced) := by
    have hlength := congrArg List.length hflags
    rw [List.length_map, List.length_map] at hlength
    rw [relocate_eq_zip (hlen.trans hlength.symm), hflags]
  let ys := (ps.zip kept).map fun y => Entry.mk y.1 y.2.clause.compressed y.2.announced
  have hmem : ∀ x ∈ xs, x ∈ kept ↔ x.clause.getFlag .SCHEDULED_FOR_DELETION = false := by
    intro x hx
    rw [hkept, List.mem_filter, Bool.not_eq_true']
    exact and_iff_right hx
  refine ⟨⟨db', ps.zip (kept.map Entry.announced)⟩, ys, ?_, ⟨⟨css', hrep', ?_⟩, ?_, hsize.trans h.regionSize⟩,
    fun _ => ⟨fun hys p hp => ?_, fun hpres y hy hya => ?_⟩⟩
  · unfold Announcements.step
    dsimp only
    rw [hdb]
    dsimp only [Option.bind_eq_bind, Option.bind_some]
    rw [getClauses_eq hrep'.active, ← hrelocate, hps, ← listing_fst]
    rfl
  · have hzip : objects 0 css' = ps.zip (IterableClauseDB.clauses css') := by
      rw [hps, ← objects_clauses css' 0]
      exact List.zip_of_prod rfl rfl
    rw [hzip, hclauses, List.zip_map_right, List.map_map]
    rfl
  · show ps.zip (kept.map Entry.announced) = _
    rw [List.zip_map_right, List.map_map]
    rfl
  · obtain ⟨x, hx, rfl, hxa⟩ := h.mem_announced hp
    rw [hscheduled x hx]
    by_contra hno
    have hxk := (hmem x hx).mpr (Bool.eq_false_of_not_eq_true hno)
    rw [← List.map_snd_zip hlen.ge] at hxk
    obtain ⟨z, hz, rfl⟩ := List.mem_map.mp hxk
    exact Clause.compressed_not_announced (h.read hx).2 (hys _ (List.mem_map_of_mem hz) hxa)
  · obtain ⟨z, hz, rfl⟩ := List.mem_map.mp hy
    have hzk := (List.of_mem_zip hz).2
    have hzx : z.2 ∈ xs := by
      rw [hkept] at hzk
      exact List.mem_of_mem_filter hzk
    have hgone := hpres z.2.p ((h.announced_iff hzx).mpr hya)
    rw [hscheduled _ hzx, (hmem _ hzx).mp hzk] at hgone
    cases hgone

theorem Tracks.step {op : Change} (ha : s.Allowed op) (hs : s.Storable op) :
    ∃ t ys, s.step op = some t ∧ Tracks t regionSize ys ∧ (Exact xs → (Exact ys ↔ s.Preserved op)) := by
  cases op with
  | createClause size u => exact h.createClause ha u
  | edit p e => exact h.edit ha hs
  | erase p pos => exact h.erase ha hs
  | eraseRange p first last => exact h.eraseRange ha hs
  | clauseUpdated p => exact h.clauseUpdated ha
  | assign target source => exact h.assign ha hs
  | compress => exact h.compress

end

/-- In every run that preserves the approximations they are never too small, and no other step keeps them so. -/
theorem overApproximated_of_preserved
    (h : Reachable (fun s op => s.Storable op ∧ s.Preserved op) regionSize s) :
    s.OverApproximated ∧ ∀ op, s.Allowed op → s.Storable op →
      ∃ t, s.step op = some t ∧ (t.OverApproximated ↔ s.Preserved op) := by
  have hinv : ∃ xs, Tracks s regionSize xs ∧ Exact xs := by
    apply h.invariant
    · rintro s rfl
      exact ⟨[], ⟨⟨[], .new regionSize, rfl⟩, rfl, rfl⟩, nofun⟩
    · intro s t hi hstep
      obtain ⟨xs, hx, he⟩ := hi
      obtain ⟨op, ha, hc, ht⟩ := hstep
      obtain ⟨t', ys, ht', hys, hexact⟩ := hx.step ha hc.1
      obtain rfl := Option.some.inj (ht'.symm.trans ht)
      exact ⟨ys, hys, (hexact he).mpr hc.2⟩
  obtain ⟨xs, hx, he⟩ := hinv
  refine ⟨hx.overApproximated_iff.mpr he, fun op ha hs => ?_⟩
  obtain ⟨t, ys, ht, hys, hexact⟩ := hx.step ha hs
  exact ⟨t, ht, hys.overApproximated_iff.trans (hexact he)⟩

def attempt (s : Announcements) (op : Change) : Option Announcements := if s.Allowed op then s.step op else none

theorem reachable_of_attempt {condition : Announcements → Change → Prop} {ops : List Change}
    (hc : ∀ op ∈ ops, ∀ s, condition s op) (h : ops.foldlM attempt (new regionSize) = some s) :
    Reachable condition regionSize s := by
  refine Runs.Reachable.foldlM (.init rfl) (fun op hop s t ht => ?_) h
  unfold attempt at ht
  split at ht
  · rename_i ha
    exact ⟨op, ha, hc op hop s, ht⟩
  · cases ht

def announceOne : List Change :=
  [.createClause 1 default, .edit ⟨0, 0⟩ (.write 0 ⟨3, .positive⟩), .clauseUpdated ⟨0, 0⟩]

theorem announceOne_overApproximated : ∃ s, announceOne.foldlM attempt (new 100) = some s ∧ s.OverApproximated ∧
    ∀ op, s.Allowed op → s.Storable op → ∃ t, s.step op = some t ∧ (t.OverApproximated ↔ s.Preserved op) := by
  have hsome : (announceOne.foldlM attempt (new 100)).isSome = true := by decide +kernel
  obtain ⟨s, hs⟩ := Option.isSome_iff_exists.mp hsome
  have hreach : Reachable (fun s op => s.Storable op ∧ s.Preserved op) 100 s := by
    apply reachable_of_attempt _ hs
    exact List.forall_mem_cons.mpr
      ⟨fun _ => ⟨trivial, trivial⟩, List.forall_mem_cons.mpr ⟨fun _ => ⟨trivial, trivial⟩,
      List.forall_mem_cons.mpr ⟨fun _ => ⟨trivial, trivial⟩, nofun⟩⟩⟩
  exact ⟨s, hs, overApproximated_of_preserved hreach⟩

/-- After `compress` the clause is said not to contain its literal. -/
theorem announceOne_compressed : ∃ s, Reachable (fun _ _ => True) 100 s ∧ ¬ s.OverApproximated := by
  have hwrong : ((announceOne ++ [Change.compress]).foldlM attempt (new 100)).map (fun s : Announcements =>
      (decide (((⟨0, 0⟩ : Pointer), true) ∈ s.clauses),
        (s.db.read ⟨0, 0⟩).map fun c => c.value.lits.map c.mightContain)) = some (true, some [false]) := by
    decide +kernel
  obtain ⟨s, hs, he⟩ := Option.map_eq_some_iff.mp hwrong
  obtain ⟨hp, hr⟩ := Prod.mk.inj he
  refine ⟨s, reachable_of_attempt (fun _ _ _ => trivial) hs, fun ho => ?_⟩
  obtain ⟨c, hc, hl, -⟩ := ho _ (of_decide_eq_true hp)
  rw [hc, Option.map_some, Option.some.injEq] at hr
  have hmem : false ∈ c.value.lits.map c.mightContain := by
    rw [hr]
    exact List.mem_singleton_self _
  obtain ⟨l, hlc, hf⟩ := List.mem_map.mp hmem
  rw [hl l hlc] at hf
  cases hf

end Announcements

end IterableClauseDB

end JamSAT
