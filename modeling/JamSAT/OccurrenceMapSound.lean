import JamSAT.OccurrenceMap
import Mathlib.Data.List.Lattice

/-!
# The occurrence map is exact where it is looked at

A list holds every container its element occurs in. What else it holds is pending
there, and is gone once the list has been looked up.
-/

namespace JamSAT

namespace OccurrenceMap

open OccContainer

variable {C T E : Type} [OccContainer T E]

def Unflagged (mem mem' : C → T) : Prop :=
  ∀ (β : Type) (f : T → β), (∀ t, f (OccContainer.clearModified t) = f t) → ∀ c, f (mem' c) = f (mem c)

namespace Unflagged

variable {mem mem' mem'' : C → T}

theorem refl (mem : C → T) : Unflagged mem mem := fun _ _ _ _ => rfl

theorem trans (h : Unflagged mem mem') (h' : Unflagged mem' mem'') : Unflagged mem mem'' :=
  fun β f hf c => (h' β f hf c).trans (h β f hf c)

theorem elements (h : Unflagged mem mem') (c : C) :
    OccContainer.elements (mem' c) = OccContainer.elements (mem c) :=
  h _ OccContainer.elements elements_clearModified c

theorem deleted (h : Unflagged mem mem') (c : C) : OccContainer.deleted (mem' c) = OccContainer.deleted (mem c) :=
  h _ OccContainer.deleted deleted_clearModified c

end Unflagged

variable [DecidableEq C]

theorem clearModified_of_ne {mem : C → T} {c d : C} (h : d ≠ c) : clearModified mem c d = mem d := by
  simp [clearModified, h]

theorem unflagged_clearModified (mem : C → T) (c : C) : Unflagged mem (clearModified mem c) := by
  intro β f hf d
  by_cases h : d = c
  · subst h
    simp [clearModified, hf]
  · rw [clearModified_of_ne h]

variable {mem mem' : C → T} {m : OccurrenceMap C E} {c d : C} {l value : E}

/-! ## Pending removals -/

def Pending (m : OccurrenceMap C E) (c : C) (l : E) : Prop := l ∈ (m.pending c).getD []

theorem lookup_filter_self (xs : List (C × List E)) (c : C) :
    (xs.filter fun e => e.1 ≠ c).lookup c = none := by
  induction xs with
  | nil => rfl
  | cons e xs ih =>
    by_cases h : e.1 = c
    · rw [List.filter_cons_of_neg (by simpa using h)]; exact ih
    · rw [List.filter_cons_of_pos (by simpa using h)]
      obtain ⟨k, v⟩ := e
      have hne : (c == k) = false := by simpa using Ne.symm h
      rw [List.lookup_cons, hne]; exact ih

theorem lookup_filter_of_ne (xs : List (C × List E)) (h : d ≠ c) :
    (xs.filter fun e => e.1 ≠ c).lookup d = xs.lookup d := by
  induction xs with
  | nil => rfl
  | cons e xs ih =>
    obtain ⟨k, v⟩ := e
    by_cases hk : k = c
    · subst hk
      have hne : (d == k) = false := by simpa using h
      rw [List.filter_cons_of_neg (by simp), List.lookup_cons, hne]; exact ih
    · rw [List.filter_cons_of_pos (by simpa using hk), List.lookup_cons, List.lookup_cons, ih]

theorem pending_erasePending_self : ¬ (m.erasePending c).Pending c l := by
  rw [Pending, pending, erasePending, lookup_filter_self]
  exact List.not_mem_nil

theorem pending_erasePending_of_ne (h : d ≠ c) : (m.erasePending c).Pending d l ↔ m.Pending d l := by
  rw [Pending, pending, erasePending, lookup_filter_of_ne _ h]; rfl

theorem pending_setPending_self (ls : List E) : (m.setPending c ls).Pending c l ↔ l ∈ ls := by
  simp [Pending, pending, setPending]

theorem pending_setPending_of_ne (h : d ≠ c) (ls : List E) :
    (m.setPending c ls).Pending d l ↔ m.Pending d l := by
  have hne : (d == c) = false := by simpa using h
  rw [← pending_erasePending_of_ne (m := m) h]
  simp only [Pending, pending, setPending, List.lookup_cons, hne]

def GoodEntry (m : OccurrenceMap C E) (e : C × List E) : Prop := m.pending e.1 = some e.2 ∧ e.2 ≠ []

theorem goodEntry_erasePending {e : C × List E} (h : ∀ e ∈ m.delModUpdates, e.1 ≠ c → m.GoodEntry e)
    (he : e ∈ (m.erasePending c).delModUpdates) : (m.erasePending c).GoodEntry e := by
  obtain ⟨he, hne⟩ := List.mem_filter.mp he
  have hc : e.1 ≠ c := of_decide_eq_true hne
  obtain ⟨hp, hnil⟩ := h e he hc
  refine ⟨?_, hnil⟩
  unfold pending erasePending at *
  rw [lookup_filter_of_ne _ hc, hp]

theorem goodEntry_setPending {e : C × List E} (h : ∀ e ∈ m.delModUpdates, e.1 ≠ c → m.GoodEntry e) {ls : List E}
    (he : e ∈ (m.setPending c ls).delModUpdates) (hne : e.1 ≠ c ∨ ls ≠ []) : (m.setPending c ls).GoodEntry e := by
  cases List.mem_cons.mp he with
  | inl heq =>
    subst heq
    exact ⟨by simp [pending, setPending], hne.resolve_left fun hc => hc rfl⟩
  | inr he =>
    have hc : e.1 ≠ c := of_decide_eq_true (List.mem_filter.mp he).2
    obtain ⟨hp, hnil⟩ := goodEntry_erasePending h he
    refine ⟨?_, hnil⟩
    have hne : (e.1 == c) = false := by simpa using hc
    unfold pending setPending at *
    rw [List.lookup_cons, hne]
    exact hp

/-! ## The invariant -/

def PendingInv (mem : C → T) (m : OccurrenceMap C E) : Prop :=
  ∀ c l, m.Pending c l → l ∉ elements (mem c) ∧ modified (mem c) = true

structure Inv (db : List C) (mem : C → T) (m : OccurrenceMap C E) : Prop where
  nodup : ∀ l, (m.occList l).Nodup
  sound : ∀ l, ∀ c ∈ m.occList l, c ∈ db
  complete : ∀ c ∈ db, deleted (mem c) = false → ∀ l ∈ elements (mem c), c ∈ m.occList l
  occurs : ∀ l, ∀ c ∈ m.occList l, l ∈ elements (mem c) ∨ m.Pending c l ∧ m.requiresUpdate l = true
  alive : ∀ l, ∀ c ∈ m.occList l, deleted (mem c) = true → m.requiresUpdate l = true
  pending : PendingInv mem m
  stale : ∀ c l, m.Pending c l → deleted (mem c) = false → c ∈ m.occList l ∧ m.requiresUpdate l = true
  pending_db : ∀ c l, m.Pending c l → c ∈ db
  entries : ∀ e ∈ m.delModUpdates, m.GoodEntry e

/-- The invariant without `alive`, which a deleted container that is modified may break. -/
structure Settling (db : List C) (mem : C → T) (m : OccurrenceMap C E) : Prop where
  nodup : ∀ l, (m.occList l).Nodup
  sound : ∀ l, ∀ c ∈ m.occList l, c ∈ db
  complete : ∀ c ∈ db, deleted (mem c) = false → ∀ l ∈ elements (mem c), c ∈ m.occList l
  occurs : ∀ l, ∀ c ∈ m.occList l, l ∈ elements (mem c) ∨ m.Pending c l ∧ m.requiresUpdate l = true
  pending : PendingInv mem m
  stale : ∀ c l, m.Pending c l → deleted (mem c) = false → c ∈ m.occList l ∧ m.requiresUpdate l = true
  pending_db : ∀ c l, m.Pending c l → c ∈ db
  entries : ∀ e ∈ m.delModUpdates, m.GoodEntry e

theorem Inv.settling {db : List C} (h : Inv db mem m) : Settling db mem m :=
  ⟨h.nodup, h.sound, h.complete, h.occurs, h.pending, h.stale, h.pending_db, h.entries⟩

theorem Settling.inv {db : List C} (h : Settling db mem m)
    (ha : ∀ l, ∀ c ∈ m.occList l, deleted (mem c) = true → m.requiresUpdate l = true) : Inv db mem m :=
  ⟨h.nodup, h.sound, h.complete, h.occurs, ha, h.pending, h.stale, h.pending_db, h.entries⟩

/-! ## Lookup -/

variable [DecidableEq E]

structure Cleared (c : C) (value : E) (mem : C → T) (m : OccurrenceMap C E) (r : OccurrenceMap C E × (C → T)) :
    Prop where
  pending_iff : ∀ d l, r.1.Pending d l ↔ m.Pending d l ∧ ¬ (d = c ∧ l = value)
  occList : r.1.occList = m.occList
  requiresUpdate : r.1.requiresUpdate = m.requiresUpdate
  same : Unflagged mem r.2
  pending : PendingInv r.2 r.1
  entries : (∀ e ∈ m.delModUpdates, m.GoodEntry e) → ∀ e ∈ r.1.delModUpdates, r.1.GoodEntry e

theorem entries_clearRemoval (h : ∀ e ∈ m.delModUpdates, m.GoodEntry e) (mem : C → T) (c : C) (value : E) :
    ∀ e ∈ (m.clearRemoval mem c value).1.delModUpdates, (m.clearRemoval mem c value).1.GoodEntry e := by
  unfold clearRemoval
  dsimp only
  split
  · exact fun e he => goodEntry_erasePending (fun e he _ => h e he) he
  · rename_i hne
    exact fun e he => goodEntry_setPending (fun e he _ => h e he) he (.inr fun he => hne (List.isEmpty_iff.mpr he))

theorem clearRemoval_spec (hp : PendingInv mem m) (c : C) (value : E) :
    Cleared c value mem m (m.clearRemoval mem c value) := by
  have hgood := fun h => entries_clearRemoval (m := m) h mem c value
  unfold clearRemoval at hgood ⊢
  dsimp only at hgood ⊢
  split
  · rename_i he
    rw [if_pos he] at hgood
    have hrest : ∀ l, m.Pending c l → l = value := by
      intro l hl
      by_contra hne
      have hm : l ∈ ((m.pending c).getD []).filter (· ≠ value) := List.mem_filter.mpr ⟨hl, by simpa using hne⟩
      rw [List.isEmpty_iff.mp he] at hm
      cases hm
    have hiff : ∀ d l, (m.erasePending c).Pending d l ↔ m.Pending d l ∧ ¬ (d = c ∧ l = value) := by
      intro d l
      by_cases hd : d = c
      · subst hd
        exact ⟨fun h => absurd h pending_erasePending_self, fun h => absurd ⟨rfl, hrest l h.1⟩ h.2⟩
      · rw [pending_erasePending_of_ne hd]
        exact ⟨fun h => ⟨h, fun he => hd he.1⟩, fun h => h.1⟩
    refine ⟨hiff, rfl, rfl, unflagged_clearModified mem c, fun d l hl => ?_, hgood⟩
    obtain ⟨hl, hne⟩ := (hiff d l).mp hl
    have hd : d ≠ c := fun he => hne ⟨he, hrest l (he ▸ hl)⟩
    show l ∉ elements (clearModified mem c d) ∧ modified (clearModified mem c d) = true
    rw [clearModified_of_ne hd]
    exact hp d l hl
  · rename_i hne
    rw [if_neg hne] at hgood
    have hiff : ∀ d l, (m.setPending c (((m.pending c).getD []).filter (· ≠ value))).Pending d l ↔
        m.Pending d l ∧ ¬ (d = c ∧ l = value) := by
      intro d l
      by_cases hd : d = c
      · subst hd
        rw [pending_setPending_self, List.mem_filter]
        simp [Pending]
      · rw [pending_setPending_of_ne hd]
        exact ⟨fun h => ⟨h, fun he => hd he.1⟩, fun h => h.1⟩
    exact ⟨hiff, rfl, rfl, .refl mem, fun d l hl => hp d l ((hiff d l).mp hl).1, hgood⟩

structure Swept (value : E) (cs : List C) (mem : C → T) (m : OccurrenceMap C E)
    (r : List C × OccurrenceMap C E × (C → T)) : Prop where
  sublist : r.1.Sublist cs
  mem_iff : ∀ c, c ∈ r.1 ↔ c ∈ cs ∧ deleted (mem c) = false ∧ ¬ m.Pending c value
  same : Unflagged mem r.2.2
  occList : r.2.1.occList = m.occList
  requiresUpdate : r.2.1.requiresUpdate = m.requiresUpdate
  pending_iff : ∀ c l, r.2.1.Pending c l ↔ m.Pending c l ∧ ¬ (l = value ∧ c ∈ cs ∧ deleted (mem c) = false)
  pending : PendingInv r.2.2 r.2.1
  entries : (∀ e ∈ m.delModUpdates, m.GoodEntry e) → ∀ e ∈ r.2.1.delModUpdates, r.2.1.GoodEntry e

theorem sweep_spec : ∀ (cs : List C) (m : OccurrenceMap C E) (mem : C → T), cs.Nodup → PendingInv mem m →
    Swept value cs mem m (sweep value cs m mem) := by
  intro cs
  induction cs with
  | nil =>
    intro m mem _ hp
    exact ⟨List.Sublist.refl _, by simp [sweep], .refl mem, rfl, rfl, fun _ _ => by simp [sweep], hp, fun h => h⟩
  | cons c cs ih =>
    intro m mem hn hp
    obtain ⟨hc, hn⟩ := List.nodup_cons.mp hn
    unfold sweep
    split
    · rename_i hdel
      have h := ih m mem hn hp
      have hcs : ∀ d, d ∈ cs ∧ deleted (mem d) = false ↔ d ∈ c :: cs ∧ deleted (mem d) = false := by
        intro d
        rw [List.mem_cons]
        refine ⟨fun hd => ⟨.inr hd.1, hd.2⟩, fun hd => ⟨hd.1.resolve_left ?_, hd.2⟩⟩
        rintro rfl
        exact Bool.false_ne_true (hd.2.symm.trans hdel)
      refine ⟨h.sublist.cons c, fun d => ?_, h.same, h.occList, h.requiresUpdate, fun d l => ?_, h.pending,
        h.entries⟩
      · rw [h.mem_iff d, ← and_assoc, hcs d, and_assoc]
      · rw [h.pending_iff d l, hcs d]
    · rename_i hdel
      have hc' : deleted (mem c) = false := Bool.eq_false_of_not_eq_true hdel
      split
      · rename_i hmod
        have hcl := clearRemoval_spec hp c value
        have h := ih _ _ hn hcl.pending
        refine ⟨h.sublist.cons c, fun d => ?_, hcl.same.trans h.same, h.occList.trans hcl.occList,
          h.requiresUpdate.trans hcl.requiresUpdate, fun d l => ?_, h.pending, fun he => h.entries (hcl.entries he)⟩
        · rw [h.mem_iff d, hcl.same.deleted, hcl.pending_iff, List.mem_cons]
          by_cases hd : d = c
          · subst hd
            exact ⟨fun h => absurd h.1 hc, fun h => absurd hmod.2 h.2.2⟩
          · simp [hd]
        · rw [h.pending_iff d l, hcl.pending_iff, hcl.same.deleted, List.mem_cons]
          by_cases hd : d = c
          · subst hd
            simp [hc, hc']
          · simp [hd]
      · rename_i hmod
        have hnp : ¬ m.Pending c value := fun h => hmod ⟨(hp c value h).2, h⟩
        have h := ih m mem hn hp
        refine ⟨h.sublist.cons_cons c, fun d => ?_, h.same, h.occList, h.requiresUpdate, fun d l => ?_, h.pending,
          h.entries⟩
        · rw [List.mem_cons, h.mem_iff d, List.mem_cons]
          by_cases hd : d = c
          · subst hd
            exact ⟨fun _ => ⟨.inl rfl, hc', hnp⟩, fun _ => .inl rfl⟩
          · simp [hd]
        · rw [h.pending_iff d l, List.mem_cons]
          by_cases hd : d = c
          · subst hd
            refine ⟨fun h => ⟨h.1, fun he => hnp (he.1 ▸ h.1)⟩, fun h => ⟨h.1, fun he => hnp (he.1 ▸ h.1)⟩⟩
          · simp [hd]

section
variable {db : List C} (h : Settling db mem m)
include h

theorem Settling.swept (value : E) : Swept value (m.occList value) mem m (sweep value (m.occList value) m mem) :=
  sweep_spec _ _ _ (h.nodup value) h.pending

theorem Settling.pending_lookup (value : E) (c : C) (l : E) :
    (m.lookup mem value).1.Pending c l ↔ m.Pending c l ∧ ¬ (l = value ∧ deleted (mem c) = false) := by
  unfold OccurrenceMap.lookup
  split
  · refine ((h.swept value).pending_iff c l).trans (and_congr_right fun hp => not_congr ?_)
    refine ⟨fun he => ⟨he.1, he.2.2⟩, fun he => ⟨he.1, ?_, he.2⟩⟩
    exact he.1 ▸ (h.stale c l hp he.2).1
  · rename_i hreq
    refine ⟨fun hp => ⟨hp, fun he => hreq ?_⟩, And.left⟩
    exact he.1 ▸ (h.stale c l hp he.2).2

theorem Settling.mem_update (value : E) (c : C) : c ∈ (m.update mem value).1.occList value ↔
    c ∈ m.occList value ∧ deleted (mem c) = false ∧ ¬ m.Pending c value := by
  rw [← (h.swept value).mem_iff c]
  simp [update]

theorem Settling.update_of_ne {value l : E} (hl : l ≠ value) :
    (m.update mem value).1.occList l = m.occList l ∧
      (m.update mem value).1.requiresUpdate l = m.requiresUpdate l := by
  have hs := h.swept value
  simp [update, hl, hs.occList, hs.requiresUpdate]

theorem Settling.occurs_update {value : E} (hc : c ∈ (m.update mem value).1.occList value) :
    deleted (mem c) = false ∧ value ∈ elements (mem c) := by
  obtain ⟨hc, ha, hnp⟩ := (h.mem_update value c).mp hc
  exact ⟨ha, (h.occurs value c hc).resolve_right fun hp => hnp hp.1⟩

theorem Settling.lookup (value : E) :
    Settling db (m.lookup mem value).2 (m.lookup mem value).1 ∧ Unflagged mem (m.lookup mem value).2 := by
  have hpend := h.pending_lookup value
  revert hpend
  unfold OccurrenceMap.lookup
  split
  · intro hpend
    have hs := h.swept value
    have hsame : Unflagged mem (m.update mem value).2 := hs.same
    refine ⟨⟨fun l => ?_, fun l c hc => ?_, fun c hc ha l hl => ?_, fun l c hc => ?_, ?_, fun c l hp hd => ?_,
      fun c l hp => ?_, ?_⟩, hsame⟩
    · by_cases hl : l = value
      · subst hl
        have : (m.update mem l).1.occList l = (sweep l (m.occList l) m mem).1 := by simp [update]
        rw [this]; exact (h.nodup l).sublist hs.sublist
      · rw [(h.update_of_ne hl).1]; exact h.nodup l
    · by_cases hl : l = value
      · subst hl; exact h.sound l c ((h.mem_update l c).mp hc).1
      · rw [(h.update_of_ne hl).1] at hc; exact h.sound l c hc
    · rw [hsame.deleted] at ha
      rw [hsame.elements] at hl
      by_cases he : l = value
      · subst he
        exact (h.mem_update l c).mpr ⟨h.complete c hc ha l hl, ha, fun hp => (h.pending c l hp).1 hl⟩
      · rw [(h.update_of_ne he).1]; exact h.complete c hc ha l hl
    · rw [hsame.elements]
      by_cases he : l = value
      · subst he; exact .inl (h.occurs_update hc).2
      · rw [(h.update_of_ne he).1] at hc
        rw [(h.update_of_ne he).2]
        exact (h.occurs l c hc).imp_right fun hp => ⟨(hpend c l).mpr ⟨hp.1, fun hv => he hv.1⟩, hp.2⟩
    · exact hs.pending
    · rw [hsame.deleted] at hd
      obtain ⟨hp, hne⟩ := (hpend c l).mp hp
      have he : l ≠ value := fun he => hne ⟨he, hd⟩
      rw [(h.update_of_ne he).1, (h.update_of_ne he).2]
      exact h.stale c l hp hd
    · exact h.pending_db c l ((hpend c l).mp hp).1
    · exact hs.entries h.entries
  · exact fun _ => ⟨h, .refl mem⟩

end

section
variable {db : List C} (h : Inv db mem m)
include h

theorem Inv.lookup (value : E) :
    Inv db (m.lookup mem value).2 (m.lookup mem value).1 ∧ Unflagged mem (m.lookup mem value).2 ∧
      ∀ c ∈ (m.lookup mem value).1.occList value, deleted (mem c) = false ∧ value ∈ elements (mem c) := by
  obtain ⟨hset, hsame⟩ := h.settling.lookup value
  have hlist : ∀ c ∈ (m.lookup mem value).1.occList value, deleted (mem c) = false ∧ value ∈ elements (mem c) := by
    intro c hc
    unfold OccurrenceMap.lookup at hc
    split at hc
    · exact h.settling.occurs_update hc
    · rename_i hreq
      refine ⟨Bool.eq_false_of_not_eq_true fun hd => hreq (h.alive value c hc hd), ?_⟩
      exact (h.occurs value c hc).resolve_right fun hp => hreq hp.2
  refine ⟨hset.inv fun l c hc hd => ?_, hsame, hlist⟩
  rw [hsame.deleted] at hd
  by_cases he : l = value
  · subst he
    exact absurd ((hlist c hc).1.symm.trans hd) Bool.false_ne_true
  · unfold OccurrenceMap.lookup at hc ⊢
    split
    · rename_i hreq
      rw [if_pos hreq, (h.settling.update_of_ne he).1] at hc
      rw [(h.settling.update_of_ne he).2]
      exact h.alive l c hc hd
    · rename_i hreq
      rw [if_neg hreq] at hc
      exact h.alive l c hc hd

end

/-! ## Insertion -/

omit [DecidableEq C] in
theorem foldl_pushBack (c : C) : ∀ (ls : List E) (m : OccurrenceMap C E), ls.Nodup →
    (∀ l, (ls.foldl (pushBack c) m).occList l = if l ∈ ls then m.occList l ++ [c] else m.occList l) ∧
      (ls.foldl (pushBack c) m).requiresUpdate = m.requiresUpdate ∧
      (ls.foldl (pushBack c) m).delModUpdates = m.delModUpdates := by
  intro ls
  induction ls with
  | nil => intro m _; exact ⟨fun l => by simp, rfl, rfl⟩
  | cons x ls ih =>
    intro m hn
    obtain ⟨hx, hn⟩ := List.nodup_cons.mp hn
    obtain ⟨ho, hr, hd⟩ := ih (m.pushBack c x) hn
    refine ⟨fun l => ?_, hr, hd⟩
    rw [List.foldl_cons, ho l]
    by_cases hl : l = x
    · subst hl
      simp [hx, pushBack]
    · simp [hl, pushBack]

omit [DecidableEq E] in
theorem pending_congr {m' : OccurrenceMap C E} (h : m'.delModUpdates = m.delModUpdates) (d : C) (l : E) :
    m'.Pending d l ↔ m.Pending d l := by
  unfold Pending OccurrenceMap.pending
  rw [h]

omit [DecidableEq E] in
theorem goodEntry_congr {m' : OccurrenceMap C E} (h : m'.delModUpdates = m.delModUpdates)
    (he : ∀ e ∈ m.delModUpdates, m.GoodEntry e) : ∀ e ∈ m'.delModUpdates, m'.GoodEntry e := by
  unfold GoodEntry OccurrenceMap.pending at *
  rw [h]
  exact he

omit [DecidableEq C] [DecidableEq E] in
theorem mem_pushed {o o' : List C} {p : Prop} [Decidable p] (h : o' = if p then o ++ [c] else o) (d : C) :
    d ∈ o' ↔ d ∈ o ∨ d = c ∧ p := by
  subst h
  by_cases hp : p <;> simp [hp]

omit [DecidableEq C] [DecidableEq E] in
theorem nodup_pushed {o o' : List C} {p : Prop} [Decidable p] (h : o' = if p then o ++ [c] else o) (hn : o.Nodup)
    (hc : p → c ∉ o) : o'.Nodup := by
  subst h
  by_cases hp : p
  · rw [if_pos hp]
    refine List.nodup_append'.mpr ⟨hn, List.nodup_singleton c, fun d hd hdc => ?_⟩
    exact hc hp (List.mem_singleton.mp hdc ▸ hd)
  · rwa [if_neg hp]

theorem Settling.insert {db : List C} (h : Settling db mem m) (hc : c ∉ db)
    (hn : deleted (mem c) = false → (elements (mem c)).Nodup) : Settling (db ++ [c]) mem (m.insert mem c) := by
  unfold OccurrenceMap.insert
  have hdb : ∀ d l, m.Pending d l → d ∈ db ++ [c] := fun d l hp => List.mem_append_left _ (h.pending_db d l hp)
  split
  · rename_i hdel
    refine ⟨h.nodup, fun l d hd => List.mem_append_left _ (h.sound l d hd), fun d hd ha => ?_, h.occurs,
      h.pending, h.stale, hdb, h.entries⟩
    rcases List.mem_append.mp hd with hd | hd
    · exact h.complete d hd ha
    · exact absurd ((List.mem_singleton.mp hd ▸ ha).symm.trans hdel) Bool.false_ne_true
  · rename_i hdel
    obtain ⟨ho, hr, hd⟩ := foldl_pushBack c (elements (mem c)) m (hn (Bool.eq_false_of_not_eq_true hdel))
    have hpend := pending_congr hd
    have hmem : ∀ l d, d ∈ ((elements (mem c)).foldl (pushBack c) m).occList l ↔
        d ∈ m.occList l ∨ l ∈ elements (mem c) ∧ d = c := fun l d => by
      rw [ho l]; split <;> simp_all
    refine ⟨fun l => ?_, fun l d hd => ?_, fun d hd ha l hl => (hmem l d).mpr ?_, fun l d hd => ?_,
      fun d l hl => h.pending d l ((hpend d l).mp hl), fun d l hl hdd => ?_,
      fun d l hl => hdb d l ((hpend d l).mp hl), goodEntry_congr hd h.entries⟩
    · rw [ho l]
      split
      · refine List.nodup_append'.mpr ⟨h.nodup l, List.nodup_singleton c, fun d hd hdc => ?_⟩
        exact hc (List.mem_singleton.mp hdc ▸ h.sound l d hd)
      · exact h.nodup l
    · rcases (hmem l d).mp hd with hd | ⟨-, rfl⟩
      · exact List.mem_append_left _ (h.sound l d hd)
      · exact List.mem_append_right _ (List.mem_singleton_self d)
    · rcases List.mem_append.mp hd with hd | hd
      · exact .inl (h.complete d hd ha l hl)
      · obtain rfl := List.mem_singleton.mp hd
        exact .inr ⟨hl, rfl⟩
    · rw [hpend, hr]
      rcases (hmem l d).mp hd with hd | ⟨hl, rfl⟩
      · exact h.occurs l d hd
      · exact .inl hl
    · rw [hr, hmem]
      obtain ⟨hin, hreq⟩ := h.stale d l ((hpend d l).mp hl) hdd
      exact ⟨.inl hin, hreq⟩

theorem Inv.insert {db : List C} (h : Inv db mem m) (hc : c ∉ db)
    (hn : deleted (mem c) = false → (elements (mem c)).Nodup) : Inv (db ++ [c]) mem (m.insert mem c) := by
  apply (h.settling.insert hc hn).inv
  intro l d hd hdd
  unfold OccurrenceMap.insert at hd ⊢
  split at hd
  · rename_i hdel
    rw [if_pos hdel]
    exact h.alive l d hd hdd
  · rename_i hdel
    obtain ⟨ho, hr, -⟩ := foldl_pushBack c (elements (mem c)) m (hn (Bool.eq_false_of_not_eq_true hdel))
    rw [if_neg hdel, hr]
    cases (mem_pushed (ho l) d).mp hd with
    | inl hd => exact h.alive l d hd hdd
    | inr hd => exact absurd (hd.1 ▸ hdd) hdel

omit [DecidableEq E] in
theorem inv_empty : Inv [] mem (empty : OccurrenceMap C E) := by
  refine ⟨fun _ => List.nodup_nil, ?_, ?_, ?_, ?_, ?_, ?_, ?_, ?_⟩
  · intro l c hc; cases hc
  · intro c hc; cases hc
  · intro l c hc; cases hc
  · intro l c hc; cases hc
  · intro c l hl; cases hl
  · intro c l hl; cases hl
  · intro c l hl; cases hl
  · intro e he; cases he

theorem inv_ofClauses {db : List C} (hn : db.Nodup)
    (hl : ∀ c ∈ db, deleted (mem c) = false → (elements (mem c)).Nodup) : Inv db mem (ofClauses mem db) := by
  have key : ∀ (cs done : List C) (m : OccurrenceMap C E), Inv done mem m → (done ++ cs).Nodup →
      (∀ c ∈ cs, deleted (mem c) = false → (elements (mem c)).Nodup) →
        Inv (done ++ cs) mem (cs.foldl (OccurrenceMap.insert mem) m) := by
    intro cs
    induction cs with
    | nil => intro done m h _ _; simpa using h
    | cons c cs ih =>
      intro done m h hn hl
      obtain ⟨hlc, hl⟩ := List.forall_mem_cons.mp hl
      have happ : done ++ c :: cs = (done ++ [c]) ++ cs := by simp
      have hc : c ∉ done := fun hm => (List.nodup_append'.mp hn).2.2 hm List.mem_cons_self
      rw [happ] at hn ⊢
      exact ih (done ++ [c]) _ (h.insert hc hlc) hn hl
  simpa [ofClauses] using key db [] empty inv_empty (by simpa using hn) hl

omit [DecidableEq E] in
theorem Inv.congr {db : List C} (h : Inv db mem m) (hlits : ∀ c l, l ∈ elements (mem' c) ↔ l ∈ elements (mem c))
    (hdel : ∀ c, deleted (mem' c) = deleted (mem c)) (hmod : ∀ c, modified (mem' c) = modified (mem c)) :
    Inv db mem' m where
  nodup := h.nodup
  sound := h.sound
  complete c hc ha l hl := h.complete c hc (hdel c ▸ ha) l ((hlits c l).mp hl)
  occurs l c hc := (h.occurs l c hc).imp_left (hlits c l).mpr
  alive l c hc hd := h.alive l c hc (hdel c ▸ hd)
  pending c l hp := by
    rw [hlits, hmod]
    exact h.pending c l hp
  stale c l hp hd := h.stale c l hp (hdel c ▸ hd)
  pending_db := h.pending_db
  entries := h.entries

omit [DecidableEq E] in
theorem Settling.of_agree {db : List C} (h : Settling db mem m) (hm : ∀ d ∈ db, mem' d = mem d) :
    Settling db mem' m where
  nodup := h.nodup
  sound := h.sound
  complete d hd ha l hl := h.complete d hd (hm d hd ▸ ha) l (hm d hd ▸ hl)
  occurs l d hd := (h.occurs l d hd).imp_left fun hl => (hm d (h.sound l d hd)).symm ▸ hl
  pending d l hp := (hm d (h.pending_db d l hp)).symm ▸ h.pending d l hp
  stale d l hp ha := h.stale d l hp (hm d (h.pending_db d l hp) ▸ ha)
  pending_db := h.pending_db
  entries := h.entries

omit [DecidableEq E] in
theorem Inv.of_agree {db : List C} (h : Inv db mem m) (hm : ∀ d ∈ db, mem' d = mem d) : Inv db mem' m :=
  (h.settling.of_agree hm).inv fun l d hd hdd => h.alive l d hd (hm d (h.sound l d hd) ▸ hdd)

/-! ## Removal and modification -/

omit [DecidableEq C] in
theorem foldl_setRequiresUpdate (ls : List E) (m : OccurrenceMap C E) :
    (∀ l, (ls.foldl setRequiresUpdate m).requiresUpdate l = true ↔ l ∈ ls ∨ m.requiresUpdate l = true) ∧
      (ls.foldl setRequiresUpdate m).occList = m.occList ∧
      (ls.foldl setRequiresUpdate m).delModUpdates = m.delModUpdates := by
  induction ls generalizing m with
  | nil => exact ⟨fun l => by simp, rfl, rfl⟩
  | cons x ls ih =>
    obtain ⟨hr, ho, hd⟩ := ih (m.setRequiresUpdate x)
    refine ⟨fun l => ?_, ho, hd⟩
    rw [List.foldl_cons, hr l, List.mem_cons]
    by_cases hl : l = x
    · simp [hl, setRequiresUpdate]
    · simp [hl, setRequiresUpdate]

theorem Settling.remove {db : List C} (h : Settling db mem m) (hlits : ∀ d, elements (mem' d) = elements (mem d))
    (hmod : ∀ d, modified (mem' d) = modified (mem d))
    (hkeep : ∀ d, deleted (mem d) = true → deleted (mem' d) = true) :
    Settling db mem' (m.remove mem' c) := by
  obtain ⟨hr, ho, hd⟩ := foldl_setRequiresUpdate (elements (mem' c)) m
  have hpend : ∀ d l, (m.remove mem' c).Pending d l ↔ m.Pending d l := pending_congr hd
  have hocc : (m.remove mem' c).occList = m.occList := ho
  have hreq : ∀ l, (m.remove mem' c).requiresUpdate l = true ↔
    l ∈ elements (mem' c) ∨ m.requiresUpdate l = true := hr
  have halive : ∀ d, deleted (mem' d) = false → deleted (mem d) = false := by
    intro d ha
    refine Bool.eq_false_of_not_eq_true fun hdd => ?_
    exact Bool.false_ne_true (ha.symm.trans (hkeep d hdd))
  refine ⟨?_, ?_, fun d hdb ha l hl => ?_, fun l d hdl => ?_, fun d l hl => ?_,
    fun d l hl ha => ?_, fun d l hl => h.pending_db d l ((hpend d l).mp hl), goodEntry_congr hd h.entries⟩
  · rw [hocc]; exact h.nodup
  · rw [hocc]; exact h.sound
  · rw [hocc]
    exact h.complete d hdb (halive d ha) l (hlits d ▸ hl)
  · rw [hocc] at hdl
    rw [hlits, hpend, hreq]
    exact (h.occurs l d hdl).imp_right fun hp => ⟨hp.1, .inr hp.2⟩
  · rw [hlits, hmod]
    exact h.pending d l ((hpend d l).mp hl)
  · rw [hocc, hreq]
    exact (h.stale d l ((hpend d l).mp hl) (halive d ha)).imp_right .inr

/-- The container at `c` is flagged as deleted in `mem'`. -/
theorem Inv.remove {db : List C} (h : Inv db mem m) (hlits : ∀ d, elements (mem' d) = elements (mem d))
    (hmod : ∀ d, modified (mem' d) = modified (mem d))
    (hdel : ∀ d, deleted (mem' d) = true → d = c ∨ deleted (mem d) = true)
    (hkeep : ∀ d, deleted (mem d) = true → deleted (mem' d) = true) :
    Inv db mem' (m.remove mem' c) := by
  obtain ⟨hr, ho, -⟩ := foldl_setRequiresUpdate (elements (mem' c)) m
  have hocc : (m.remove mem' c).occList = m.occList := ho
  have hreq : ∀ l, (m.remove mem' c).requiresUpdate l = true ↔
    l ∈ elements (mem' c) ∨ m.requiresUpdate l = true := hr
  apply (h.settling.remove hlits hmod hkeep).inv
  intro l d hdl hdd
  rw [hocc] at hdl
  rw [hreq]
  cases hdel d hdd with
  | inl he =>
    subst he
    refine (h.occurs l d hdl).imp (fun hl => ?_) And.right
    rw [hlits]
    exact hl
  | inr hdd => exact .inr (h.alive l d hdl hdd)

omit [DecidableEq C] in
theorem foldl_addElement (c : C) : ∀ (additions : List E) (m : OccurrenceMap C E) (ls : List E), additions.Nodup →
    (∀ l, l ∈ (additions.foldl (addElement c) (m, ls)).2 ↔ l ∈ ls ∧ l ∉ additions) ∧
      (∀ l, (additions.foldl (addElement c) (m, ls)).1.occList l =
        if l ∈ additions ∧ l ∉ ls then m.occList l ++ [c] else m.occList l) ∧
      (additions.foldl (addElement c) (m, ls)).1.requiresUpdate = m.requiresUpdate ∧
      (additions.foldl (addElement c) (m, ls)).1.delModUpdates = m.delModUpdates := by
  intro additions
  induction additions with
  | nil => intro m ls _; exact ⟨fun l => by simp, fun l => by simp, rfl, rfl⟩
  | cons x xs ih =>
    intro m ls hn
    obtain ⟨hx, hn⟩ := List.nodup_cons.mp hn
    rw [List.foldl_cons]
    by_cases hls : x ∈ ls
    · have hstep : addElement c (m, ls) x = (m, ls.filter (· ≠ x)) := if_pos hls
      rw [hstep]
      obtain ⟨hp, ho, hr, hd⟩ := ih m (ls.filter (· ≠ x)) hn
      refine ⟨fun l => ?_, fun l => ?_, hr, hd⟩
      · rw [hp l, List.mem_filter, List.mem_cons]
        simp [and_assoc]
      · rw [ho l]
        congr 1
        by_cases hl : l = x
        · subst hl
          simp [hx, hls]
        · simp [hl]
    · have hstep : addElement c (m, ls) x = (m.pushBack c x, ls) := if_neg hls
      rw [hstep]
      obtain ⟨hp, ho, hr, hd⟩ := ih (m.pushBack c x) ls hn
      refine ⟨fun l => ?_, fun l => ?_, hr, hd⟩
      · rw [hp l, List.mem_cons]
        refine and_congr_right fun hl => not_congr ⟨.inr, fun h => h.resolve_left ?_⟩
        rintro rfl
        exact hls hl
      · rw [ho l]
        by_cases hl : l = x
        · subst hl
          simp [hx, hls, pushBack]
        · simp [hl, pushBack]

structure Added (c : C) (additions : List E) (hasNewRemovals : Bool) (mem : C → T) (m : OccurrenceMap C E)
    (r : OccurrenceMap C E × (C → T)) : Prop where
  mem_iff : ∀ l d, d ∈ r.1.occList l ↔ d ∈ m.occList l ∨ d = c ∧ l ∈ additions ∧ ¬ m.Pending c l
  nodup : ∀ l, (m.occList l).Nodup → (l ∈ additions → ¬ m.Pending c l → c ∉ m.occList l) → (r.1.occList l).Nodup
  requiresUpdate : r.1.requiresUpdate = m.requiresUpdate
  pending_iff : ∀ d l, r.1.Pending d l ↔ m.Pending d l ∧ ¬ (d = c ∧ l ∈ additions)
  same : Unflagged mem r.2
  mem_of_ne : ∀ d, d ≠ c → r.2 d = mem d
  flagged : (∃ l, r.1.Pending c l) ∨ hasNewRemovals = true → r.2 = mem
  others : ∀ e ∈ r.1.delModUpdates, e.1 ≠ c → r.1.GoodEntry e
  entries : hasNewRemovals = false → ∀ e ∈ r.1.delModUpdates, r.1.GoodEntry e

section
variable (he : ∀ e ∈ m.delModUpdates, m.GoodEntry e) (mem : C → T) (c : C) {additions : List E}
  (hn : additions.Nodup) (hasNewRemovals : Bool)
include he hn

theorem addElements_of_none (hp : m.pending c = none) :
    Added c additions hasNewRemovals mem m (m.addElements mem c additions hasNewRemovals) := by
  obtain ⟨ho, hr, hd⟩ := foldl_pushBack c additions m hn
  have hnone : ∀ l, ¬ m.Pending c l := fun l hl => by
    unfold Pending at hl
    rw [hp] at hl
    cases hl
  have hpend : ∀ d l, (additions.foldl (pushBack c) m).Pending d l ↔
      m.Pending d l ∧ ¬ (d = c ∧ l ∈ additions) := by
    intro d l
    rw [pending_congr hd]
    refine ⟨fun h => ⟨h, fun hdc => hnone l (hdc.1 ▸ h)⟩, And.left⟩
  have hmem : ∀ l d, d ∈ (additions.foldl (pushBack c) m).occList l ↔
      d ∈ m.occList l ∨ d = c ∧ l ∈ additions ∧ ¬ m.Pending c l := by
    intro l d
    rw [mem_pushed (ho l) d, and_iff_left (hnone l)]
  have hnodup : ∀ l, (m.occList l).Nodup → (l ∈ additions → ¬ m.Pending c l → c ∉ m.occList l) →
      ((additions.foldl (pushBack c) m).occList l).Nodup :=
    fun l hn' hc => nodup_pushed (ho l) hn' fun hl => hc hl (hnone l)
  have hgood := goodEntry_congr hd he
  cases hasNewRemovals with
  | false =>
    have hrun : m.addElements mem c additions false = (additions.foldl (pushBack c) m, clearModified mem c) := by
      simp [addElements, hp]
    rw [hrun]
    refine ⟨hmem, hnodup, hr, hpend, unflagged_clearModified mem c, fun d hd => clearModified_of_ne hd, ?_,
      fun e h _ => hgood e h, fun _ => hgood⟩
    rintro (⟨l, hl⟩ | hfalse)
    · exact absurd ((hpend c l).mp hl).1 (hnone l)
    · cases hfalse
  | true =>
    have hrun : m.addElements mem c additions true = (additions.foldl (pushBack c) m, mem) := by
      simp [addElements, hp]
    rw [hrun]
    exact ⟨hmem, hnodup, hr, hpend, .refl mem, fun _ _ => rfl, fun _ => rfl, fun e h _ => hgood e h, nofun⟩

theorem addElements_of_some {ls : List E} (hp : m.pending c = some ls) :
    Added c additions hasNewRemovals mem m (m.addElements mem c additions hasNewRemovals) := by
  obtain ⟨hl, ho, hr, hd⟩ := foldl_addElement c additions m ls hn
  generalize hres : additions.foldl (addElement c) (m, ls) = r at hl ho hr hd
  have hls : ∀ l, m.Pending c l ↔ l ∈ ls := fun l => by
    unfold Pending
    rw [hp]
    rfl
  have hmem : ∀ l d, d ∈ r.1.occList l ↔ d ∈ m.occList l ∨ d = c ∧ l ∈ additions ∧ ¬ m.Pending c l := by
    intro l d
    rw [mem_pushed (ho l) d, hls]
  have hnodup : ∀ l, (m.occList l).Nodup → (l ∈ additions → ¬ m.Pending c l → c ∉ m.occList l) →
      (r.1.occList l).Nodup :=
    fun l hn' hc => nodup_pushed (ho l) hn' fun h => hc h.1 (h.2 ∘ (hls l).mp)
  have hgood : ∀ e ∈ r.1.delModUpdates, e.1 ≠ c → r.1.GoodEntry e := fun e h _ => goodEntry_congr hd he e h
  by_cases hempty : r.2.isEmpty && !hasNewRemovals
  · have hrun : m.addElements mem c additions hasNewRemovals = (r.1.erasePending c, clearModified mem c) := by
      unfold addElements
      simp only [hp, hres, hempty, if_true]
    have hnil : ∀ l, l ∈ ls → l ∈ additions := by
      intro l hin
      by_contra hnot
      have hr2 := (hl l).mpr ⟨hin, hnot⟩
      rw [List.isEmpty_iff.mp (Bool.and_eq_true_iff.mp hempty).1] at hr2
      cases hr2
    have hgood' : ∀ e ∈ (r.1.erasePending c).delModUpdates, (r.1.erasePending c).GoodEntry e :=
      fun e h => goodEntry_erasePending hgood h
    rw [hrun]
    refine ⟨hmem, hnodup, hr, fun d l => ?_, unflagged_clearModified mem c,
      fun d hd => clearModified_of_ne hd, ?_,
      fun e h _ => hgood' e h, fun _ => hgood'⟩
    · by_cases hdc : d = c
      · subst hdc
        rw [hls]
        exact ⟨fun h => absurd h pending_erasePending_self, fun h => absurd ⟨rfl, hnil l h.1⟩ h.2⟩
      · rw [pending_erasePending_of_ne hdc, pending_congr hd]
        simp [hdc]
    · rintro (⟨l, hl⟩ | hnew)
      · exact absurd hl pending_erasePending_self
      · simp [hnew] at hempty
  · have hrun : m.addElements mem c additions hasNewRemovals = (r.1.setPending c r.2, mem) := by
      unfold addElements
      simp only [hp, hres, hempty]
      rfl
    rw [hrun]
    refine ⟨hmem, hnodup, hr, fun d l => ?_, .refl mem, fun _ _ => rfl, fun _ => rfl,
      fun e h hne => goodEntry_setPending hgood h (.inl hne),
      fun hnew e h => goodEntry_setPending hgood h (.inr ?_)⟩
    · by_cases hdc : d = c
      · subst hdc
        rw [pending_setPending_self, hl l, hls]
        simp
      · rw [pending_setPending_of_ne hdc, pending_congr hd]
        simp [hdc]
    · intro hnil
      simp [hnil, hnew] at hempty

theorem addElements_spec :
    Added c additions hasNewRemovals mem m (m.addElements mem c additions hasNewRemovals) := by
  cases hp : m.pending c with
  | none => exact addElements_of_none he mem c hn hasNewRemovals hp
  | some ls => exact addElements_of_some he mem c hn hasNewRemovals hp

end

structure Modified (c : C) (additions removals : List E) (mem : C → T) (m : OccurrenceMap C E)
    (r : OccurrenceMap C E × (C → T)) : Prop where
  mem_iff : ∀ l d, d ∈ r.1.occList l ↔ d ∈ m.occList l ∨ d = c ∧ l ∈ additions ∧ ¬ m.Pending c l
  nodup : ∀ l, (m.occList l).Nodup → (l ∈ additions → ¬ m.Pending c l → c ∉ m.occList l) → (r.1.occList l).Nodup
  requiresUpdate_iff : ∀ l, r.1.requiresUpdate l = true ↔ l ∈ removals ∨ m.requiresUpdate l = true
  pending_iff : ∀ d l, r.1.Pending d l ↔ m.Pending d l ∧ ¬ (d = c ∧ l ∈ additions) ∨ d = c ∧ l ∈ removals
  same : Unflagged mem r.2
  mem_of_ne : ∀ d, d ≠ c → r.2 d = mem d
  flagged : (∃ l, r.1.Pending c l) → r.2 = mem
  entries : ∀ e ∈ r.1.delModUpdates, r.1.GoodEntry e

theorem setModified_spec (he : ∀ e ∈ m.delModUpdates, m.GoodEntry e) (mem : C → T) (c : C) {additions : List E}
    (hn : additions.Nodup) (removals : List E) :
    Modified c additions removals mem m (m.setModified mem c additions removals) := by
  have ha := addElements_spec he mem c hn (!removals.isEmpty)
  unfold setModified
  dsimp only
  generalize m.addElements mem c additions (!removals.isEmpty) = r at ha
  by_cases hnew : removals.isEmpty
  · obtain rfl := List.isEmpty_iff.mp hnew
    rw [if_neg (by simp)]
    exact ⟨ha.mem_iff, ha.nodup, fun l => by rw [ha.requiresUpdate]; simp, fun d l => by rw [ha.pending_iff]; simp,
      ha.same, ha.mem_of_ne, fun h => ha.flagged (.inl h), ha.entries rfl⟩
  · have hne : removals ≠ [] := fun h => hnew (List.isEmpty_iff.mpr h)
    rw [if_pos (by simpa using hne)]
    have hpend : ∀ d l, (r.1.setPending c ((r.1.pending c).getD [] ∪ removals)).Pending d l ↔
        r.1.Pending d l ∨ d = c ∧ l ∈ removals := by
      intro d l
      by_cases hd : d = c
      · subst hd
        rw [pending_setPending_self, List.mem_union_iff]
        simp [Pending]
      · rw [pending_setPending_of_ne hd]
        simp [hd]
    obtain ⟨hr, ho, hdel⟩ :=
      foldl_setRequiresUpdate removals (r.1.setPending c ((r.1.pending c).getD [] ∪ removals))
    have hocc : (removals.foldl setRequiresUpdate (r.1.setPending c ((r.1.pending c).getD [] ∪ removals))).occList =
        r.1.occList := ho
    refine ⟨fun l d => ?_, fun l => ?_, fun l => ?_, fun d l => ?_, ha.same, ha.mem_of_ne,
      fun _ => ha.flagged (.inr (by simpa using hne)), goodEntry_congr hdel ?_⟩
    · rw [hocc]
      exact ha.mem_iff l d
    · rw [hocc]
      exact ha.nodup l
    · rw [hr l, ← ha.requiresUpdate]
      rfl
    · rw [pending_congr hdel, hpend, ha.pending_iff]
    · intro e h
      refine goodEntry_setPending ha.others h (.inr fun hnil => ?_)
      obtain ⟨x, hx⟩ := List.exists_mem_of_ne_nil removals hne
      have hmem : x ∈ (r.1.pending c).getD [] ∪ removals := List.mem_union_iff.mpr (.inr hx)
      rw [hnil] at hmem
      cases hmem

omit [DecidableEq E] in
theorem Modified.deleted {additions removals : List E} {r : OccurrenceMap C E × (C → T)}
    (hs : Modified c additions removals mem' m r) (hne : ∀ d, d ≠ c → mem' d = mem d)
    (hdel : deleted (mem' c) = deleted (mem c)) (d : C) : deleted (r.2 d) = deleted (mem d) := by
  rw [hs.same.deleted]
  by_cases hd : d = c
  · rw [hd, hdel]
  · rw [hne d hd]

theorem Settling.setModified {db : List C} (h : Settling db mem m) (hc : c ∈ db) (additions removals : List E)
    (hn : additions.Nodup) (hne : ∀ d, d ≠ c → mem' d = mem d)
    (hlits : ∀ l, l ∈ elements (mem' c) ↔ l ∈ elements (mem c) ∧ l ∉ removals ∨ l ∈ additions)
    (hadd : ∀ l ∈ additions, l ∉ elements (mem c)) (hrem : ∀ l ∈ removals, l ∈ elements (mem c))
    (hmod : modified (mem' c) = true) (hdel : deleted (mem' c) = deleted (mem c)) :
    Settling db (m.setModified mem' c additions removals).2 (m.setModified mem' c additions removals).1 := by
  have hs := setModified_spec h.entries mem' c hn removals
  generalize m.setModified mem' c additions removals = r at hs
  have hdis : ∀ l ∈ additions, l ∉ removals := fun l ha hr => hadd l ha (hrem l hr)
  have hdel' := hs.deleted hne hdel
  have helem : ∀ d l, d ≠ c → (l ∈ elements (r.2 d) ↔ l ∈ elements (mem d)) := by
    intro d l hd
    rw [hs.same.elements, hne d hd]
  have helem_c : ∀ l, l ∈ elements (r.2 c) ↔ l ∈ elements (mem c) ∧ l ∉ removals ∨ l ∈ additions := by
    intro l
    rw [hs.same.elements, hlits]
  refine ⟨fun l => ?_, fun l d hd => ?_, fun d hd ha l hl => ?_, fun l d hd => ?_,
    fun d l hp => ?_, fun d l hp ha => ?_, fun d l hp => ?_, hs.entries⟩
  · refine hs.nodup l (h.nodup l) fun hl hnp hin => ?_
    exact (h.occurs l c hin).elim (hadd l hl) fun hp => hnp hp.1
  · cases (hs.mem_iff l d).mp hd with
    | inl hd => exact h.sound l d hd
    | inr hd => exact hd.1 ▸ hc
  · rw [hdel'] at ha
    rw [hs.mem_iff]
    by_cases hdc : d = c
    · subst hdc
      cases (helem_c l).mp hl with
      | inl hl => exact .inl (h.complete d hd ha l hl.1)
      | inr hl =>
        by_cases hp : m.Pending d l
        · exact .inl (h.stale d l hp ha).1
        · exact .inr ⟨rfl, hl, hp⟩
    · exact .inl (h.complete d hd ha l ((helem d l hdc).mp hl))
  · rw [hs.pending_iff, hs.requiresUpdate_iff]
    cases (hs.mem_iff l d).mp hd with
    | inr hd => exact .inl (hd.1 ▸ (helem_c l).mpr (.inr hd.2.1))
    | inl hd =>
      by_cases hdc : d = c
      · subst hdc
        rw [helem_c]
        by_cases hr : l ∈ removals
        · exact .inr ⟨.inr ⟨rfl, hr⟩, .inl hr⟩
        by_cases ha : l ∈ additions
        · exact .inl (.inr ha)
        · refine (h.occurs l d hd).imp (fun hl => .inl ⟨hl, hr⟩) fun hp =>
            ⟨.inl ⟨hp.1, fun he => ha he.2⟩, .inr hp.2⟩
      · rw [helem d l hdc]
        exact (h.occurs l d hd).imp_right fun hp => ⟨.inl ⟨hp.1, fun he => hdc he.1⟩, .inr hp.2⟩
  · have hp' := (hs.pending_iff d l).mp hp
    by_cases hdc : d = c
    · subst hdc
      rw [hs.flagged ⟨l, hp⟩]
      refine ⟨fun hl => ?_, hmod⟩
      cases (hlits l).mp hl with
      | inl hl => exact hp'.elim (fun h' => (h.pending d l h'.1).1 hl.1) fun h' => hl.2 h'.2
      | inr hl => exact hp'.elim (fun h' => h'.2 ⟨rfl, hl⟩) fun h' => hdis l hl h'.2
    · rw [helem d l hdc, hs.mem_of_ne d hdc, hne d hdc]
      exact h.pending d l (hp'.resolve_right fun he => hdc he.1).1
  · rw [hdel'] at ha
    rw [hs.mem_iff, hs.requiresUpdate_iff]
    cases (hs.pending_iff d l).mp hp with
    | inl hp =>
      obtain ⟨hin, hreq⟩ := h.stale d l hp.1 ha
      exact ⟨.inl hin, .inr hreq⟩
    | inr hp =>
      obtain ⟨rfl, hr⟩ := hp
      exact ⟨.inl (h.complete d hc ha l (hrem l hr)), .inl hr⟩
  · exact ((hs.pending_iff d l).mp hp).elim (fun hp => h.pending_db d l hp.1) fun hp => hp.1 ▸ hc

/-- The container at `c` has been changed in `mem'` and is flagged as modified. -/
theorem Inv.setModified {db : List C} (h : Inv db mem m) (hc : c ∈ db) (additions removals : List E)
    (hn : additions.Nodup) (hne : ∀ d, d ≠ c → mem' d = mem d)
    (hlits : ∀ l, l ∈ elements (mem' c) ↔ l ∈ elements (mem c) ∧ l ∉ removals ∨ l ∈ additions)
    (hadd : ∀ l ∈ additions, l ∉ elements (mem c)) (hrem : ∀ l ∈ removals, l ∈ elements (mem c))
    (hmod : modified (mem' c) = true) (hdel : deleted (mem' c) = deleted (mem c))
    (hguard : deleted (mem c) = true → ∀ l ∈ additions, m.Pending c l ∨ m.requiresUpdate l = true) :
    Inv db (m.setModified mem' c additions removals).2 (m.setModified mem' c additions removals).1 ∧
      Unflagged mem' (m.setModified mem' c additions removals).2 := by
  have hset := h.settling.setModified hc additions removals hn hne hlits hadd hrem hmod hdel
  have hs := setModified_spec h.entries mem' c hn removals
  generalize m.setModified mem' c additions removals = r at hs hset
  have hdel' := hs.deleted hne hdel
  refine ⟨hset.inv fun l d hd hdd => ?_, hs.same⟩
  rw [hdel'] at hdd
  rw [hs.requiresUpdate_iff]
  cases (hs.mem_iff l d).mp hd with
  | inl hd => exact .inr (h.alive l d hd hdd)
  | inr hd => exact .inr ((hguard (hd.1 ▸ hdd) l hd.2.1).resolve_left hd.2.2)

/-! ## Resolving the modifications -/

theorem Settling.foldl_lookup {db : List C} : ∀ (ls : List E) {m : OccurrenceMap C E} {mem : C → T},
    Settling db mem m →
      Settling db (ls.foldl (fun r element => r.1.lookup r.2 element) (m, mem)).2
        (ls.foldl (fun r element => r.1.lookup r.2 element) (m, mem)).1 ∧
      Unflagged mem (ls.foldl (fun r element => r.1.lookup r.2 element) (m, mem)).2 ∧
      ∀ c l, (ls.foldl (fun r element => r.1.lookup r.2 element) (m, mem)).1.Pending c l ↔
        m.Pending c l ∧ ¬ (l ∈ ls ∧ deleted (mem c) = false) := by
  intro ls
  induction ls with
  | nil => exact fun h => ⟨h, .refl _, fun c l => by simp⟩
  | cons x xs ih =>
    intro m mem h
    obtain ⟨hi, hu⟩ := h.lookup x
    obtain ⟨hi', hu', hp⟩ := ih hi
    refine ⟨hi', hu.trans hu', fun c l => ?_⟩
    rw [List.foldl_cons, hp c l, h.pending_lookup, hu.deleted, List.mem_cons]
    tauto

theorem Inv.foldl_lookup {db : List C} : ∀ (ls : List E) {m : OccurrenceMap C E} {mem : C → T}, Inv db mem m →
    Inv db (ls.foldl (fun r element => r.1.lookup r.2 element) (m, mem)).2
      (ls.foldl (fun r element => r.1.lookup r.2 element) (m, mem)).1 := by
  intro ls
  induction ls with
  | nil => exact fun h => h
  | cons x xs ih => exact fun h => ih (h.lookup x).1

omit [DecidableEq E] in
theorem Settling.of_unflagged {db : List C} (h : Settling db mem m) (hu : Unflagged mem mem')
    (hp : ∀ c l, ¬ m.Pending c l) : Settling db mem' m where
  nodup := h.nodup
  sound := h.sound
  complete c hc ha l hl := h.complete c hc (hu.deleted c ▸ ha) l (hu.elements c ▸ hl)
  occurs l c hc := (h.occurs l c hc).imp_left fun hl => hu.elements c ▸ hl
  pending c l hl := absurd hl (hp c l)
  stale c l hl := absurd hl (hp c l)
  pending_db := h.pending_db
  entries := h.entries

omit [DecidableEq E] in
theorem unflagged_foldl (cs : List C) : ∀ mem : C → T, Unflagged mem (cs.foldl clearModified mem) := by
  induction cs with
  | nil => exact .refl
  | cons c cs ih => exact fun mem => (unflagged_clearModified mem c).trans (ih _)

omit [DecidableEq E] in
theorem isEmpty_delModUpdates (he : ∀ e ∈ m.delModUpdates, m.GoodEntry e) :
    m.delModUpdates.isEmpty = true ↔ ∀ c l, ¬ m.Pending c l := by
  rw [List.isEmpty_iff]
  constructor
  · intro hnil c l hl
    unfold Pending OccurrenceMap.pending at hl
    rw [hnil] at hl
    cases hl
  · intro hp
    by_contra hne
    obtain ⟨e, hmem⟩ := List.exists_mem_of_ne_nil _ hne
    obtain ⟨hpe, hnil⟩ := he e hmem
    obtain ⟨l, hl⟩ := List.exists_mem_of_ne_nil _ hnil
    refine hp e.1 l ?_
    unfold Pending
    rw [hpe]
    exact hl

omit [DecidableEq E] in
theorem mem_toUpdate {c : C} {l : E} (hl : m.Pending c l) :
    l ∈ m.delModUpdates.flatMap (·.2) := by
  unfold Pending at hl
  cases hc : m.pending c with
  | none =>
    rw [hc] at hl
    cases hl
  | some ls =>
    rw [hc] at hl
    obtain ⟨es, es', heq, -⟩ := List.lookup_eq_some_iff.mp hc
    refine List.mem_flatMap.mpr ⟨(c, ls), ?_, hl⟩
    rw [heq]
    exact List.mem_append_right _ List.mem_cons_self

/-- The assertion holds exactly when no deleted container has a pending removal. -/
theorem Settling.isSome_resolveModifications {db : List C} (h : Settling db mem m) :
    (m.resolveModifications mem).isSome ↔ ∀ c l, m.Pending c l → deleted (mem c) = false := by
  obtain ⟨hi, -, hp⟩ := h.foldl_lookup (m.delModUpdates.flatMap (·.2))
  unfold OccurrenceMap.resolveModifications
  dsimp only
  generalize (m.delModUpdates.flatMap (·.2)).foldl (fun r element => r.1.lookup r.2 element) (m, mem) = r at hi hp
  rw [Option.isSome_ite, isEmpty_delModUpdates hi.entries]
  constructor
  · intro hnone c l hl
    by_contra hd
    exact hnone c l ((hp c l).mpr ⟨hl, fun h => hd h.2⟩)
  · intro hall c l hl
    obtain ⟨hl, hnot⟩ := (hp c l).mp hl
    exact hnot ⟨mem_toUpdate hl, hall c l hl⟩

theorem Inv.isSome_resolveModifications {db : List C} (h : Inv db mem m) :
    (m.resolveModifications mem).isSome ↔ ∀ c l, m.Pending c l → deleted (mem c) = false :=
  h.settling.isSome_resolveModifications

theorem resolveModifications_eq {r : OccurrenceMap C E × (C → T)} (hr : m.resolveModifications mem = some r) :
    r.1 = ((m.delModUpdates.flatMap (·.2)).foldl (fun r element => r.1.lookup r.2 element) (m, mem)).1 ∧
    r.2 = (m.delModUpdates.map (·.1)).foldl clearModified
      ((m.delModUpdates.flatMap (·.2)).foldl (fun r element => r.1.lookup r.2 element) (m, mem)).2 ∧
    r.1.delModUpdates = [] := by
  unfold OccurrenceMap.resolveModifications at hr
  dsimp only at hr
  split at hr
  · rename_i hempty
    obtain rfl := Option.some.inj hr
    exact ⟨rfl, rfl, List.isEmpty_iff.mp hempty⟩
  · cases hr

section
variable {db : List C} {r : OccurrenceMap C E × (C → T)}

theorem Settling.resolveModifications (h : Settling db mem m) (hr : m.resolveModifications mem = some r) :
    Settling db r.2 r.1 ∧ Unflagged mem r.2 := by
  obtain ⟨hi, hu, -⟩ := h.foldl_lookup (m.delModUpdates.flatMap (·.2))
  obtain ⟨h₁, h₂, hnil⟩ := resolveModifications_eq hr
  rw [← h₁] at hi
  rw [h₂]
  have huf := unflagged_foldl (m.delModUpdates.map (·.1))
    ((m.delModUpdates.flatMap (·.2)).foldl (fun r element => r.1.lookup r.2 element) (m, mem)).2
  have hnone := (isEmpty_delModUpdates hi.entries).mp (List.isEmpty_iff.mpr hnil)
  exact ⟨hi.of_unflagged huf hnone, hu.trans huf⟩

theorem Inv.resolveModifications (h : Inv db mem m) (hr : m.resolveModifications mem = some r) :
    Inv db r.2 r.1 ∧ Unflagged mem r.2 := by
  have hi := Inv.foldl_lookup (m.delModUpdates.flatMap (·.2)) h
  obtain ⟨hset, hu⟩ := h.settling.resolveModifications hr
  obtain ⟨h₁, h₂, -⟩ := resolveModifications_eq hr
  rw [← h₁] at hi
  have huf := unflagged_foldl (m.delModUpdates.map (·.1))
    ((m.delModUpdates.flatMap (·.2)).foldl (fun r element => r.1.lookup r.2 element) (m, mem)).2
  rw [← h₂] at huf
  exact ⟨hset.inv fun l c hc hd => hi.alive l c hc (huf.deleted c ▸ hd), hu⟩

end

end OccurrenceMap

/-! ## Clauses -/

namespace Memory

structure Same (mem mem' : Memory) : Prop where
  lits : ∀ c, (mem' c).lits = (mem c).lits
  redundant : ∀ c, (mem' c).redundant = (mem c).redundant
  scheduledForDeletion : ∀ c, (mem' c).scheduledForDeletion = (mem c).scheduledForDeletion

theorem Same.of_unflagged {mem mem' : Memory} (h : OccurrenceMap.Unflagged mem mem') : Same mem mem' :=
  ⟨h _ Clause.lits fun _ => rfl, h _ Clause.redundant fun _ => rfl, h _ Clause.scheduledForDeletion fun _ => rfl⟩

end Memory

namespace OccurrenceMap

/-- Only `MODIFIED` flags are cleared when the map is dropped. -/
theorem same_destroy (mem : Memory) (m : OccurrenceMap ClauseRef CNFLit) : Memory.Same mem (m.destroy mem) := by
  have hfold : m.destroy mem = (m.delModUpdates.map (·.1)).foldl clearModified mem := by
    unfold destroy
    rw [List.foldl_map]
  rw [hfold]
  exact .of_unflagged (unflagged_foldl _ mem)

end OccurrenceMap

end JamSAT
