import JamSAT.KeyedLists
import JamSAT.PropagateRules

/-!
# The watch-list invariant

A registered clause has two watchers, one for each of its first two literals;
watchers of clauses with two literals are kept apart. `R` are the registered
clauses and `K` those that have both watchers, all but the deleted ones. `Z`
are the clauses that were scheduled for deletion before they were registered.
The lists of the literals in `stale` may be out of date: a clause has been
modified and no cleanup has run since.
-/

namespace JamSAT

open VecEdit KeyedLists

namespace Assignment

/-- Both watch-list maps as one family, the binary lists under `true`. -/
def lists (s : Assignment) (p : Bool × CNFLit) : List Watcher :=
  if p.1 then s.binaryWatchers p.2 else s.watchers p.2

@[simp] theorem lists_false (s : Assignment) (l : CNFLit) : s.lists (false, l) = s.watchers l := rfl

@[simp] theorem lists_true (s : Assignment) (l : CNFLit) : s.lists (true, l) = s.binaryWatchers l := rfl

theorem lists_addWatcher (s : Assignment) (l : CNFLit) (w : Watcher) :
    (s.addWatcher l w).lists = push s.lists (false, l) w := by
  funext ⟨b, m⟩
  by_cases hm : m = l
  · subst hm; cases b <;> simp [lists, addWatcher, push]
  · cases b <;> simp [lists, addWatcher, push, hm]

theorem lists_addBinaryWatcher (s : Assignment) (l : CNFLit) (w : Watcher) :
    (s.addBinaryWatcher l w).lists = push s.lists (true, l) w := by
  funext ⟨b, m⟩
  by_cases hm : m = l
  · subst hm; cases b <;> simp [lists, addBinaryWatcher, push]
  · cases b <;> simp [lists, addBinaryWatcher, push, hm]

theorem lists_removeWatcher (s : Assignment) (l : CNFLit) (i : Nat) :
    (s.removeWatcher l i).lists = erase s.lists (false, l) i := by
  funext ⟨b, m⟩
  by_cases hm : m = l
  · subst hm; cases b <;> simp [lists, removeWatcher, erase]
  · cases b <;> simp [lists, removeWatcher, erase, hm]

theorem lists_removeBinaryWatcher (s : Assignment) (l : CNFLit) (i : Nat) :
    (s.removeBinaryWatcher l i).lists = erase s.lists (true, l) i := by
  funext ⟨b, m⟩
  by_cases hm : m = l
  · subst hm; cases b <;> simp [lists, removeBinaryWatcher, erase]
  · cases b <;> simp [lists, removeBinaryWatcher, erase, hm]

@[simp] theorem lists_writeClause (s : Assignment) (c : ClauseRef) (cl : Clause) :
    (s.writeClause c cl).lists = s.lists := rfl

theorem sameTrail_writeClause (s : Assignment) (c : ClauseRef) (cl : Clause) :
    SameTrail s (s.writeClause c cl) := ⟨rfl, rfl, rfl, rfl, rfl, rfl⟩

theorem writeClause_mem_self (s : Assignment) (c : ClauseRef) (cl : Clause) :
    (s.writeClause c cl).mem c = cl := by simp [writeClause]

theorem writeClause_mem_of_ne {s : Assignment} {c d : ClauseRef} {cl : Clause} (h : d ≠ c) :
    (s.writeClause c cl).mem d = s.mem d := by simp [writeClause, h]

def newWatcher (s : Assignment) (c : ClauseRef) (i : Fin 2) : Watcher :=
  ⟨c, (s.mem c).lit (1 - i), i, (s.mem c).redundant⟩

theorem lists_registerClause (s : Assignment) (c : ClauseRef) : (s.registerClause c).lists =
    push (push s.lists (decide ((s.mem c).size ≤ 2), (s.mem c).lit 0) (s.newWatcher c 0))
      (decide ((s.mem c).size ≤ 2), (s.mem c).lit 1) (s.newWatcher c 1) := by
  simp only [registerClause]
  split
  · rename_i hle
    rw [lists_addBinaryWatcher, lists_addBinaryWatcher, decide_eq_true hle]; rfl
  · rename_i hle
    rw [lists_addWatcher, lists_addWatcher, decide_eq_false hle]; rfl

theorem mem_registerClause {s : Assignment} {c : ClauseRef} {p : Bool × CNFLit} {w : Watcher} :
    w ∈ (s.registerClause c).lists p ↔ w ∈ s.lists p ∨
      ∃ i : Fin 2, p = (decide ((s.mem c).size ≤ 2), (s.mem c).lit i) ∧ w = s.newWatcher c i := by
  rw [lists_registerClause, mem_push, mem_push, or_assoc, Fin.exists_fin_two]; rfl

@[simp] theorem registerClause_mem (s : Assignment) (c : ClauseRef) : (s.registerClause c).mem = s.mem := by
  unfold registerClause; dsimp only; split <;> rfl

theorem sameTrail_registerClause (s : Assignment) (c : ClauseRef) : SameTrail s (s.registerClause c) := by
  unfold registerClause; dsimp only; split <;> exact ⟨rfl, rfl, rfl, rfl, rfl, rfl⟩

theorem binary_registerClause {s : Assignment} {c : ClauseRef} (h : 2 ≤ (s.mem c).size)
    (h' : (s.mem c).size ≤ 2) (i : Fin 2) :
    (s.mem c).lits.Perm [(s.mem c).lit i, (s.newWatcher c i).otherWatchedLiteral] := by
  obtain ⟨x, y, hxy⟩ := List.length_eq_two.mp (Nat.le_antisymm h' h)
  rcases eq_or_eq_one_sub 0 i with rfl | rfl
  · simp [newWatcher, Clause.lit, hxy]
  · simpa [newWatcher, Clause.lit, hxy] using List.Perm.swap y x []

theorem lists_moveWatch (s : Assignment) (l : CNFLit) (k : Nat) (w : Watcher) (i : Nat) :
    (s.moveWatch l k w i).lists =
      erase (push s.lists (false, (s.mem w.clause).lit i) w) (false, l) k := by
  rw [moveWatch, lists_removeWatcher, lists_addWatcher, lists_writeClause]

section
variable (s : Assignment) (l : CNFLit) (k : Nat) (w : Watcher) (i : Nat)

theorem moveWatch_mem_self :
    (s.moveWatch l k w i).mem w.clause = (s.mem w.clause).swapLits w.index i := by
  simp [moveWatch, removeWatcher, addWatcher, writeClause]

theorem moveWatch_mem_of_ne {c : ClauseRef} (h : c ≠ w.clause) : (s.moveWatch l k w i).mem c = s.mem c := by
  simp [moveWatch, removeWatcher, addWatcher, writeClause, h]

theorem moveWatch_lits_perm (c : ClauseRef) :
    ((s.moveWatch l k w i).mem c).lits.Perm (s.mem c).lits := by
  by_cases h : c = w.clause
  · subst h; rw [moveWatch_mem_self]; exact Clause.swapLits_perm _ _ _
  · rw [moveWatch_mem_of_ne _ _ _ _ _ h]

@[simp] theorem moveWatch_size (c : ClauseRef) : ((s.moveWatch l k w i).mem c).size = (s.mem c).size :=
  (moveWatch_lits_perm s l k w i c).length_eq

@[simp] theorem moveWatch_scheduledForDeletion (c : ClauseRef) :
    ((s.moveWatch l k w i).mem c).scheduledForDeletion = (s.mem c).scheduledForDeletion := by
  by_cases h : c = w.clause
  · subst h; rw [moveWatch_mem_self]; rfl
  · rw [moveWatch_mem_of_ne _ _ _ _ _ h]

theorem length_watchers_moveWatch (h : k < (s.watchers l).length) :
    (s.watchers l).length - 1 ≤ ((s.moveWatch l k w i).watchers l).length := by
  by_cases hl : l = (s.mem w.clause).lit i
  · have h' : k < (s.watchers l ++ [w]).length := by simp; omega
    simp [moveWatch, removeWatcher, addWatcher, ← hl, writeClause, length_removeAt h']
  · simp [moveWatch, removeWatcher, addWatcher, hl, writeClause, length_removeAt h]

theorem watchers_moveWatch_self (h : l ≠ (s.mem w.clause).lit i) :
    (s.moveWatch l k w i).watchers l = removeAt (s.watchers l) k := by
  simp [moveWatch, removeWatcher, addWatcher, writeClause, h]

end

structure Settled (mem : ClauseRef → Clause) (Z : Set ClauseRef) (l : CNFLit) (w : Watcher) : Prop where
  alive : (mem w.clause).scheduledForDeletion = true → w.clause ∈ Z
  size : 2 < (mem w.clause).size
  lit : (mem w.clause).lit w.index = l

structure WatchInv (R K Z : Set ClauseRef) (stale : Set CNFLit) (s : Assignment) : Prop where
  placed : Placed Watcher.key (fun k => k.1 ∈ R) (fun k => k.1 ∈ K) s.lists
  two_le : ∀ c ∈ R, 2 ≤ (s.mem c).size
  big : ∀ l, ∀ w ∈ s.watchers l, l ∉ stale → Settled s.mem Z l w
  binary : ∀ l, ∀ w ∈ s.binaryWatchers l, (s.mem w.clause).lits.Perm [l, w.otherWatchedLiteral]
  binary_alive : ∀ l, ∀ w ∈ s.binaryWatchers l, l ∉ stale →
    (s.mem w.clause).scheduledForDeletion = true → w.clause ∈ Z
  pair : ∀ l m, ∀ w ∈ s.binaryWatchers l, ∀ w' ∈ s.binaryWatchers m, w.clause = w'.clause →
    w.index ≠ w'.index → w.otherWatchedLiteral = m
  mixed : ∀ l m, ∀ w ∈ s.binaryWatchers l, ∀ w' ∈ s.watchers m, w.clause = w'.clause →
    (s.mem w.clause).lit w.index = l ∧ (s.mem w.clause).lit (1 - w.index) = w.otherWatchedLiteral

def Unmixed (s : Assignment) : Prop :=
  ∀ l m, ∀ w ∈ s.binaryWatchers l, ∀ w' ∈ s.watchers m, w.clause ≠ w'.clause

/-- All watchers of the clause are in lists the next cleanup goes through. -/
def Announced (s : Assignment) (stale : Set CNFLit) (c : ClauseRef) : Prop :=
  ∀ p, ∀ w ∈ s.lists p, w.clause = c → p.2 ∈ stale

namespace WatchInv

variable {R K Z : Set ClauseRef} {stale : Set CNFLit} {s t : Assignment}

theorem congr (h : WatchInv R K Z stale s) (hm : t.mem = s.mem) (hw : t.watchers = s.watchers)
    (hb : t.binaryWatchers = s.binaryWatchers) : WatchInv R K Z stale t := by
  have hl : t.lists = s.lists := by funext p; simp [lists, hw, hb]
  refine ⟨?_, ?_, ?_, ?_, ?_, ?_, ?_⟩
  · rw [hl]; exact h.placed
  · rw [hm]; exact h.two_le
  · rw [hm, hw]; exact h.big
  · rw [hm, hb]; exact h.binary
  · rw [hm, hb]; exact h.binary_alive
  · rw [hb]; exact h.pair
  · rw [hm, hb, hw]; exact h.mixed

theorem mono {K' Z' : Set ClauseRef} {stale' : Set CNFLit} (h : WatchInv R K Z stale s) (hK : K' ⊆ K)
    (hZ : Z ⊆ Z') (hs : stale ⊆ stale') : WatchInv R K' Z' stale' s where
  placed := h.placed.mono (fun _ hk => hk) fun _ hk => hK hk
  two_le := h.two_le
  big l w hw hn :=
    let ⟨h₁, h₂, h₃⟩ := h.big l w hw fun hl => hn (hs hl)
    ⟨fun hd => hZ (h₁ hd), h₂, h₃⟩
  binary := h.binary
  binary_alive l w hw hn hd := hZ (h.binary_alive l w hw (fun hl => hn (hs hl)) hd)
  pair := h.pair
  mixed := h.mixed

theorem weaken {R' K' : Set ClauseRef} (h : WatchInv R K Z stale s) (hR : R' = R) (hK : K' = K) :
    WatchInv R' K' Z stale s := by
  rw [hR, hK]; exact h

theorem new (mem : ClauseRef → Clause) (n : Nat) : WatchInv ∅ ∅ Z stale (Assignment.new mem n) := by
  have hl : ∀ p, (Assignment.new mem n).lists p = [] := by rintro ⟨b, l⟩; cases b <;> rfl
  refine ⟨⟨?_, ?_, ?_, ?_⟩, ?_, ?_, ?_, ?_, ?_, ?_⟩
  · intro p; simp [hl]
  · intro p q x hx; simp [hl] at hx
  · intro p x hx; simp [hl] at hx
  · rintro k ⟨⟩
  · rintro c ⟨⟩
  · rintro l w ⟨⟩
  · rintro l w ⟨⟩
  · rintro l w ⟨⟩
  · rintro l m w ⟨⟩
  · rintro l m w ⟨⟩

theorem clearClauses : WatchInv ∅ ∅ Z stale s.clearClauses :=
  (new s.mem 0).congr rfl rfl rfl

variable (h : WatchInv R K Z stale s)
include h

theorem registered {p : Bool × CNFLit} {w : Watcher} (hw : w ∈ s.lists p) : w.clause ∈ R :=
  h.placed.sound p w hw

theorem kept_subset {c : ClauseRef} (hc : c ∈ K) : c ∈ R := by
  obtain ⟨p, w, hw, hk⟩ := h.placed.complete (c, 0) hc
  obtain ⟨rfl, -⟩ := Prod.mk.inj hk
  exact h.registered hw

theorem binary_size {l : CNFLit} {w : Watcher} (hw : w ∈ s.binaryWatchers l) :
    (s.mem w.clause).size = 2 := (h.binary l w hw).length_eq

theorem clause_ne_of_not_mem {c : ClauseRef} (hc : c ∉ R) {p : Bool × CNFLit} {w : Watcher}
    (hw : w ∈ s.lists p) : w.clause ≠ c := fun e => hc (e ▸ h.registered hw)

/-! ## Registering clauses -/

theorem registerClause {c : ClauseRef} (hc : c ∉ R) (hs : 2 ≤ (s.mem c).size)
    (hd : (s.mem c).scheduledForDeletion = true → c ∈ Z) :
    WatchInv (insert c R) (insert c K) Z stale (s.registerClause c) := by
  have hnew : ∀ {p w}, w ∈ s.lists p → w.clause ≠ c := h.clause_ne_of_not_mem hc
  have hmem : ∀ b {l w}, w ∈ (s.registerClause c).lists (b, l) → _ := fun b l w => mem_registerClause.mp
  have hbin := binary_registerClause hs
  refine ⟨?_, ?_, ?_, ?_, ?_, ?_, ?_⟩
  all_goals try rw [registerClause_mem]
  · rw [lists_registerClause]
    have ho : Placed Watcher.key (fun k => k.1 ∈ insert c R) (fun k => k.1 ∈ K) s.lists :=
      h.placed.mono (fun k hk => .inr hk) fun k hk => hk
    have hp := ho.push (p := (decide ((s.mem c).size ≤ 2), (s.mem c).lit 0))
      (x := s.newWatcher c 0) (fun q w hw e => hnew hw (congrArg Prod.fst e)) (.inl rfl)
    refine (hp.push (x := s.newWatcher c 1) ?_ (.inl rfl)).mono (fun _ hk => hk) ?_
    · intro q w hw e
      rcases mem_push.mp hw with hw | ⟨-, rfl⟩
      · exact hnew hw (congrArg Prod.fst e)
      · exact absurd (congrArg Prod.snd e) (show (0 : Fin 2) ≠ 1 by decide)
    · rintro ⟨d, i⟩ (rfl | hdK)
      · rcases eq_or_eq_one_sub 0 i with rfl | rfl
        · exact .inl (.inr rfl)
        · exact .inr rfl
      · exact .inl (.inl hdK)
  · rintro d (rfl | hdR)
    · exact hs
    · exact h.two_le d hdR
  · intro l w hw hn
    rcases hmem false hw with hw | ⟨i, hp, rfl⟩
    · exact h.big l w hw hn
    · obtain ⟨hb, rfl⟩ := Prod.mk.inj hp
      exact ⟨hd, Nat.lt_of_not_le (of_decide_eq_false hb.symm), rfl⟩
  · intro l w hw
    rcases hmem true hw with hw | ⟨i, hp, rfl⟩
    · exact h.binary l w hw
    · obtain ⟨hb, rfl⟩ := Prod.mk.inj hp
      exact hbin (of_decide_eq_true hb.symm) i
  · intro l w hw hn hdel
    rcases hmem true hw with hw | ⟨i, hp, rfl⟩
    · exact h.binary_alive l w hw hn hdel
    · exact hd hdel
  · intro l m w hw w' hw' he hi
    rcases hmem true hw with hw | ⟨i, hp, rfl⟩ <;> rcases hmem true hw' with hw' | ⟨j, hq, rfl⟩
    · exact h.pair l m w hw w' hw' he hi
    · exact absurd he (hnew hw)
    · exact absurd he.symm (hnew hw')
    · rw [(Prod.mk.inj hq).2]
      obtain rfl | rfl := eq_or_eq_one_sub i j
      · exact absurd rfl hi
      · rw [val_one_sub]; rfl
  · intro l m w hw w' hw' he
    rcases hmem true hw with hw | ⟨i, hp, rfl⟩ <;> rcases hmem false hw' with hw' | ⟨j, hq, rfl⟩
    · exact h.mixed l m w hw w' hw' he
    · exact absurd he (hnew hw)
    · exact absurd he.symm (hnew hw')
    · exact absurd ((Prod.mk.inj hp).1.trans (Prod.mk.inj hq).1.symm) (by decide)

theorem unmixed_registerClause (hu : s.Unmixed) {c : ClauseRef} (hc : c ∉ R) :
    (s.registerClause c).Unmixed := by
  intro l m w hw w' hw'
  have hnew : ∀ {p w}, w ∈ s.lists p → w.clause ≠ c := h.clause_ne_of_not_mem hc
  have hmem : ∀ b {l w}, w ∈ (s.registerClause c).lists (b, l) → _ := fun b l w => mem_registerClause.mp
  rcases hmem true hw with hw | ⟨i, hp, rfl⟩ <;> rcases hmem false hw' with hw' | ⟨j, hq, rfl⟩
  · exact hu l m w hw w' hw'
  · exact hnew hw
  · exact (hnew hw').symm
  · exact absurd ((Prod.mk.inj hp).1.trans (Prod.mk.inj hq).1.symm) (by decide)

/-! ## Announcing and modifying clauses -/

theorem announced {c : ClauseRef} (h₀ : (s.mem c).lit 0 ∈ stale) (h₁ : (s.mem c).lit 1 ∈ stale) :
    Announced s stale c := by
  have hidx : ∀ i : Fin 2, (s.mem c).lit i ∈ stale := Fin.forall_fin_two.mpr ⟨h₀, h₁⟩
  rintro ⟨b, l⟩ w hw rfl
  by_contra hn
  cases b with
  | false =>
    have hl := (h.big l w hw hn).lit
    exact hn (hl ▸ hidx w.index)
  | true =>
    have hl : l ∈ (s.mem w.clause).lits := (h.binary l w hw).mem_iff.mpr List.mem_cons_self
    obtain ⟨i, hi, rfl⟩ := Clause.exists_lit_of_mem hl
    rw [h.binary_size hw] at hi
    exact hn (hidx ⟨i, hi⟩)

/-- The law of clause modification: whatever is done to an announced clause is
within what the next cleanup repairs. -/
theorem writeClause (hu : s.Unmixed) {c : ClauseRef} {cl : Clause} (ha : Announced s stale c)
    (hs : c ∈ R → 2 ≤ cl.size)
    (hb : ∀ l, ∀ w ∈ s.binaryWatchers l, w.clause = c → cl.lits.Perm (s.mem c).lits) :
    WatchInv R K Z stale (s.writeClause c cl) := by
  refine ⟨h.placed, ?_, ?_, ?_, ?_, h.pair, fun l m w hw w' hw' he => absurd he (hu l m w hw w' hw')⟩
  · intro d hdR
    by_cases hdc : d = c
    · subst hdc; rw [writeClause_mem_self]; exact hs hdR
    · rw [writeClause_mem_of_ne hdc]; exact h.two_le d hdR
  · intro l w hw hn
    have hne : w.clause ≠ c := fun e => hn (ha (false, l) w hw e)
    obtain ⟨h₁, h₂, h₃⟩ := h.big l w hw hn
    constructor <;> rwa [writeClause_mem_of_ne hne]
  · intro l w hw
    by_cases hc : w.clause = c
    · rw [hc, writeClause_mem_self]
      exact (hb l w hw hc).trans (hc ▸ h.binary l w hw)
    · rw [writeClause_mem_of_ne hc]; exact h.binary l w hw
  · intro l w hw hn
    have hne : w.clause ≠ c := fun e => hn (ha (true, l) w hw e)
    rw [writeClause_mem_of_ne hne]; exact h.binary_alive l w hw hn

theorem announced_of_not_mem {c : ClauseRef} (hc : c ∉ R) : Announced s stale c :=
  fun _ _ hw he => absurd he (h.clause_ne_of_not_mem hc hw)

end WatchInv

/-! ## Up-to-date lists -/

namespace WatchInv

variable {R K Z : Set ClauseRef} {s : Assignment} (h : WatchInv R K Z ∅ s)
include h

theorem settled {l : CNFLit} {w : Watcher} (hw : w ∈ s.watchers l) : Settled s.mem Z l w :=
  h.big l w hw (Set.notMem_empty l)

theorem unmixed : s.Unmixed := by
  intro l m w hw w' hw' he
  have h₁ := h.binary_size hw
  have h₂ := (h.settled hw').size
  rw [← he] at h₂; omega

theorem exists_watcher {c : ClauseRef} (hc : c ∈ K) (hs : 2 < (s.mem c).size) (i : Fin 2) :
    ∃ w ∈ s.watchers ((s.mem c).lit i), w.clause = c ∧ w.index = i := by
  obtain ⟨⟨b, l⟩, w, hw, hk⟩ := h.placed.complete (c, i) hc
  obtain ⟨rfl, rfl⟩ := Prod.mk.inj hk
  cases b with
  | false => exact ⟨w, (h.settled hw).lit.symm ▸ hw, rfl, rfl⟩
  | true => have := h.binary_size hw; omega

theorem exists_binaryWatcher_at {c : ClauseRef} (hc : c ∈ K) (hs : (s.mem c).size = 2) (i : Fin 2) :
    ∃ m, ∃ w ∈ s.binaryWatchers m, w.clause = c ∧ w.index = i := by
  obtain ⟨⟨b, m⟩, w, hw, hk⟩ := h.placed.complete (c, i) hc
  obtain ⟨rfl, rfl⟩ := Prod.mk.inj hk
  cases b with
  | false => have := (h.settled hw).size; omega
  | true => exact ⟨m, w, hw, rfl, rfl⟩

theorem exists_binaryWatcher {c : ClauseRef} (hc : c ∈ K)
    (hs : (s.mem c).size = 2) {l : CNFLit} (hl : l ∈ (s.mem c).lits) :
    ∃ w ∈ s.binaryWatchers l, w.clause = c := by
  obtain ⟨m₀, w₀, hw₀, rfl, hi₀⟩ := h.exists_binaryWatcher_at hc hs 0
  obtain ⟨m₁, w₁, hw₁, he, hi₁⟩ := h.exists_binaryWatcher_at hc hs 1
  have ho := h.pair m₀ m₁ w₀ hw₀ w₁ hw₁ he.symm (by rw [hi₀, hi₁]; decide)
  have hp := (h.binary m₀ w₀ hw₀).mem_iff.mp hl
  rw [ho] at hp
  simp only [List.mem_cons, List.not_mem_nil, or_false] at hp
  rcases hp with rfl | rfl
  · exact ⟨w₀, hw₀, rfl⟩
  · exact ⟨w₁, hw₁, he⟩

/-! ## Moving a watch -/

theorem moveWatch {l : CNFLit} {k i : Nat} {w : Watcher} (hk : (s.watchers l)[k]? = some w)
    (hi : 2 ≤ i) (hi' : i < (s.mem w.clause).size) : WatchInv R K Z ∅ (s.moveWatch l k w i) := by
  have hw : w ∈ s.watchers l := List.mem_of_getElem? hk
  have hidx : w.index.val < (s.mem w.clause).size := by have := w.index.isLt; omega
  have hmem : ∀ m w', w' ∈ (s.moveWatch l k w i).watchers m →
      w' ∈ s.watchers m ∧ w'.key ≠ w.key ∨ m = (s.mem w.clause).lit i ∧ w' = w := by
    intro m w' hw'
    rw [← lists_false, lists_moveWatch] at hw'
    rcases h.placed.mem_relocate (p := (false, l)) hk hw' with hw' | ⟨hm, rfl⟩
    · exact .inl hw'
    · exact .inr ⟨(Prod.mk.inj hm).2, rfl⟩
  have hclause : ∀ m w', w' ∈ (s.moveWatch l k w i).watchers m → ∃ l, ∃ v ∈ s.watchers l, v.clause = w'.clause := by
    intro m w' hw'
    rcases hmem m w' hw' with ⟨hw', -⟩ | ⟨-, rfl⟩
    · exact ⟨m, w', hw', rfl⟩
    · exact ⟨l, w', hw, rfl⟩
  refine ⟨?_, ?_, ?_, ?_, ?_, h.pair, ?_⟩
  · rw [lists_moveWatch]
    exact h.placed.relocate (p := (false, l)) hk rfl
  · intro c hc; rw [moveWatch_size]; exact h.two_le c hc
  · intro m w' hw' _
    rcases hmem m w' hw' with ⟨hw', hne⟩ | ⟨rfl, rfl⟩
    · obtain ⟨h₁, h₂, h₃⟩ := h.settled hw'
      refine ⟨by rwa [moveWatch_scheduledForDeletion], by rwa [moveWatch_size], ?_⟩
      rw [← h₃]
      by_cases hc : w'.clause = w.clause
      · have hx : w'.index.val ≠ w.index.val := fun e => hne (Prod.ext hc (Fin.ext e))
        rw [hc, moveWatch_mem_self]
        exact Clause.swapLits_lit_of_ne hx (by have := w'.index.isLt; omega)
      · rw [moveWatch_mem_of_ne _ _ _ _ _ hc]
    · obtain ⟨h₁, h₂, -⟩ := h.settled hw
      refine ⟨by rwa [moveWatch_scheduledForDeletion], by rwa [moveWatch_size], ?_⟩
      rw [moveWatch_mem_self]; exact Clause.swapLits_lit_left hidx hi'
  · intro m w' hw'; exact (moveWatch_lits_perm _ _ _ _ _ _).trans (h.binary m w' hw')
  · intro m w' hw' hn; rw [moveWatch_scheduledForDeletion]; exact h.binary_alive m w' hw' hn
  · intro m m' v hv w' hw' he
    obtain ⟨l', v', hv', he'⟩ := hclause m' w' hw'
    exact absurd (he.trans he'.symm) (h.unmixed m l' v hv v' hv')

/-! ## Propagation -/

theorem propagateWatchers (mode : UpMode) (p : CNFLit) : ∀ n k f, n + k ≤ (s.watchers (-p)).length →
    Ends (fun t _ => WatchInv R K Z ∅ t) (fun _ t => WatchInv R K Z ∅ t) (propagateWatchers mode p n k s f) := by
  intro n k f hn
  refine (propagateWatchers_rule
    (I := fun n k t _ => WatchInv R K Z ∅ t ∧ n + k ≤ (t.watchers (-p)).length)
    (Q := fun _ t => WatchInv R K Z ∅ t) ?_ ?_ ?_ ?_ n k s f ⟨h, hn⟩).imp ?_ fun _ _ h => h
  · rintro n k t f ⟨ht, hk⟩ -
    exact ⟨ht, by omega⟩
  · rintro n k t f i ⟨ht, hk⟩ hv
    rcases visit_cases t mode ((t.watchers (-p)).getD k default) with h | ⟨j, h, h₂, hj, -⟩ | h | h
    · rw [h.1] at hv; cases hv
    · obtain rfl : j = i := by rw [h] at hv; exact Visit.move.inj hv
      refine ⟨ht.moveWatch (getElem?_eq_some_getD (by omega) _) h₂ hj, ?_⟩
      have := length_watchers_moveWatch t (-p) k ((t.watchers (-p)).getD k default) j (by omega)
      omega
    · rw [h.1] at hv; cases hv
    · rw [h.1] at hv; cases hv
  · rintro n k t f ⟨ht, -⟩ -
    exact ht
  · rintro n k t f l ⟨ht, hk⟩ -
    exact ⟨ht.congr rfl rfl rfl, by rw [assign_watchers]; omega⟩
  · rintro t f ⟨k, ht, -⟩
    exact ht

theorem propagateBinaries (p : CNFLit) (n k f : Nat) :
    Ends (fun t _ => WatchInv R K Z ∅ t) (fun _ t => WatchInv R K Z ∅ t) (propagateBinaries p n k s f) :=
  (propagateBinaries_rule (I := fun _ _ t _ => WatchInv R K Z ∅ t) (Q := fun _ t => WatchInv R K Z ∅ t)
    (fun _ _ _ _ ht _ => ht) (fun _ _ _ _ ht _ => ht) (fun _ _ _ _ ht _ => ht.congr rfl rfl rfl)
    n k s f h).imp (fun _ _ ⟨_, ht⟩ => ht) fun _ _ ht => ht

theorem propagate (mode : UpMode) (p : CNFLit) :
    Ends (fun t _ => WatchInv R K Z ∅ t) (fun _ t => WatchInv R K Z ∅ t) (s.propagate mode p) :=
  propagate_rule (h.propagateBinaries p _ _ _) fun _ f ht => ht.propagateWatchers mode p _ _ f (Nat.le_refl _)

theorem propagateQueue (mode : UpMode) (n b e : Nat) :
    EndsFixpoint (WatchInv R K Z ∅) (fun _ => WatchInv R K Z ∅) (propagateQueue mode n b e s) :=
  propagateQueue_rule (I := fun _ _ _ => WatchInv R K Z ∅) (fun _ _ _ ht => ht) (fun _ _ _ ht => ht)
    (fun _ _ _ _ ht _ => ht.propagate mode _) n b e s h

end WatchInv

end Assignment

end JamSAT
