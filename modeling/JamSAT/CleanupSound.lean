import JamSAT.WatchSound

/-!
# The watcher cleanup

After clauses have been modified, `cleanupWatchers` goes through the lists that
were marked, drops the watchers of deleted clauses, moves those of clauses that
have become binary to the other map and requeues those in a wrong list. The
result is up to date again; a watcher found in its right list stays as it is.
-/

namespace JamSAT

open VecEdit KeyedLists

namespace Assignment

structure Synced (mem : ClauseRef → Clause) (w : Watcher) : Prop where
  blocker : w.otherWatchedLiteral ∈ (mem w.clause).lits
  redundant : w.isRedundant = (mem w.clause).redundant

instance (mem : ClauseRef → Clause) (w : Watcher) : Decidable (Synced mem w) :=
  decidable_of_iff (w.otherWatchedLiteral ∈ (mem w.clause).lits ∧ w.isRedundant = (mem w.clause).redundant)
    ⟨fun h => ⟨h.1, h.2⟩, fun h => ⟨h.blocker, h.redundant⟩⟩

def withWatchers (s : Assignment) (W B : CNFLit → List Watcher) : Assignment :=
  { s with watchers := W, binaryWatchers := B }

/-! ## Frame -/

theorem cleanupNonbinaryWatchers_eq (lit : CNFLit) : ∀ n k s, ∃ W B,
    cleanupNonbinaryWatchers lit n k s = withWatchers s W B := by
  intro n
  induction n with
  | zero => intro k s; exact ⟨s.watchers, s.binaryWatchers, rfl⟩
  | succ n ih =>
    intro k s
    have lift : ∀ (k' : Nat) (W B : CNFLit → List Watcher), ∃ W' B',
        cleanupNonbinaryWatchers lit n k' (withWatchers s W B) = withWatchers s W' B' := fun k' W B => by
      obtain ⟨W', B', h⟩ := ih k' (withWatchers s W B)
      exact ⟨W', B', h⟩
    unfold cleanupNonbinaryWatchers
    dsimp only
    split
    · exact lift _ _ _
    · split
      · exact lift _ _ _
      · split
        · exact lift _ _ _
        · exact ih _ s

theorem cleanupBinaryWatchers_eq (lit : CNFLit) : ∀ n k s, ∃ B,
    cleanupBinaryWatchers lit n k s = withWatchers s s.watchers B := by
  intro n
  induction n with
  | zero => intro k s; exact ⟨s.binaryWatchers, rfl⟩
  | succ n ih =>
    intro k s
    unfold cleanupBinaryWatchers
    dsimp only
    split
    · obtain ⟨B, h⟩ := ih k (s.removeBinaryWatcher lit k)
      exact ⟨B, h⟩
    · exact ih _ s

theorem cleanupWatchersOf_eq (s : Assignment) (lit : CNFLit) : ∃ W B,
    s.cleanupWatchersOf lit = { withWatchers s W B with
      litsRequiringWatcherUpdate := Function.update s.litsRequiringWatcherUpdate lit false } := by
  obtain ⟨W, B, h⟩ := cleanupNonbinaryWatchers_eq lit (s.watchers lit).length 0 s
  obtain ⟨B', h'⟩ := cleanupBinaryWatchers_eq lit ((withWatchers s W B).binaryWatchers lit).length 0
    (withWatchers s W B)
  refine ⟨W, B', ?_⟩
  unfold cleanupWatchersOf
  rw [h]
  dsimp only
  rw [h']
  rfl

@[simp] theorem cleanupWatchersOf_mem (s : Assignment) (lit : CNFLit) : (s.cleanupWatchersOf lit).mem = s.mem := by
  obtain ⟨W, B, h⟩ := s.cleanupWatchersOf_eq lit
  rw [h]; rfl

theorem cleanupWatchers_eq (s : Assignment) : ∃ W B D, s.cleanupWatchers = { withWatchers s W B with
    litsRequiringWatcherUpdate := D, litsRequiringWatcherUpdateAsVec := [] } ∧
    ∀ l, D l = true ↔ s.litsRequiringWatcherUpdate l = true ∧ l ∉ s.litsRequiringWatcherUpdateAsVec := by
  have key : ∀ (ls : List CNFLit) (t : Assignment), ∃ W B D, ls.foldl cleanupWatchersOf t =
      { withWatchers t W B with litsRequiringWatcherUpdate := D } ∧
      ∀ l, D l = true ↔ t.litsRequiringWatcherUpdate l = true ∧ l ∉ ls := by
    intro ls
    induction ls with
    | nil => intro t; exact ⟨t.watchers, t.binaryWatchers, t.litsRequiringWatcherUpdate, rfl, by simp⟩
    | cons x ls ih =>
      intro t
      obtain ⟨W, B, h⟩ := cleanupWatchersOf_eq t x
      obtain ⟨W', B', D, h', hD⟩ := ih (t.cleanupWatchersOf x)
      refine ⟨W', B', D, ?_, fun l => ?_⟩
      · rw [List.foldl_cons, h', h]; rfl
      · rw [hD, h, List.mem_cons, not_or]
        by_cases hl : l = x
        · subst hl; simp
        · simp [hl]
  obtain ⟨W, B, D, h, hD⟩ := key s.litsRequiringWatcherUpdateAsVec s
  exact ⟨W, B, D, by rw [cleanupWatchers, h], hD⟩

theorem sameTrail_cleanupWatchers (s : Assignment) : SameTrail s s.cleanupWatchers := by
  obtain ⟨W, B, D, h, -⟩ := s.cleanupWatchers_eq
  rw [h]; exact ⟨rfl, rfl, rfl, rfl, rfl, rfl⟩

@[simp] theorem cleanupWatchers_mem (s : Assignment) : s.cleanupWatchers.mem = s.mem := by
  obtain ⟨W, B, D, h, -⟩ := s.cleanupWatchers_eq
  rw [h]; rfl

@[simp] theorem cleanupWatchers_asVec (s : Assignment) :
    s.cleanupWatchers.litsRequiringWatcherUpdateAsVec = [] := rfl

/-! ## One list -/

namespace WatchInv

variable {R K Z : Set ClauseRef} {stale : Set CNFLit} {s : Assignment} {lit : CNFLit} {k : Nat} {w : Watcher}

section
variable (h : WatchInv R K Z stale s)
include h

theorem removeWatcher (hk : (s.watchers lit)[k]? = some w)
    (hd : w.clause ∉ K) : WatchInv R K Z stale (s.removeWatcher lit k) := by
  have hsub : ∀ {l v}, v ∈ (s.removeWatcher lit k).watchers l → v ∈ s.watchers l := by
    intro l v hv
    rw [← lists_false, lists_removeWatcher] at hv
    exact mem_of_mem_erase (q := (false, l)) hv
  refine ⟨?_, h.two_le, fun l v hv => h.big l v (hsub hv), h.binary, h.binary_alive, h.pair,
    fun l m v hv v' hv' => h.mixed l m v hv v' (hsub hv')⟩
  rw [lists_removeWatcher]
  refine (h.placed.erase (p := (false, lit)) hk).mono (fun _ hx => hx.1) fun d hx => ⟨hx, ?_⟩
  rintro rfl
  exact hd hx

theorem removeBinaryWatcher (hk : (s.binaryWatchers lit)[k]? = some w)
    (hd : w.clause ∉ K) : WatchInv R K Z stale (s.removeBinaryWatcher lit k) := by
  have hsub : ∀ {l v}, v ∈ (s.removeBinaryWatcher lit k).binaryWatchers l → v ∈ s.binaryWatchers l := by
    intro l v hv
    rw [← lists_true, lists_removeBinaryWatcher] at hv
    exact mem_of_mem_erase (q := (true, l)) hv
  refine ⟨?_, h.two_le, h.big, fun l v hv => h.binary l v (hsub hv),
    fun l v hv => h.binary_alive l v (hsub hv), fun l m v hv v' hv' => h.pair l m v (hsub hv) v' (hsub hv'),
    fun l m v hv => h.mixed l m v (hsub hv)⟩
  rw [lists_removeBinaryWatcher]
  refine (h.placed.erase (p := (true, lit)) hk).mono (fun _ hx => hx.1) fun d hx => ⟨hx, ?_⟩
  rintro rfl
  exact hd hx

/-- A watcher in the wrong list goes to the right one. -/
theorem requeue (hk : (s.watchers lit)[k]? = some w) (ha : (s.mem w.clause).scheduledForDeletion = false)
    (hs : 2 < (s.mem w.clause).size) {w' : Watcher} (hw' : w'.key = w.key) :
    WatchInv R K Z stale ((s.addWatcher ((s.mem w.clause).lit w.index) w').removeWatcher lit k) := by
  obtain ⟨hc, hi⟩ := Prod.mk.inj hw'
  have hw : w ∈ s.watchers lit := List.mem_of_getElem? hk
  have hmem : ∀ {l v}, v ∈ ((s.addWatcher ((s.mem w.clause).lit w.index) w').removeWatcher lit k).watchers l →
      v ∈ s.watchers l ∨ l = (s.mem w.clause).lit w.index ∧ v = w' := by
    intro l v hv
    rw [← lists_false, lists_removeWatcher, lists_addWatcher] at hv
    rcases h.placed.mem_relocate (p := (false, lit)) hk hv with hv | ⟨hl, rfl⟩
    · exact .inl hv.1
    · exact .inr ⟨(Prod.mk.inj hl).2, rfl⟩
  refine ⟨?_, h.two_le, ?_, h.binary, h.binary_alive, h.pair, ?_⟩
  · rw [lists_removeWatcher, lists_addWatcher]
    exact h.placed.relocate (p := (false, lit)) hk hw'
  · intro l v hv hn
    rcases hmem hv with hv | ⟨rfl, rfl⟩
    · exact h.big l v hv hn
    · refine ⟨fun hd => absurd (hd.symm.trans (hc ▸ ha)) (by decide), hc ▸ hs, by rw [hi, hc]; rfl⟩
  · intro l m v hv v' hv' he
    rcases hmem hv' with hv' | ⟨rfl, rfl⟩
    · exact h.mixed l m v hv v' hv' he
    · exact h.mixed l lit v hv w hw (he.trans hc)

/-- A watcher of a clause that has become binary goes to the binary watchers. -/
theorem migrate (hk : (s.watchers lit)[k]? = some w) (ha : (s.mem w.clause).scheduledForDeletion = false)
    (hs : (s.mem w.clause).size = 2) {w' : Watcher} (hw' : w'.key = w.key)
    (ho : w'.otherWatchedLiteral = (s.mem w.clause).lit (1 - w.index)) :
    WatchInv R K Z stale ((s.addBinaryWatcher ((s.mem w.clause).lit w.index) w').removeWatcher lit k) := by
  obtain ⟨hc, hi⟩ := Prod.mk.inj hw'
  have hw : w ∈ s.watchers lit := List.mem_of_getElem? hk
  set t := (s.addBinaryWatcher ((s.mem w.clause).lit w.index) w').removeWatcher lit k with ht
  have hlists : t.lists = erase (push s.lists (true, (s.mem w.clause).lit w.index) w') (false, lit) k := by
    rw [ht, lists_removeWatcher, lists_addBinaryWatcher]
  have hbig : ∀ {l v}, v ∈ t.watchers l → v ∈ s.watchers l ∧ v.key ≠ w.key := by
    intro l v hv
    rw [← lists_false, hlists] at hv
    rcases h.placed.mem_relocate (p := (false, lit)) hk hv with hv | ⟨hl, -⟩
    · exact hv
    · exact absurd (Prod.mk.inj hl).1 (by decide)
  have hbin : ∀ {l v}, v ∈ t.binaryWatchers l →
      v ∈ s.binaryWatchers l ∨ l = (s.mem w.clause).lit w.index ∧ v = w' := by
    intro l v hv
    rw [← lists_true, hlists] at hv
    rcases h.placed.mem_relocate (p := (false, lit)) hk hv with hv | ⟨hl, rfl⟩
    · exact .inl hv.1
    · exact .inr ⟨(Prod.mk.inj hl).2, rfl⟩
  refine ⟨?_, h.two_le, fun l v hv => h.big l v (hbig hv).1, ?_, ?_, ?_, ?_⟩
  · rw [hlists]; exact h.placed.relocate (p := (false, lit)) hk hw'
  · intro l v hv
    rcases hbin hv with hv | ⟨rfl, rfl⟩
    · exact h.binary l v hv
    · rw [hc, ho]
      exact binary_registerClause (Nat.le_of_eq hs.symm) (Nat.le_of_eq hs) w.index
  · intro l v hv hn hd
    rcases hbin hv with hv | ⟨rfl, rfl⟩
    · exact h.binary_alive l v hv hn hd
    · exact absurd (hd.symm.trans (hc ▸ ha)) (by decide)
  · intro l m v hv v' hv' he hne
    rcases hbin hv with hv₁ | ⟨rfl, rfl⟩ <;> rcases hbin hv' with hv₂ | ⟨rfl, rfl⟩
    · exact h.pair l m v hv₁ v' hv₂ he hne
    · -- the partner was migrated first: its blocker is where this watcher goes
      obtain ⟨-, h₂⟩ := h.mixed l lit v hv₁ w hw (he.trans hc)
      rw [← h₂, he, hc]
      obtain hx | hx := eq_or_eq_one_sub v.index w.index
      · exact absurd (hx.symm.trans hi.symm) hne
      · rw [hx, val_one_sub]
    · obtain ⟨h₁, -⟩ := h.mixed m lit v' hv₂ w hw (he.symm.trans hc)
      rw [ho, ← h₁, ← he, hc]
      obtain hx | hx := eq_or_eq_one_sub w.index v'.index
      · exact absurd (hi.trans hx.symm) hne
      · rw [hx, val_one_sub]
    · exact absurd rfl hne
  · intro l m v hv v' hv' he
    rcases hbin hv with hv | ⟨rfl, rfl⟩
    · exact h.mixed l m v hv v' (hbig hv').1 he
    · rw [hc, hi]; exact ⟨rfl, ho.symm⟩

end

theorem cleanupNonbinaryWatchers : ∀ n k s, WatchInv R K Z stale s →
    (∀ c ∈ K, (s.mem c).scheduledForDeletion = false) → n + k = (s.watchers lit).length →
    (∀ w ∈ (s.watchers lit).take k, (s.mem w.clause).scheduledForDeletion = false ∧ Settled s.mem Z lit w) →
    WatchInv R K Z stale (Assignment.cleanupNonbinaryWatchers lit n k s) ∧
      ∀ w ∈ (Assignment.cleanupNonbinaryWatchers lit n k s).watchers lit,
        (s.mem w.clause).scheduledForDeletion = false ∧ Settled s.mem Z lit w := by
  intro n
  induction n with
  | zero =>
    intro k s h hK hk hg
    obtain rfl : k = (s.watchers lit).length := by omega
    rw [List.take_length] at hg
    exact ⟨h, hg⟩
  | succ n ih =>
    intro k s h hK hk hg
    have hlt : k < (s.watchers lit).length := by omega
    have hget := getElem?_eq_some_getD hlt default
    unfold Assignment.cleanupNonbinaryWatchers
    dsimp only
    generalize (s.watchers lit).getD k default = w at hget ⊢
    -- the branches that take the watcher out keep the part already done
    have hrem : ∀ t : Assignment, t.mem = s.mem → t.watchers lit = removeAt (s.watchers lit) k →
        n + k = (t.watchers lit).length ∧ ∀ v ∈ (t.watchers lit).take k,
          (t.mem v.clause).scheduledForDeletion = false ∧ Settled t.mem Z lit v := by
      intro t hm ht
      rw [hm, ht, take_removeAt hlt, length_removeAt hlt]
      exact ⟨by omega, hg⟩
    split
    · rename_i hd
      obtain ⟨h₁, h₂⟩ := hrem (s.removeWatcher lit k) rfl (by simp [Assignment.removeWatcher])
      exact ih _ _ (h.removeWatcher hget fun hc => absurd ((hK _ hc).symm.trans hd) (by decide)) hK h₁ h₂
    rename_i hd
    have ha := Bool.eq_false_of_not_eq_true hd
    split
    · rename_i hs
      obtain ⟨h₁, h₂⟩ := hrem ((s.addBinaryWatcher ((s.mem w.clause).lit w.index) { w with
          otherWatchedLiteral := (s.mem w.clause).lit (1 - w.index), isRedundant := false }).removeWatcher
          lit k) rfl (by simp [Assignment.removeWatcher, Assignment.addBinaryWatcher])
      exact ih _ _ (h.migrate hget ha hs rfl rfl) hK h₁ h₂
    rename_i hs
    have htwo := h.two_le w.clause (h.registered (p := (false, lit)) (List.mem_of_getElem? hget))
    have hs' : 2 < (s.mem w.clause).size := by omega
    split
    · rename_i hl
      obtain ⟨h₁, h₂⟩ := hrem ((s.addWatcher ((s.mem w.clause).lit w.index) { w with
          otherWatchedLiteral := (s.mem w.clause).lit (1 - w.index)
          isRedundant := (s.mem w.clause).redundant }).removeWatcher lit k) rfl
        (by simp [Assignment.removeWatcher, Assignment.addWatcher, Ne.symm hl])
      exact ih _ _ (h.requeue hget ha hs' rfl) hK h₁ h₂
    · rename_i hl
      exact ih _ s h hK (by omega) (forall_mem_take_succ hget hg
        ⟨ha, fun hd' => absurd hd' hd, hs', Decidable.not_not.mp hl⟩)

theorem cleanupBinaryWatchers : ∀ n k s, WatchInv R K Z stale s →
    (∀ c ∈ K, (s.mem c).scheduledForDeletion = false) → n + k = (s.binaryWatchers lit).length →
    (∀ w ∈ (s.binaryWatchers lit).take k, (s.mem w.clause).scheduledForDeletion = false) →
    WatchInv R K Z stale (Assignment.cleanupBinaryWatchers lit n k s) ∧
      ∀ w ∈ (Assignment.cleanupBinaryWatchers lit n k s).binaryWatchers lit,
        (s.mem w.clause).scheduledForDeletion = false := by
  intro n
  induction n with
  | zero =>
    intro k s h hK hk hg
    obtain rfl : k = (s.binaryWatchers lit).length := by omega
    rw [List.take_length] at hg
    exact ⟨h, hg⟩
  | succ n ih =>
    intro k s h hK hk hg
    have hlt : k < (s.binaryWatchers lit).length := by omega
    have hget := getElem?_eq_some_getD hlt default
    unfold Assignment.cleanupBinaryWatchers
    dsimp only
    generalize (s.binaryWatchers lit).getD k default = w at hget ⊢
    split
    · rename_i hd
      have ht : (s.removeBinaryWatcher lit k).binaryWatchers lit = removeAt (s.binaryWatchers lit) k := by
        simp [Assignment.removeBinaryWatcher]
      refine ih _ _ (h.removeBinaryWatcher hget fun hc => absurd ((hK _ hc).symm.trans hd) (by decide)) hK ?_ ?_
      · rw [ht, length_removeAt hlt]; omega
      · rw [ht, take_removeAt hlt]; exact hg
    · rename_i hd
      exact ih _ s h hK (by omega) (forall_mem_take_succ hget hg (Bool.eq_false_of_not_eq_true hd))

variable (h : WatchInv R K Z stale s) (hK : ∀ c ∈ K, (s.mem c).scheduledForDeletion = false)
include h hK

theorem cleanupWatchersOf (lit : CNFLit) : WatchInv R K Z (stale \ {lit}) (s.cleanupWatchersOf lit) := by
  obtain ⟨h₁, hbig⟩ := cleanupNonbinaryWatchers (s.watchers lit).length 0 s h hK (Nat.add_zero _) (by simp)
  obtain ⟨W, B, he⟩ := cleanupNonbinaryWatchers_eq lit (s.watchers lit).length 0 s
  set t₁ := Assignment.cleanupNonbinaryWatchers lit (s.watchers lit).length 0 s
  have hm₁ : t₁.mem = s.mem := by rw [he]; rfl
  obtain ⟨h₂, hbin⟩ :=
    cleanupBinaryWatchers (t₁.binaryWatchers lit).length 0 t₁ h₁ (hm₁ ▸ hK) (Nat.add_zero _) (by simp)
  obtain ⟨B', he'⟩ := cleanupBinaryWatchers_eq lit (t₁.binaryWatchers lit).length 0 t₁
  set t₂ := Assignment.cleanupBinaryWatchers lit (t₁.binaryWatchers lit).length 0 t₁
  have hout : ∀ {l}, l ∉ stale \ {lit} → l ∉ stale ∨ l = lit := by
    intro l hl
    by_cases hs : l ∈ stale
    · exact .inr (by_contra fun hne => hl ⟨hs, hne⟩)
    · exact .inl hs
  have hm₂ : t₂.mem = s.mem := by rw [he']; exact hm₁
  have hw₂ : t₂.watchers = t₁.watchers := by rw [he']; rfl
  have key : WatchInv R K Z (stale \ {lit}) t₂ := by
    refine ⟨h₂.placed, h₂.two_le, ?_, h₂.binary, ?_, h₂.pair, h₂.mixed⟩
    · intro l w hw hn
      rcases hout hn with hn | rfl
      · exact h₂.big l w hw hn
      · rw [hm₂]; rw [hw₂] at hw; exact (hbig w hw).2
    · intro l w hw hn hd
      rcases hout hn with hn | rfl
      · exact h₂.binary_alive l w hw hn hd
      · rw [hm₂, ← hm₁, hbin w hw] at hd; cases hd
  exact key.congr rfl rfl rfl

theorem cleanupWatchers (hs : stale ⊆ {l | l ∈ s.litsRequiringWatcherUpdateAsVec}) :
    WatchInv R K Z ∅ s.cleanupWatchers := by
  have key : ∀ (ls : List CNFLit) (t : Assignment), WatchInv R K Z {l | l ∈ ls} t →
    (∀ c ∈ K, (t.mem c).scheduledForDeletion = false) →
      WatchInv R K Z ∅ (ls.foldl Assignment.cleanupWatchersOf t) := by
    intro ls
    induction ls with
    | nil => intro t ht _; exact ht.mono (Set.Subset.refl K) (Set.Subset.refl Z) (by simp)
    | cons x ls ih =>
      intro t ht hKt
      have hm := cleanupWatchersOf_mem t x
      refine ih _ ((ht.cleanupWatchersOf hKt x).mono (Set.Subset.refl K) (Set.Subset.refl Z) ?_) (hm ▸ hKt)
      rintro l ⟨hl, hne⟩
      rcases List.mem_cons.mp hl with rfl | hl
      · exact absurd rfl hne
      · exact hl
  exact (key _ s (h.mono (Set.Subset.refl K) (Set.Subset.refl Z) hs) hK).congr rfl rfl rfl

end WatchInv

/-! ## What stays as it is -/

structure Requeued (mem : ClauseRef → Clause) (w : Watcher) : Prop where
  blocker : w.otherWatchedLiteral = (mem w.clause).lit (1 - w.index)
  redundant : w.isRedundant = (mem w.clause).redundant

theorem mem_cleanupNonbinaryWatchers (lit : CNFLit) : ∀ n k s l w,
    w ∈ (cleanupNonbinaryWatchers lit n k s).watchers l → w ∈ s.watchers l ∨ Requeued s.mem w := by
  have hrem : ∀ (s : Assignment) k l w, w ∈ (s.removeWatcher lit k).watchers l → w ∈ s.watchers l := by
    intro s k l w hw
    rw [← lists_false, lists_removeWatcher] at hw
    exact mem_of_mem_erase (q := (false, l)) hw
  intro n
  induction n with
  | zero => intro k s l w hw; exact .inl hw
  | succ n ih =>
    intro k s l w hw
    unfold cleanupNonbinaryWatchers at hw
    dsimp only at hw
    split at hw
    · exact (ih _ _ l w hw).imp (hrem s k l w) id
    split at hw
    · exact (ih _ _ l w hw).imp (hrem _ k l w) id
    split at hw
    · refine (ih _ _ l w hw).elim (fun hw => ?_) .inr
      have hw := hrem _ k l w hw
      rw [← lists_false, lists_addWatcher] at hw
      rcases mem_push.mp hw with hw | ⟨-, rfl⟩
      · exact .inl hw
      · exact .inr ⟨rfl, rfl⟩
    · exact ih _ _ l w hw

theorem mem_cleanupWatchers {s : Assignment} {l : CNFLit} {w : Watcher}
    (hw : w ∈ s.cleanupWatchers.watchers l) : w ∈ s.watchers l ∨ Requeued s.mem w := by
  have key : ∀ (ls : List CNFLit) (t : Assignment), w ∈ (ls.foldl cleanupWatchersOf t).watchers l →
      w ∈ t.watchers l ∨ Requeued t.mem w := by
    intro ls
    induction ls with
    | nil => intro t hw; exact .inl hw
    | cons x ls ih =>
      intro t hw
      have hm := cleanupWatchersOf_mem t x
      refine (ih _ hw).elim (fun hw => ?_) fun h => .inr (hm ▸ h)
      obtain ⟨B, h⟩ := cleanupBinaryWatchers_eq x
        ((cleanupNonbinaryWatchers x (t.watchers x).length 0 t).binaryWatchers x).length 0
        (cleanupNonbinaryWatchers x (t.watchers x).length 0 t)
      simp only [cleanupWatchersOf, h] at hw
      exact mem_cleanupNonbinaryWatchers x _ 0 t l w hw
  exact key _ s hw

end Assignment

end JamSAT
