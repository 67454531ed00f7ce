import JamSAT.CompressSound

/-!
# Sessions with the clause database

Clauses are created, changed and compressed in any order. The range of the database is the
list of the clauses that have been created and not removed.
-/

namespace JamSAT

namespace IterableClauseDB

variable {db : IterableClauseDB} {css css' : List (List (Nat × Clause))} {size : Nat}

/-! ## The listing -/

theorem objects_append (css css' : List (List (Nat × Clause))) : ∀ i : Nat,
    objects i (css ++ css') = objects i css ++ objects (i + css.length) css' := by
  induction css with
  | nil => exact fun i => rfl
  | cons cs css ih =>
    intro i
    rw [List.cons_append, objects, objects, ih (i + 1), List.append_assoc, List.length_cons, Nat.add_right_comm,
      Nat.add_assoc]

theorem objects_singleton (i : Nat) (cs : List (Nat × Clause)) :
    objects i [cs] = cs.map fun x => (⟨i, x.1⟩, x.2) := List.append_nil _

theorem region_of_mem_objects : ∀ {css : List (List (Nat × Clause))} {i : Nat} {x : Pointer × Clause},
    x ∈ objects i css → i ≤ x.1.region ∧ x.1.region < i + css.length := by
  intro css
  induction css with
  | nil => exact fun {i x} h => absurd h List.not_mem_nil
  | cons cs css ih =>
    intro i x h
    cases List.mem_append.mp h with
    | inl h =>
      obtain ⟨y, -, rfl⟩ := List.mem_map.mp h
      exact ⟨Nat.le_refl _, Nat.lt_add_of_pos_right (Nat.succ_pos _)⟩
    | inr h =>
      have := ih h
      rw [List.length_cons]
      omega

theorem exists_of_mem_objects : ∀ {css : List (List (Nat × Clause))} {i : Nat} {p : Pointer} {c : Clause},
    (p, c) ∈ objects i css → ∃ front pre post rest, css = front ++ (pre ++ (p.offset, c) :: post) :: rest ∧
      p.region = i + front.length := by
  intro css
  induction css with
  | nil => exact fun {i p c} h => absurd h List.not_mem_nil
  | cons cs css ih =>
    intro i p c h
    cases List.mem_append.mp h with
    | inl h =>
      obtain ⟨⟨o, c⟩, hx, he⟩ := List.mem_map.mp h
      cases he
      obtain ⟨pre, post, rfl⟩ := List.append_of_mem hx
      exact ⟨[], pre, post, css, rfl, rfl⟩
    | inr h =>
      obtain ⟨front, pre, post, rest, rfl, hp⟩ := ih h
      refine ⟨cs :: front, pre, post, rest, rfl, ?_⟩
      rw [hp, List.length_cons]
      omega

theorem nodup_objects {regions : List Region} (h : List.Forall₂ Region.Holds regions css) :
    ∀ i : Nat, ((objects i css).map Prod.fst).Nodup := by
  induction h with
  | nil => exact fun _ => List.nodup_nil
  | @cons r cs regions css hr _ ih =>
    intro i
    rw [objects, List.map_append, List.map_map]
    refine List.Nodup.append ?_ (ih (i + 1)) ?_
    · have hn := hr.layout.nodup_offsets
      have hmap : cs.map (Prod.fst ∘ fun x => ((⟨i, x.1⟩ : Pointer), x.2)) =
          (cs.map Prod.fst).map fun o => (⟨i, o⟩ : Pointer) := by
        rw [List.map_map]
        rfl
      rw [hmap]
      exact hn.map fun o o' ho => congrArg Pointer.offset ho
    · intro p hp hp'
      obtain ⟨x, -, rfl⟩ := List.mem_map.mp hp
      obtain ⟨y, hy, hyp⟩ := List.mem_map.mp hp'
      have hle := (region_of_mem_objects hy).1
      rw [hyp] at hle
      exact absurd hle (Nat.not_succ_le_self i)

theorem listing_values (css : List (List (Nat × Clause))) (i : Nat) :
    (listing i css).map Prod.snd = (clauses css).map Clause.value := by
  rw [listing_eq, ← objects_clauses css i, List.map_map, List.map_map]
  rfl

theorem listing_fst (css : List (List (Nat × Clause))) (i : Nat) :
    (listing i css).map Prod.fst = (objects i css).map Prod.fst := by
  rw [listing_eq, List.map_map]
  rfl

theorem relocate_eq_zip {α : Type} {range : List Pointer} {left : List (Pointer × α)}
    (h : range.length = left.length) : relocate range left = range.zip (left.map Prod.snd) := by
  refine List.ext_getElem (by simp [relocate, h]) fun i hi _ => ?_
  have hlt : i < range.length := by
    rw [h]
    simpa [relocate] using hi
  simp [relocate, hlt]

/-! ## Operations -/

theorem Represents.new (regionSize : Nat) : (new regionSize).Represents [] :=
  ⟨.nil, nofun, nofun, fun h => absurd rfl h⟩

theorem Represents.createActiveRegion (h : db.Represents css) : ∃ region spares,
    db.createActiveRegion = (region, ⟨db.m_regionSize, db.m_activeRegions ++ [region], spares⟩) ∧
    Represents ⟨db.m_regionSize, db.m_activeRegions ++ [region], spares⟩ (css ++ [[]]) := by
  obtain ⟨all, hall⟩ : ∃ all, all =
      db.m_spareRegions ++ List.replicate (3 - db.m_spareRegions.length) (Region.new db.m_regionSize) := ⟨_, rfl⟩
  have hspare : ∀ r ∈ all, r.Holds [] ∧ r.m_size = db.m_regionSize := by
    intro r hr
    rw [hall] at hr
    cases List.mem_append.mp hr with
    | inl hr => exact h.spare r hr
    | inr hr =>
      rw [List.eq_of_mem_replicate hr]
      exact ⟨.new _, rfl⟩
  have hlen : 3 ≤ all.length := by
    rw [hall, List.length_append, List.length_replicate]
    omega
  have hne : all ≠ [] := List.ne_nil_of_length_pos (by omega)
  have hlast := hspare _ (List.getLast_mem hne)
  refine ⟨all.getLast hne, all.dropLast, ?_, ⟨?_, ?_, ?_, ?_⟩⟩
  · unfold IterableClauseDB.createActiveRegion
    rw [← hall]
    dsimp only
    rw [List.getLastD_eq_getLast?, List.getLast?_eq_some_getLast hne]
    rfl
  · exact List.rel_append h.active (.cons hlast.1 .nil)
  · intro r hr
    cases List.mem_append.mp hr with
    | inl hr => exact h.active_size r hr
    | inr hr => exact List.mem_singleton.mp hr ▸ hlast.2
  · exact fun r hr => hspare r (List.dropLast_subset _ hr)
  · intro _
    apply List.ne_nil_of_length_pos
    rw [List.length_dropLast]
    omega

theorem Represents.store {cs : List (Nat × Clause)} {x : Nat × Clause} {r r' : Region} {rs : List Region}
    (h : db.Represents (css ++ [cs])) (ha : db.m_activeRegions = rs ++ [r]) (hr : r'.Holds (cs ++ [x]))
    (hs : r'.m_size = r.m_size) :
    Represents { db with m_activeRegions := db.m_activeRegions.dropLast ++ [r'] } (css ++ [cs ++ [x]]) ∧
    objects 0 (css ++ [cs ++ [x]]) = objects 0 (css ++ [cs]) ++ [(⟨db.m_activeRegions.length - 1, x.1⟩, x.2)] := by
  have hactive := h.active
  rw [ha] at hactive
  obtain ⟨has, -⟩ := forall₂_concat_concat hactive
  have hlen : db.m_activeRegions.length - 1 = css.length := by
    rw [ha, List.length_append, List.length_singleton, Nat.add_sub_cancel, has.length_eq]
  have hsize := h.active_size
  rw [ha] at hsize
  have hne : db.m_activeRegions ≠ [] := by
    rw [ha]
    exact List.append_ne_nil_of_right_ne_nil _ (List.cons_ne_nil _ _)
  refine ⟨⟨?_, ?_, h.spare, fun _ => h.spares hne⟩, ?_⟩
  · rw [ha, List.dropLast_concat]
    exact List.rel_append has (.cons hr .nil)
  · intro y hy
    rw [ha, List.dropLast_concat] at hy
    cases List.mem_append.mp hy with
    | inl hy => exact hsize y (List.mem_append_left _ hy)
    | inr hy =>
      rw [List.mem_singleton.mp hy, hs]
      exact hsize r (List.mem_append_right _ List.mem_cons_self)
  · rw [hlen, objects_append, objects_append, Nat.zero_add, objects_singleton, objects_singleton, List.map_append,
      List.append_assoc]
    rfl

theorem objects_snoc_nil (css : List (List (Nat × Clause))) : objects 0 (css ++ [[]]) = objects 0 css := by
  rw [objects_append, objects_singleton, List.map_nil, List.append_nil]

theorem Represents.allocate {cs : List (Nat × Clause)} {r : Region} {rs : List Region}
    (h : db.Represents (css ++ [cs]))
    (ha : db.m_activeRegions = rs ++ [r]) {n : Nat} (hn : 1 ≤ n)
    (hfit : Clause.getAllocationSize n ≤ db.m_regionSize) (u : Nat → CNFLit) :
    ∃ p db' css', (match r.allocate n u with
      | some (p, region) => (some ⟨db.m_activeRegions.length - 1, p⟩,
          { db with m_activeRegions := db.m_activeRegions.dropLast ++ [region] })
      | none =>
        let (newRegion, db) := db.createActiveRegion
        match newRegion.allocate n u with
        | some (p, region) => (some ⟨db.m_activeRegions.length - 1, p⟩,
            { db with m_activeRegions := db.m_activeRegions.dropLast ++ [region] })
        | none => (none, db)) = (some p, db') ∧ db'.Represents css' ∧ db'.m_regionSize = db.m_regionSize ∧
      objects 0 css' = objects 0 (css ++ [cs]) ++ [(p, Clause.constructIn n u)] := by
  have hr : r.Holds cs := by
    have hactive := h.active
    rw [ha] at hactive
    exact (forall₂_concat_concat hactive).2
  obtain ⟨hfull, hroom⟩ := hr.allocate hn u
  by_cases hle : Clause.getAllocationSize n ≤ r.m_free
  · obtain ⟨r', he, hr', hs, -⟩ := hroom hle
    obtain ⟨h', hl⟩ := h.store ha hr' hs
    rw [he]
    exact ⟨_, _, _, rfl, h', rfl, hl⟩
  · obtain ⟨region, spares, hc, h₁⟩ := h.createActiveRegion
    have hempty := (forall₂_concat_concat h₁.active).2
    have hsize : region.m_size = db.m_regionSize :=
      h₁.active_size region (List.mem_append_right _ List.mem_cons_self)
    have hfree : region.m_free = db.m_regionSize := by
      have h₀ := hempty.used.symm.trans (hempty.used_eq_zero.mpr rfl)
      have := hempty.free
      omega
    obtain ⟨r', he, hr', hs, -⟩ := (hempty.allocate hn u).2 (hfit.trans_eq hfree.symm)
    obtain ⟨h', hl⟩ := h₁.store rfl hr' hs
    rw [hfull (Nat.lt_of_not_le hle), hc]
    dsimp only
    rw [he]
    refine ⟨_, _, _, rfl, h', rfl, ?_⟩
    rw [hl, objects_snoc_nil]

theorem Represents.createClause (h : db.Represents css) {n : Nat} (hn : 1 ≤ n) (u : Nat → CNFLit) :
    ((maxClauseSize < n ∨ db.m_regionSize < Clause.getAllocationSize n) ∧ db.createClause n u = (none, db)) ∨
    (¬(maxClauseSize < n ∨ db.m_regionSize < Clause.getAllocationSize n) ∧ ∃ p db' css',
      db.createClause n u = (some p, db') ∧ db'.Represents css' ∧ db'.m_regionSize = db.m_regionSize ∧
      objects 0 css' = objects 0 css ++ [(p, Clause.constructIn n u)]) := by
  have hmod : ¬maxClauseSize < n → n % (maxClauseSize + 1) = n := fun hmax =>
    Nat.mod_eq_of_lt (Nat.lt_succ_of_le (Nat.le_of_not_lt hmax))
  unfold IterableClauseDB.createClause
  dsimp only
  by_cases hbig : maxClauseSize < n ∨ db.m_regionSize < Clause.getAllocationSize n
  · refine .inl ⟨hbig, if_pos ?_⟩
    by_cases hmax : maxClauseSize < n
    · exact .inl hmax
    · rw [hmod hmax]
      exact hbig
  · refine .inr ⟨hbig, ?_⟩
    obtain ⟨hmax, hfit⟩ := not_or.mp hbig
    rw [hmod hmax, if_neg hbig]
    cases hlast : db.m_activeRegions.getLast? with
    | none =>
      obtain ⟨region, spares, hc, h₁⟩ := h.createActiveRegion
      obtain ⟨p, db', css', he, h', hs, hl⟩ := h₁.allocate rfl hn (Nat.le_of_not_lt hfit) u
      dsimp only
      rw [hc]
      exact ⟨p, db', css', he, h', hs, hl.trans (by rw [objects_snoc_nil])⟩
    | some region =>
      obtain ⟨rs, hrs⟩ := List.getLast?_eq_some_iff.mp hlast
      have hactive := h.active
      rw [hrs] at hactive
      obtain ⟨css₀, cs, rfl, -, -⟩ := forall₂_concat hactive
      exact h.allocate hrs hn (Nat.le_of_not_lt hfit) u

theorem map_update_objects {front rest : List (List (Nat × Clause))} {pre post : List (Nat × Clause)} {p : Pointer}
    {c : Clause} (hreg : p.region = front.length) (hoff : ∀ x ∈ pre ++ post, x.1 ≠ p.offset) {f : Clause → Clause} :
    objects 0 (front ++ (pre ++ (p.offset, f c) :: post) :: rest) =
      (objects 0 (front ++ (pre ++ (p.offset, c) :: post) :: rest)).map
        fun x => (x.1, if x.1 = p then f x.2 else x.2) := by
  have hother : ∀ {xs : List (Pointer × Clause)}, (∀ x ∈ xs, x.1 ≠ p) →
      (xs.map fun x => (x.1, if x.1 = p then f x.2 else x.2)) = xs := by
    intro xs hxs
    rw [List.map_congr_left (g := id) fun x hx => by rw [if_neg (hxs x hx)]; rfl, List.map_id]
  have hfront : ∀ x ∈ objects 0 front, x.1 ≠ p := by
    intro x hx hxp
    have hlt := (region_of_mem_objects hx).2
    rw [hxp] at hlt
    omega
  have hrest : ∀ x ∈ objects (0 + front.length + 1) rest, x.1 ≠ p := by
    intro x hx hxp
    have hle := (region_of_mem_objects hx).1
    rw [hxp] at hle
    omega
  have hcs : ∀ {cs : List (Nat × Clause)}, cs ⊆ pre ++ post →
      ∀ x ∈ cs.map (fun x => ((⟨0 + front.length, x.1⟩ : Pointer), x.2)), x.1 ≠ p := by
    intro cs hsub x hx hxp
    obtain ⟨y, hy, rfl⟩ := List.mem_map.mp hx
    exact hoff y (hsub hy) (congrArg Pointer.offset hxp)
  have hpp : (⟨0 + front.length, p.offset⟩ : Pointer) = p := by
    rw [Nat.zero_add, ← hreg]
  rw [objects_append, objects_append, objects, objects]
  simp only [List.map_append, List.map_cons]
  rw [hother hfront, hother hrest]
  simp only [List.append_assoc, List.cons_append]
  have h₁ := hother (hcs (List.subset_append_left pre post))
  have h₂ := hother (hcs (List.subset_append_right pre post))
  rw [h₁, h₂, hpp, if_pos rfl]

theorem Represents.modify (h : db.Represents css) {p : Pointer} {c : Clause} (hp : (p, c) ∈ objects 0 css) :
    db.read p = some c ∧ c.Valid ∧ ∀ f : Clause → Clause, (f c).Valid → (f c).initialSize = c.initialSize →
      ∃ db' css', db.modify p f = some db' ∧ db'.Represents css' ∧ db'.m_regionSize = db.m_regionSize ∧
        objects 0 css' = (objects 0 css).map fun x => (x.1, if x.1 = p then f x.2 else x.2) := by
  obtain ⟨front, pre, post, rest, rfl, hreg⟩ := exists_of_mem_objects hp
  rw [Nat.zero_add] at hreg
  obtain ⟨as, r, bs, ha, has, hr, hbs⟩ := forall₂_split h.active
  obtain ⟨hm, hvalid, -⟩ := hr.getNextClause
  have hget : db.m_activeRegions[p.region]? = some r := by
    rw [ha, hreg, ← has.length_eq, List.getElem?_append_right (Nat.le_refl _), Nat.sub_self]
    rfl
  have hread : db.read p = some c := by
    unfold read
    rw [hget]
    exact hm
  refine ⟨hread, hvalid, fun f hf hi => ?_⟩
  refine ⟨{ db with m_activeRegions := as ++ r.put p.offset (f c) :: bs },
    front ++ (pre ++ (p.offset, f c) :: post) :: rest,
    ?_, ⟨?_, ?_, h.spare, fun _ => h.spares ?_⟩, rfl, ?_⟩
  · unfold IterableClauseDB.modify
    rw [hget]
    dsimp only [Option.bind_eq_bind, Option.bind_some]
    rw [hm]
    dsimp only [Option.bind_some]
    rw [ha, hreg, ← has.length_eq, List.set_append_right _ _ (Nat.le_refl _), Nat.sub_self]
    rfl
  · exact List.rel_append has (.cons (hr.put hf hi) hbs)
  · have hsize := h.active_size
    rw [ha] at hsize
    intro x hx
    cases List.mem_append.mp hx with
    | inl hx => exact hsize x (List.mem_append_left _ hx)
    | inr hx =>
      cases List.mem_cons.mp hx with
      | inl hx =>
        rw [hx]
        exact hsize r (List.mem_append_right _ List.mem_cons_self)
      | inr hx => exact hsize x (List.mem_append_right _ (List.mem_cons_of_mem _ hx))
  · rw [ha]
    exact List.append_ne_nil_of_right_ne_nil _ (List.cons_ne_nil _ _)
  · rw [map_update_objects hreg hr.layout.offset_ne]

/-! ## Sessions -/

namespace Session

variable {s t : Session}

def Storable (s : Session) : Operation → Prop
  | .edit p (.resize newSize) => ∀ c ∈ s.db.read p, newSize < c.m_size → c.initialSize < 2147483648
  | _ => True

instance (s : Session) : ∀ op : Operation, Decidable (s.Storable op)
  | .edit p (.resize newSize) =>
    inferInstanceAs (Decidable (∀ c ∈ s.db.read p, newSize < c.m_size → c.initialSize < 2147483648))
  | .edit _ (.write _ _) | .edit _ (.setLBD _) | .edit _ (.setFlag _) | .edit _ (.clearFlag _) | .createClause _ _
  | .compress => .isTrue trivial

def Steps (condition : Session → Operation → Prop) (s t : Session) : Prop :=
  ∃ op, s.Allowed op ∧ condition s op ∧ s.step op = some t

def Reachable (condition : Session → Operation → Prop) (regionSize : Nat) : Session → Prop :=
  Runs.Reachable (fun s => s = .new regionSize) (Steps condition)

structure Inv (regionSize : Nat) (s : Session) : Prop where
  represents : ∃ css, s.db.Represents css ∧ s.clauses = listing 0 css
  regionSize : s.db.m_regionSize = regionSize

variable {regionSize : Nat}

section
variable (h : Inv regionSize s)
include h

theorem Inv.createClause {size : Nat} (hsize : 1 ≤ size) (u : Nat → CNFLit) :
    ∃ t, s.step (.createClause size u) = some t ∧ Inv regionSize t := by
  obtain ⟨⟨css, hrep, hc⟩, hregion⟩ := h
  cases hrep.createClause hsize u with
  | inl hnone =>
    refine ⟨{ s with db := s.db }, ?_, ⟨css, hrep, hc⟩, hregion⟩
    unfold Session.step
    dsimp only
    rw [hnone.2]
  | inr hsome =>
    obtain ⟨-, p, db', css', he, h', hs', hl⟩ := hsome
    refine ⟨⟨db', s.clauses ++ [(p, (Clause.constructIn size u).value)]⟩, ?_, ⟨css', h', ?_⟩, hs'.trans hregion⟩
    · unfold Session.step
      dsimp only
      rw [he]
    · rw [hc, listing_eq, listing_eq, hl, List.map_append]
      rfl

theorem Inv.edit {p : Pointer} {e : Edit} (ha : s.Allowed (.edit p e)) (hs : s.Storable (.edit p e)) :
    ∃ t, s.step (.edit p e) = some t ∧ Inv regionSize t := by
  obtain ⟨⟨css, hrep, hc⟩, hregion⟩ := h
  obtain ⟨⟨p, v⟩, hv, rfl, he⟩ := ha
  rw [hc, listing_eq] at hv
  obtain ⟨⟨p, c⟩, hpc, hpv⟩ := List.mem_map.mp hv
  cases hpv
  obtain ⟨hread, hvalid, hmod⟩ := hrep.modify hpc
  rw [Clause.length_value] at he
  obtain ⟨hvalid', hi, hval⟩ := Edit.apply_spec hvalid he (by
    rintro n rfl hlt
    exact hs c hread hlt)
  obtain ⟨db', css', hdb, h', hs', hl⟩ := hmod (fun c => e.apply c) hvalid' hi
  refine ⟨⟨db', s.clauses.map fun x => (x.1, if x.1 = p then e.applyValue x.2 else x.2)⟩, ?_, ⟨css', h', ?_⟩,
    hs'.trans hregion⟩
  · unfold Session.step
    dsimp only
    rw [hdb]
    rfl
  · rw [hc, listing_eq, listing_eq, hl, List.map_map, List.map_map]
    refine List.map_congr_left fun x hx => Prod.ext rfl ?_
    show (if x.1 = p then e.applyValue x.2.value else x.2.value) = (if x.1 = p then e.apply x.2 else x.2).value
    by_cases hxp : x.1 = p
    · -- the pointer leads to one clause
      obtain ⟨q, d⟩ := x
      obtain rfl : q = p := hxp
      obtain rfl := Option.some.inj (hread.symm.trans (hrep.modify hx).1)
      rw [if_pos rfl, if_pos rfl]
      exact hval.symm
    · rw [if_neg hxp, if_neg hxp]

theorem Inv.compress : ∃ t, s.step .compress = some t ∧ Inv regionSize t := by
  obtain ⟨⟨css, hrep, hc⟩, hregion⟩ := h
  obtain ⟨db', css', hdb, h', hs', hval⟩ := hrep.compress
  refine ⟨⟨db', relocate ((listing 0 css').map Prod.fst) (s.clauses.filter fun x => !x.2.scheduled)⟩, ?_,
    ⟨css', h', ?_⟩, hs'.trans hregion⟩
  · unfold Session.step
    dsimp only
    rw [hdb]
    dsimp only [Option.bind_eq_bind, Option.bind_some]
    rw [getClauses_eq h'.active]
    rfl
  · -- the values that are to be left are those of the new range
    have hleft : (s.clauses.filter fun x => !x.2.scheduled).map Prod.snd = (listing 0 css').map Prod.snd := by
      have hfilter : (s.clauses.filter fun x => !x.2.scheduled).map Prod.snd =
          (s.clauses.map Prod.snd).filter fun v => !v.scheduled := by
        rw [List.filter_map]
        rfl
      rw [hfilter, hc, listing_values, listing_values, hval, List.filter_map, List.map_map]
      exact List.map_congr_left fun c _ => c.compressed_value.symm
    have hlen : ((listing 0 css').map Prod.fst).length = (s.clauses.filter fun x => !x.2.scheduled).length := by
      have hlength := congrArg List.length hleft
      rw [List.length_map, List.length_map] at hlength
      rw [List.length_map, hlength]
    dsimp only
    rw [relocate_eq_zip hlen, hleft]
    exact (List.zip_of_prod rfl rfl).symm

theorem Inv.step {op : Operation} (ha : s.Allowed op) (hs : s.Storable op) :
    ∃ t, s.step op = some t ∧ Inv regionSize t := by
  cases op with
  | createClause size u => exact h.createClause ha u
  | edit p e => exact h.edit ha hs
  | compress => exact h.compress

end

theorem Inv.of_reachable (h : Reachable Storable regionSize s) : Inv regionSize s := by
  apply h.invariant
  · rintro s rfl
    exact ⟨⟨[], .new regionSize, rfl⟩, rfl⟩
  · intro s t hi hs
    obtain ⟨op, ha, hc, hs⟩ := hs
    obtain ⟨t', ht, hi'⟩ := hi.step ha hc
    exact Option.some.inj (ht.symm.trans hs) ▸ hi'

/-- The database loses and duplicates nothing. -/
structure Exact (regionSize : Nat) (s : Session) : Prop where
  range : s.db.getClauses = some s.clauses
  nodup : (s.clauses.map Prod.fst).Nodup
  createClause : ∀ size u, 1 ≤ size →
    ((s.db.createClause size u).1 = none ↔ maxClauseSize < size ∨ regionSize < Clause.getAllocationSize size)
  compress : s.db.compress.isSome = true
  loop : s.db.m_activeRegions ≠ [] → ∃ start, s.db.compressStart = some start ∧
    ∀ idx ≤ s.db.m_activeRegions.length, ∃ st, compressRegions start idx = some st ∧
      st.m_activeRegions.drop idx = s.db.m_activeRegions.drop idx ∧
      ∀ region, s.db.m_activeRegions[idx]? = some region → st.InvariantA idx region

theorem Inv.exact (h : Inv regionSize s) : Exact regionSize s := by
  obtain ⟨⟨css, hrep, hc⟩, hsize⟩ := h
  refine ⟨?_, ?_, fun size u hn => ?_, ?_, fun hne => ?_⟩
  · rw [hc]
    exact getClauses_eq hrep.active
  · rw [hc, listing_fst]
    exact nodup_objects hrep.active 0
  · rw [← hsize]
    cases hrep.createClause hn u with
    | inl hnone =>
      rw [hnone.2]
      exact iff_of_true rfl hnone.1
    | inr hsome =>
      obtain ⟨hn, p, db', css', he, -⟩ := hsome
      rw [he]
      exact iff_of_false (Option.some_ne_none p) hn
  · obtain ⟨db', -, hdb, -⟩ := hrep.compress
    rw [hdb]
    rfl
  · obtain ⟨start, hstart, -, hloop⟩ := hrep.compressRegions hne
    refine ⟨start, hstart, fun idx hidx => ?_⟩
    obtain ⟨st, outs, empties, cur, hst, hcopy, rfl, -, hroom⟩ := hloop hidx
    refine ⟨st, hst, hcopy.drop, fun region hr => ?_⟩
    obtain ⟨hlt, rfl⟩ := List.getElem?_eq_some_iff.mp hr
    have hholds := List.Forall₂.get hrep.active hlt (hlt.trans_eq hrep.active.length_eq)
    exact hcopy.invariantA hholds (hrep.active_size _ (List.getElem_mem hlt)) (hroom.imp_right And.right)

/-- In every run in which the clauses that are shrunk have sizes that can be stored. -/
theorem exact_of_storable (h : Reachable Storable regionSize s) : Exact regionSize s ∧
    ∀ op, s.Allowed op → s.Storable op → (s.step op).isSome = true := by
  have hinv := Inv.of_reachable h
  refine ⟨hinv.exact, fun op ha hs => ?_⟩
  obtain ⟨t, ht, -⟩ := hinv.step ha hs
  rw [ht]
  rfl

def fill (i : Nat) : CNFLit := ⟨i, .positive⟩

def attempt (s : Session) (op : Operation) : Option Session :=
  if s.Allowed op ∧ s.Storable op then s.step op else none

def compressed : Option Session :=
  [.createClause 9 fill, .createClause 1 fill, .createClause 2 fill, .edit ⟨0, 0⟩ (.resize 3),
    .edit ⟨0, 56⟩ (.setFlag .SCHEDULED_FOR_DELETION), .compress].foldlM attempt (.new 100)

theorem compressed_exact : ∃ s, compressed = some s ∧ Exact 100 s ∧ s.clauses.length = 2 := by
  have hsome : (compressed.map fun s => s.clauses.length) = some 2 := by decide +kernel
  obtain ⟨s, hs, hlen⟩ := Option.map_eq_some_iff.mp hsome
  have hreach : Reachable Storable 100 s := by
    refine Runs.Reachable.foldlM (.init rfl) (fun op _ s t ht => ?_) hs
    unfold attempt at ht
    split at ht
    · rename_i hop
      exact ⟨op, hop.1, hop.2, ht⟩
    · cases ht
  exact ⟨s, hs, (exact_of_storable hreach).1, hlen⟩

theorem step_createClause {size : Nat} {u : Nat → CNFLit} {p : Pointer}
    (h : (s.db.createClause size u).1 = some p) :
    s.step (.createClause size u) =
      some ⟨(s.db.createClause size u).2, s.clauses ++ [(p, (Clause.constructIn size u).value)]⟩ := by
  unfold Session.step
  dsimp only
  generalize s.db.createClause size u = e at h
  obtain ⟨q, db⟩ := e
  obtain rfl : q = some p := h
  rfl

def oversized : Session :=
  let db := (IterableClauseDB.new 17179869184).createClause 2147483649 fill
  ⟨(db.2.createClause 1 fill).2,
    [(⟨0, 0⟩, (Clause.constructIn 2147483649 fill).value), (⟨0, 8589934616⟩, (Clause.constructIn 1 fill).value)]⟩

/-- When it is shrunk, its initial size is lost, and the iteration leaves the clauses. -/
theorem oversized_shrunk : ∃ s, Reachable (fun _ _ => True) 17179869184 s ∧ s.db.getClauses ≠ some s.clauses := by
  have h₁ : Reachable (fun _ _ => True) 17179869184
      ⟨((IterableClauseDB.new 17179869184).createClause 2147483649 fill).2,
        [(⟨0, 0⟩, (Clause.constructIn 2147483649 fill).value)]⟩ :=
    .step (.init rfl) ⟨.createClause 2147483649 fill, by decide, trivial, step_createClause (by decide +kernel)⟩
  have h₂ : Reachable (fun _ _ => True) 17179869184 oversized :=
    .step h₁ ⟨.createClause 1 fill, by decide, trivial, step_createClause (by decide +kernel)⟩
  have hsome : (oversized.step (.edit ⟨0, 0⟩ (.resize 1))).isSome = true := by decide +kernel
  have hnone : ((oversized.step (.edit ⟨0, 0⟩ (.resize 1))).bind fun s => s.db.getClauses).isNone = true := by
    decide +kernel
  obtain ⟨s, hs⟩ := Option.isSome_iff_exists.mp hsome
  rw [hs] at hnone
  refine ⟨s, .step h₂ ⟨.edit ⟨0, 0⟩ (.resize 1), ⟨_, List.mem_cons_self, rfl, ?_⟩, trivial, hs⟩, fun he => ?_⟩
  · rw [Clause.length_value]
    decide
  · rw [Option.bind_some, he] at hnone
    cases hnone

end Session

end IterableClauseDB

end JamSAT
