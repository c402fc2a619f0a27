import Exaros.Memory.Walk

/-!
# Specifications of the page-table functions

Each function of `memory.c` is described once by what it does to `view`. `Remap` is the shape of a
successful edit: the view changes at one virtual page of one directory, no other data page changes,
and only the page that was mapped there can become free. Callers cite these specifications and
never unfold the functions.
-/

namespace Exaros

/-- The view of directory `d` becomes `new` at `v` and is otherwise as it was. -/
structure Remap (img : Image) (dirs : Finset Ppn) (d : Ppn) (v : Vpn) (new : Option Pte) (m m' : Mem) :
    Prop where
  inv : MemInv img m' dirs
  view : ∀ d' ∈ dirs, ∀ v', view m' d' v' = if d' = d ∧ v' = v then new else view m d' v'
  mono : ∀ d ∈ dirs, ∀ p t, p.length ≤ 2 → tableAt m d p = some t → tableAt m' d p = some t
  isTable : ∀ t, IsTable m' dirs t → IsTable m dirs t ∨ t ∈ m.freePageList
  free : ∀ p ∈ m'.freePageList, p ∈ m.freePageList ∨ target m (d, v) = some p
  data : ∀ p, ¬ IsTable m' dirs p → m'.ram p = m.ram p
  idle : ∀ p, Idle m' p → Idle m p

section Remap

variable {img : Image} {dirs : Finset Ppn} {m m' m'' : Mem} {d d' p t : Ppn} {v v' : Vpn} {e : Pte}
  {new new' : Option Pte}

theorem Remap.view_self (r : Remap img dirs d v new m m') (hd : d ∈ dirs) : Exaros.view m' d v = new := by
  rw [r.view d hd v, if_pos ⟨rfl, rfl⟩]

theorem Remap.view_off (r : Remap img dirs d v new m m') (hd' : d' ∈ dirs) (h : ¬ (d' = d ∧ v' = v)) :
    Exaros.view m' d' v' = Exaros.view m d' v' := by
  rw [r.view d' hd' v', if_neg h]

theorem Remap.leafTable (r : Remap img dirs d v new m m') (hd' : d' ∈ dirs)
    (h : Exaros.leafTable m d' v' = some t) : Exaros.leafTable m' d' v' = some t :=
  r.mono d' hd' _ t (by simp) h

theorem Remap.not_isTable (r : Remap img dirs d v new m m') (hf : p ∉ m.freePageList)
    (ht : ¬ IsTable m dirs p) : ¬ IsTable m' dirs p := fun h => (r.isTable p h).elim ht hf

/-- The page outlives its entry at `v`: it belongs to the image or is mapped somewhere else as well. -/
def Outlives (img : Image) (m : Mem) (dirs : Finset Ppn) (d : Ppn) (v : Vpn) (p : Ppn) : Prop :=
  img.Kernel p ∨ ∃ d' ∈ dirs, ∃ v', ¬ (d' = d ∧ v' = v) ∧ target m (d', v') = some p

/-- A usable page stays usable, but for one that only the entry that went mapped. -/
theorem Remap.usable (r : Remap img dirs d v new m m') (h : Usable m dirs p)
    (hout : target m (d, v) = some p → Outlives img m dirs d v p) : Usable m' dirs p := by
  refine ⟨h.1, fun hf => ?_, r.not_isTable h.2.1 h.2.2⟩
  rcases r.free p hf with hf' | hf'
  · exact h.2.1 hf'
  · rcases hout hf' with hk | ⟨d', hd', v', hne, ht⟩
    · exact Image.not_above_of_kernel hk (r.inv.free p hf).1
    · obtain ⟨e, he, rfl⟩ := target_eq_some_iff.mp ht
      exact r.inv.not_free_of_view hd' ((r.view_off hd' hne).trans he) hf

/-- Growth followed by an edit. -/
theorem Grow.remap (g : Grow img dirs m m') (r : Remap img dirs d v new m' m'') (hd : d ∈ dirs) :
    Remap img dirs d v new m m'' where
  inv := r.inv
  view := fun d' hd' v' => by rw [r.view d' hd' v', g.view d' hd' v']
  mono := fun d' hd' p t hp h => r.mono d' hd' p t hp (g.mono d' hd' p t hp h)
  isTable := fun t h => by
    rcases r.isTable t h with h | h
    · exact g.isTable t h
    · exact .inr (g.free.subset h)
  free := fun p hp => by
    rcases r.free p hp with h | h
    · exact .inl (g.free.subset h)
    · refine .inr ?_
      unfold target at h ⊢
      rwa [g.view d hd v] at h
  data := fun p hp => (r.data p hp).trans (g.data p (mt (isTable_mono r.mono) hp))
  idle := fun p hp => g.idle p (r.idle p hp)

/-- Clearing a slot and then filling it without growth. -/
theorem Remap.trans_clear (r : Remap img dirs d v none m m') (r' : Remap img dirs d v new m' m'')
    (hst : SameTables m' m'' dirs) (hd : d ∈ dirs) : Remap img dirs d v new m m'' where
  inv := r'.inv
  view := fun d' hd' v' => by
    rw [r'.view d' hd' v', r.view d' hd' v']
    split <;> rfl
  mono := fun d' hd' p t hp h => r'.mono d' hd' p t hp (r.mono d' hd' p t hp h)
  isTable := fun t h => r.isTable t ((hst.isTable t).mp h)
  free := fun p hp => by
    rcases r'.free p hp with h | h
    · exact r.free p h
    · have hnone : target m' (d, v) = none := by unfold target; rw [r.view_self hd]; rfl
      rw [hnone] at h
      cases h
  data := fun p hp => (r'.data p hp).trans (r.data p (mt (isTable_mono r'.mono) hp))
  idle := fun p hp => r.idle p (r'.idle p hp)

/-- Edits that move no table and write only the page of a leaf table. -/
theorem remap_of_sameTables (hinv : MemInv img m' dirs) (hd : d ∈ dirs) (ht : leafTable m d v = some t)
    (hst : SameTables m m' dirs)
    (hview : ∀ d' ∈ dirs, ∀ v', Exaros.view m' d' v' = if d' = d ∧ v' = v then new else Exaros.view m d' v')
    (hfree : ∀ p ∈ m'.freePageList, p ∈ m.freePageList ∨ target m (d, v) = some p)
    (hoff : ∀ p, p ≠ t → m'.ram p = m.ram p) (hidle : ∀ p, Idle m' p → Idle m p) :
    Remap img dirs d v new m m' where
  inv := hinv
  view := hview
  mono := fun d' hd' p _ hp h => (hst d' hd' p hp).trans h
  isTable := fun u h => .inl ((hst.isTable u).mp h)
  free := hfree
  data := fun p hp => hoff p fun hpt =>
    hp (hpt ▸ (hst.isTable t).mpr (isTable_of_leafTable hd ht))
  idle := hidle

/-- An entry is cleared, and its page let go. -/
theorem remap_clear (h : MemInv img m dirs) (hd : d ∈ dirs) (ht : leafTable m d v = some t)
    (hv : Exaros.view m d v = some e) :
    Remap img dirs d v none m ((pageFree (pte2Ppn e) (m.decRef (pte2Ppn e))).2.write (t, v.2.2) 0) := by
  have hram : ((pageFree (pte2Ppn e) (m.decRef (pte2Ppn e))).2.write (t, v.2.2) 0).ram =
      (m.write (t, v.2.2) 0).ram := by
    unfold Mem.write
    simp [Mem.decRef]
  refine remap_of_sameTables (h.clear hd ht hv) hd ht ?_ ?_ ?_ ?_ ?_
  · have := sameTables_write h hd ht v.2.2 0
    unfold SameTables tableAt at this ⊢
    rwa [hram]
  · intro d' hd' v'
    have := view_write h hd ht 0 hd' v'
    unfold Exaros.view at this ⊢
    rw [hram, this]
    rfl
  · intro p hp
    have htarget : target m (d, v) = some (pte2Ppn e) := target_eq_some_iff.mpr ⟨e, hv, rfl⟩
    simp only [Mem.write, pageFree] at hp
    split at hp
    · rcases List.mem_cons.mp hp with rfl | hp
      · exact .inr htarget
      · exact .inl hp
    · exact .inl hp
  · intro p hp
    rw [hram]
    exact ram_write_off m (t, v.2.2) 0 hp
  · rintro p ⟨hnf, h0⟩
    simp only [Mem.write, pageFree] at hnf h0
    split at hnf
    · rename_i hz
      have hpe : p ≠ pte2Ppn e := fun hpe => hnf (hpe ▸ List.mem_cons_self ..)
      refine ⟨fun hf => hnf (List.mem_cons_of_mem _ hf), ?_⟩
      rw [if_pos hz] at h0
      simpa [Mem.pushFree, Mem.decRef, hpe] using h0
    · rename_i hz
      rw [if_neg hz] at h0
      have hpe : p ≠ pte2Ppn e := fun hpe => hz (hpe ▸ h0)
      exact ⟨hnf, by simpa [Mem.decRef, hpe] using h0⟩

theorem remap_fill (h : MemInv img m dirs) (hd : d ∈ dirs) (ht : leafTable m d v = some t)
    (hv : Exaros.view m d v = none) (hp : Usable m dirs (pte2Ppn e)) (he : pteValid e = true) (htouch : Touched e) :
    Remap img dirs d v (some e) m ((m.write (t, v.2.2) e).incRef (pte2Ppn e)) := by
  refine remap_of_sameTables (h.fill hd ht hv hp he htouch) hd ht
    (sameTables_write h hd ht v.2.2 e) ?_ (fun _ hp => .inl hp)
    (fun _ hp => ram_write_off m (t, v.2.2) e hp) ?_
  · intro d' hd' v'
    have := view_write h hd ht e hd' v'
    rwa [if_pos he] at this
  · rintro q ⟨hnf, h0⟩
    have hq : q ≠ pte2Ppn e := by
      rintro rfl
      have hone := toNat_add_one (h.ref_le hp.1)
      have heq : ((m.write (t, v.2.2) e).incRef (pte2Ppn e)).ref (pte2Ppn e) = m.ref (pte2Ppn e) + 1 := by
        simp [Mem.incRef, Mem.write]
      rw [← heq, h0] at hone
      simp at hone
    exact ⟨hnf, by simpa [Mem.incRef, Mem.write, hq] using h0⟩

theorem remap_rewrite (h : MemInv img m dirs) (hd : d ∈ dirs) (ht : leafTable m d v = some t) {e' : Pte}
    (hv : Exaros.view m d v = some e) (hpe : pte2Ppn e' = pte2Ppn e) (he : pteValid e' = true)
    (htouch : Touched e') : Remap img dirs d v (some e') m (m.write (t, v.2.2) e') := by
  refine remap_of_sameTables (h.rewrite hd ht hv hpe he htouch) hd ht
    (sameTables_write h hd ht v.2.2 e') ?_ (fun _ hp => .inl hp)
    (fun _ hp => ram_write_off m (t, v.2.2) e' hp) (fun _ hp => hp)
  intro d' hd' v'
  have := view_write h hd ht e' hd' v'
  rwa [if_pos he] at this

end Remap

/-! ## Lookup and removal -/

section Spec

variable {img : Image} {dirs : Finset Ppn} {m : Mem} {d t pp : Ppn} {va : Nat} {e perm : Pte}

theorem pageLookup_none (hv : view m d (vpn va) = none) : pageLookup d va m = .ok none := by
  unfold pageLookup
  rw [pageWalk_false]
  cases ht : leafTable m d (vpn va) with
  | none => rfl
  | some t =>
    have hnv : ¬ pteValid (m.read (t, vaPpn va 0)) = true := by
      intro h
      rw [view_of_leafTable ht] at hv
      exact absurd ((if_pos h).symm.trans hv) (by simp)
    simp only [Option.map_some, if_neg hnv]
    rfl

theorem pageLookup_some (ht : leafTable m d (vpn va) = some t) (hv : view m d (vpn va) = some e)
    (hm : Managed (pte2Ppn e)) : pageLookup d va m = .ok (some (pte2Ppn e, (t, vaPpn va 0))) := by
  obtain ⟨u, hu, hvalid, hread⟩ := view_eq_some_iff.mp hv
  obtain rfl : t = u := Option.some.inj (ht.symm.trans hu)
  have hread' : m.read (t, vaPpn va 0) = e := hread
  have hvalid' : pteValid e = true := hread ▸ hvalid
  unfold pageLookup
  rw [pageWalk_false, ht]
  simp only [Option.map_some, hread', if_pos hvalid', pte2Page, if_neg (Nat.not_lt.mpr hm.1)]
  rfl

theorem MemInv.pageLookup_some (h : MemInv img m dirs) (hd : d ∈ dirs) (hv : view m d (vpn va) = some e) :
    ∃ t, leafTable m d (vpn va) = some t ∧ m.read (t, vaPpn va 0) = e ∧
      pageLookup d va m = .ok (some (pte2Ppn e, (t, vaPpn va 0))) := by
  obtain ⟨t, ht, hread⟩ := leafTable_of_view hv
  exact ⟨t, ht, hread, Exaros.pageLookup_some ht hv (h.leaf d hd _ e hv).1⟩

/-- What a lookup answers, and with which entry. -/
theorem MemInv.pageLookup_eq (h : MemInv img m dirs) (hd : d ∈ dirs) (va : Nat) :
    ∃ r, pageLookup d va m = .ok r ∧ r.map (fun x => m.read x.2) = view m d (vpn va) ∧
      r.map Prod.fst = (view m d (vpn va)).map pte2Ppn := by
  cases hv : view m d (vpn va) with
  | none => exact ⟨none, pageLookup_none hv, rfl, rfl⟩
  | some e =>
    obtain ⟨t, -, hread, hl⟩ := h.pageLookup_some hd hv
    exact ⟨_, hl, congrArg some hread, rfl⟩

theorem pageRemove_none (hv : view m d (vpn va) = none) : pageRemove d va m = .ok (-1, m) := by
  unfold pageRemove
  rw [pageLookup_none hv]
  rfl

/-- `pageRemove` clears a mapped page. -/
theorem MemInv.pageRemove_some (h : MemInv img m dirs) (hd : d ∈ dirs) (hv : view m d (vpn va) = some e) :
    ∃ m', pageRemove d va m = .ok (0, m') ∧ Remap img dirs d (vpn va) none m m' ∧
      SameTables m m' dirs ∧ m.freePageList.length ≤ m'.freePageList.length := by
  obtain ⟨t, ht, -, hl⟩ := h.pageLookup_some hd hv
  have hr := remap_clear h hd ht hv
  refine ⟨_, ?_, hr, fun d' hd' p hp => ?_, ?_⟩
  · unfold pageRemove
    rw [hl]
    rfl
  · have := sameTables_write h hd ht (vpn va).2.2 0 d' hd' p hp
    unfold tableAt at this ⊢
    simpa [Mem.write, Mem.decRef] using this
  · simp only [Mem.write, pageFree]
    split
    · exact Nat.le_succ _
    · exact Nat.le_refl _

/-! ## Insertion -/

theorem touched_mkPte {p : Ppn} (perm : Pte) :
    Touched (mkPte p (perm ||| (PTE_ACCESSED_BIT ||| PTE_DIRTY_BIT))) := by
  unfold Touched PTE_ACCESSED_BIT PTE_DIRTY_BIT
  rw [getLsbD_mkPte_low p _ (by omega), getLsbD_mkPte_low p _ (by omega)]
  simp only [BitVec.getLsbD_or]
  rw [getLsbD_bit 6 6 (by omega), getLsbD_bit 7 7 (by omega)]
  simp

theorem PermOk.touch (h : PermOk perm) : PermOk (perm ||| (PTE_ACCESSED_BIT ||| PTE_DIRTY_BIT)) :=
  h.or ((permOk_bit (by omega)).or (permOk_bit (by omega)))

/-- The entry `pageInsert` and `pageMap` write. -/
def touchPte (p : Ppn) (perm : Pte) : Pte := mkPte p (perm ||| (PTE_ACCESSED_BIT ||| PTE_DIRTY_BIT))

theorem pte2Ppn_touchPte (hp : Managed pp) (hperm : PermOk perm) : pte2Ppn (touchPte pp perm) = pp :=
  pte2Ppn_mkPte hp.lt hperm.touch

/-- Filling an empty slot whose table exists. -/
theorem remap_touch (h : MemInv img m dirs) (hd : d ∈ dirs) (ht : leafTable m d (vpn va) = some t)
    (hv : view m d (vpn va) = none) (hp : Usable m dirs pp) (hperm : PermOk perm) :
    Remap img dirs d (vpn va) (some (touchPte pp perm)) m
      ((m.write (t, vaPpn va 0) (touchPte pp perm)).incRef pp) := by
  have hppn := pte2Ppn_touchPte hp.1 hperm
  have hr := remap_fill h hd ht hv (e := touchPte pp perm) (by rwa [hppn]) (pteValid_mkPte _ _)
    (touched_mkPte perm)
  rwa [hppn] at hr

theorem pageInsertNew_of_leafTable (ht : leafTable m d (vpn va) = some t) :
    pageInsertNew d va pp perm m = (0, (m.write (t, vaPpn va 0) (mkPte pp perm)).incRef pp) := by
  unfold pageInsertNew
  rw [pageWalk_of_leafTable ht]

/-- The tail of `pageInsert` on an empty slot takes the tables that are missing. -/
theorem MemInv.pageInsertNew (h : MemInv img m dirs) (hd : d ∈ dirs) (hv : view m d (vpn va) = none)
    (hp : Usable m dirs pp) (hperm : PermOk perm) :
    (∃ m', pageInsertNew d va pp (perm ||| (PTE_ACCESSED_BIT ||| PTE_DIRTY_BIT)) m = (0, m') ∧
      Remap img dirs d (vpn va) (some (touchPte pp perm)) m m' ∧
      m.freePageList.length = m'.freePageList.length + missing (hasTable m d) (vpn va) ∧
      ∀ p, p.length ≤ 2 → hasTable m' d p = withPath (hasTable m d) (vpn va) p) ∨
    (∃ m', pageInsertNew d va pp (perm ||| (PTE_ACCESSED_BIT ||| PTE_DIRTY_BIT)) m = (-E_NO_MEM, m') ∧
      Grow img dirs m m' ∧ leafTable m d (vpn va) = none ∧ m.freePageList.length < missing (hasTable m d) (vpn va)) := by
  unfold Exaros.pageInsertNew
  obtain ⟨t, m₁, hw, g, ht, hl, hhas⟩ | ⟨m₁, hw, g, ht, -, hl⟩ := pageWalk_exact h hd va
  · rw [hw]
    refine .inl ⟨_, rfl, ?_, hl, fun p hp' => ?_⟩
    · exact g.remap (remap_touch g.inv hd ht ((g.view d hd _).trans hv) (g.usable hp) hperm) hd
    · rw [← hhas p hp']
      exact (sameTables_write g.inv hd ht _ _).hasTable hd hp'
  · rw [hw]
    exact .inr ⟨m₁, rfl, g, ht, hl⟩

theorem leafTable_none_view (ht : leafTable m d (vpn va) = none) : view m d (vpn va) = none := by
  cases hv : view m d (vpn va) with
  | none => rfl
  | some e =>
    obtain ⟨t, ht', -⟩ := leafTable_of_view hv
    rw [ht] at ht'
    cases ht'

theorem pageInsert_absent (hv : view m d (vpn va) = none) :
    pageInsert d va pp perm m =
      .ok (pageInsertNew d va pp (perm ||| (PTE_ACCESSED_BIT ||| PTE_DIRTY_BIT)) m) := by
  unfold pageInsert
  rw [pageWalk_false]
  cases ht : leafTable m d (vpn va) with
  | none => rfl
  | some t =>
    have hnv : ¬ pteValid (m.read (t, vaPpn va 0)) = true := by
      intro h
      rw [view_of_leafTable ht] at hv
      exact absurd ((if_pos h).symm.trans hv) (by simp)
    simp only [Option.map_some, if_neg hnv]
    rfl

theorem pageInsert_present (ht : leafTable m d (vpn va) = some t) (hv : view m d (vpn va) = some e)
    (hm : Managed (pte2Ppn e)) :
    pageInsert d va pp perm m =
      if pte2Ppn e ≠ pp then do
        let (_, m) ← pageRemove d va m
        return pageInsertNew d va pp (perm ||| (PTE_ACCESSED_BIT ||| PTE_DIRTY_BIT)) m
      else .ok (0, m.write (t, vaPpn va 0) (touchPte pp perm)) := by
  obtain ⟨u, hu, hvalid, hread⟩ := view_eq_some_iff.mp hv
  obtain rfl : t = u := Option.some.inj (ht.symm.trans hu)
  have hread' : m.read (t, vaPpn va 0) = e := hread
  have hvalid' : pteValid e = true := hread ▸ hvalid
  unfold pageInsert
  rw [pageWalk_false, ht]
  simp only [Option.map_some, hread', if_pos hvalid', pte2Page, if_neg (Nat.not_lt.mpr hm.1)]
  rfl

/-- **`pageInsert`** takes the tables that are missing. -/
theorem MemInv.pageInsert_exact (h : MemInv img m dirs) (hd : d ∈ dirs) (va : Nat) (hp : Usable m dirs pp)
    (hperm : PermOk perm) :
    (∃ m', pageInsert d va pp perm m = .ok (0, m') ∧ Remap img dirs d (vpn va) (some (touchPte pp perm)) m m' ∧
      m.freePageList.length ≤ m'.freePageList.length + missing (hasTable m d) (vpn va) ∧
      ∀ p, p.length ≤ 2 → hasTable m' d p = withPath (hasTable m d) (vpn va) p) ∨
    (∃ m', pageInsert d va pp perm m = .ok (-E_NO_MEM, m') ∧ Grow img dirs m m' ∧ leafTable m d (vpn va) = none ∧
      m.freePageList.length < missing (hasTable m d) (vpn va)) := by
  cases hv : view m d (vpn va) with
  | none =>
    rw [pageInsert_absent hv]
    obtain ⟨m', hi, hr, hl, hhas⟩ | ⟨m', hi, hg, hno, hl⟩ := h.pageInsertNew hd hv hp hperm
    · exact .inl ⟨m', congrArg Except.ok hi, hr, Nat.le_of_eq hl, hhas⟩
    · exact .inr ⟨m', congrArg Except.ok hi, hg, hno, hl⟩
  | some e =>
    obtain ⟨t, ht, -⟩ := leafTable_of_view hv
    obtain ⟨hman, -, -⟩ := h.leaf d hd _ _ hv
    rw [pageInsert_present ht hv hman, withPath_of_leafTable ht]
    by_cases heq : pte2Ppn e = pp
    · refine .inl ⟨m.write (t, vaPpn va 0) (touchPte pp perm), if_neg (by simp [heq]), ?_, Nat.le_add_right _ _, fun p hp' => ?_⟩
      · exact remap_rewrite h hd ht hv (by rw [pte2Ppn_touchPte hp.1 hperm, heq]) (pteValid_mkPte _ _)
          (touched_mkPte perm)
      · exact (sameTables_write h hd ht _ _).hasTable hd hp'
    · obtain ⟨m₁, hrem, hr₁, hst, hlen⟩ := h.pageRemove_some hd hv
      have ht₁ := hr₁.leafTable hd ht
      have hp₁ : Usable m₁ dirs pp := hr₁.usable hp fun htg => by
        obtain ⟨e', he', hpe⟩ := target_eq_some_iff.mp htg
        rw [hv] at he'
        cases he'
        exact absurd hpe heq
      have hr₂ := remap_touch hr₁.inv hd ht₁ (hr₁.view_self hd) hp₁ hperm
      have hst₁ := sameTables_write hr₁.inv hd ht₁ (vaPpn va 0) (touchPte pp perm)
      refine .inl ⟨(m₁.write (t, vaPpn va 0) (touchPte pp perm)).incRef pp, ?_, hr₁.trans_clear hr₂ hst₁ hd,
        Nat.le_trans hlen (Nat.le_add_right _ _), fun p hp' => ?_⟩
      · rw [if_pos heq, hrem]
        exact congrArg Except.ok (pageInsertNew_of_leafTable ht₁)
      · rw [← hst.hasTable hd hp']
        exact hst₁.hasTable hd hp'

/-- It maps the page, or the slot was empty and there was no page for a table. -/
theorem MemInv.pageInsert (h : MemInv img m dirs) (hd : d ∈ dirs) (va : Nat) (hp : Usable m dirs pp) (hperm : PermOk perm) :
    (∃ m', pageInsert d va pp perm m = .ok (0, m') ∧
      Remap img dirs d (vpn va) (some (touchPte pp perm)) m m' ∧
      m.freePageList.length ≤ m'.freePageList.length + 2) ∨
    (∃ m', pageInsert d va pp perm m = .ok (-E_NO_MEM, m') ∧ Grow img dirs m m' ∧
      leafTable m d (vpn va) = none ∧ m.freePageList.length < 2) := by
  have htwo := missing_le (hasTable m d) (vpn va)
  obtain ⟨m', hi, hr, hl, -⟩ | ⟨m', hi, hg, ht, hl⟩ := h.pageInsert_exact hd va hp hperm
  · exact .inl ⟨m', hi, hr, by omega⟩
  · exact .inr ⟨m', hi, hg, ht, Nat.lt_of_lt_of_le hl htwo⟩

/-! ## `pageMap` -/

theorem kernelPageMapNew_of_leafTable (ht : leafTable m d (vpn va) = some t) :
    kernelPageMapNew d va pp perm m = (0, m.write (t, vaPpn va 0) (mkPte pp perm)) := by
  unfold kernelPageMapNew
  rw [pageWalk_of_leafTable ht]

theorem kernelPageMap_absent (pp : Ppn) (perm : Pte) (hv : view m d (vpn va) = none) :
    kernelPageMap d va pp perm m =
      .ok (kernelPageMapNew d va pp (perm ||| (PTE_ACCESSED_BIT ||| PTE_DIRTY_BIT)) m) := by
  unfold kernelPageMap
  rw [pageWalk_false]
  cases ht : leafTable m d (vpn va) with
  | none => rfl
  | some t =>
    have hnv : ¬ pteValid (m.read (t, vaPpn va 0)) = true := by
      intro h
      rw [view_of_leafTable ht] at hv
      exact absurd ((if_pos h).symm.trans hv) (by simp)
    simp only [Option.map_some, if_neg hnv]
    rfl

theorem kernelPageMap_present (hv : view m d (vpn va) = some e) :
    kernelPageMap d va pp perm m = do
      let (_, m) ← pageRemove d va m
      return kernelPageMapNew d va pp (perm ||| (PTE_ACCESSED_BIT ||| PTE_DIRTY_BIT)) m := by
  obtain ⟨t, ht, hvalid, hread⟩ := view_eq_some_iff.mp hv
  have hvalid' : pteValid (m.read (t, vaPpn va 0)) = true := hvalid
  unfold kernelPageMap
  rw [pageWalk_false, ht]
  simp only [Option.map_some, if_pos hvalid']

/-- The rest of `pageMap` once the entry is written: the page is looked up and counted. -/
theorem pageMap_of_ok {m₁ : Mem} (h : MemInv img m₁ dirs) (hd : d ∈ dirs)
    (ht : leafTable m₁ d (vpn va) = some t) (hp : Managed pp) (hperm : PermOk perm)
    (hk : kernelPageMap d va pp perm m = .ok (0, m₁.write (t, vaPpn va 0) (touchPte pp perm))) :
    pageMap d va pp perm m = .ok (0, (m₁.write (t, vaPpn va 0) (touchPte pp perm)).incRef pp) := by
  have ht' : leafTable (m₁.write (t, vaPpn va 0) (touchPte pp perm)) d (vpn va) = some t :=
    ((sameTables_write h hd ht _ _).leafTable hd _).trans ht
  have hv' : view (m₁.write (t, vaPpn va 0) (touchPte pp perm)) d (vpn va) = some (touchPte pp perm) := by
    have := view_write h hd ht (touchPte pp perm) hd (vpn va)
    rwa [if_pos ⟨rfl, rfl⟩, if_pos (show pteValid (touchPte pp perm) = true from pteValid_mkPte _ _)] at this
  have hppn := pte2Ppn_touchPte hp hperm
  have hl := pageLookup_some ht' hv' (by rwa [hppn])
  unfold pageMap
  rw [hk]
  simp only [bind, Except.bind, ne_eq, not_true_eq_false, if_false, hl, hppn]
  rfl

/-- **`pageMap`** takes the tables that are missing. Unlike `pageInsert` it drops an old entry even for the same page,
so that page must outlive the entry. -/
theorem MemInv.pageMap_exact (h : MemInv img m dirs) (hd : d ∈ dirs) (va : Nat) (hp : Usable m dirs pp)
    (hperm : PermOk perm) (hout : target m (d, vpn va) = some pp → Outlives img m dirs d (vpn va) pp) :
    (∃ m', pageMap d va pp perm m = .ok (0, m') ∧ Remap img dirs d (vpn va) (some (touchPte pp perm)) m m' ∧
      m.freePageList.length ≤ m'.freePageList.length + missing (hasTable m d) (vpn va) ∧
      ∀ p, p.length ≤ 2 → hasTable m' d p = withPath (hasTable m d) (vpn va) p) ∨
    (∃ m', pageMap d va pp perm m = .ok (-E_NO_MEM, m') ∧ Grow img dirs m m' ∧ leafTable m d (vpn va) = none ∧
      m.freePageList.length < missing (hasTable m d) (vpn va)) := by
  cases hv : view m d (vpn va) with
  | none =>
    have hk := kernelPageMap_absent pp perm hv
    unfold kernelPageMapNew at hk
    obtain ⟨t, m₁, hw, g, ht, hl, hhas⟩ | ⟨m₁, hw, g, ht, -, hl⟩ := pageWalk_exact h hd va
    · rw [hw] at hk
      refine .inl ⟨_, pageMap_of_ok g.inv hd ht hp.1 hperm hk, ?_, Nat.le_of_eq hl, fun p hp' => ?_⟩
      · exact g.remap (remap_touch g.inv hd ht ((g.view d hd _).trans hv) (g.usable hp) hperm) hd
      · rw [← hhas p hp']
        exact (sameTables_write g.inv hd ht _ _).hasTable hd hp'
    · rw [hw] at hk
      refine .inr ⟨m₁, ?_, g, ht, hl⟩
      unfold Exaros.pageMap
      rw [hk]
      rfl
  | some e =>
    obtain ⟨t, ht, -⟩ := leafTable_of_view hv
    obtain ⟨m₁, hrem, hr₁, hst, hlen⟩ := h.pageRemove_some hd hv
    have ht₁ := hr₁.leafTable hd ht
    have hk : kernelPageMap d va pp perm m = .ok (0, m₁.write (t, vaPpn va 0) (touchPte pp perm)) := by
      rw [kernelPageMap_present hv, hrem]
      exact congrArg Except.ok (kernelPageMapNew_of_leafTable ht₁)
    have hst₁ := sameTables_write hr₁.inv hd ht₁ (vaPpn va 0) (touchPte pp perm)
    refine .inl ⟨_, pageMap_of_ok hr₁.inv hd ht₁ hp.1 hperm hk, ?_, Nat.le_trans hlen (Nat.le_add_right _ _), fun p hp' => ?_⟩
    · have hr₂ := remap_touch hr₁.inv hd ht₁ (hr₁.view_self hd) (hr₁.usable hp hout) hperm
      exact hr₁.trans_clear hr₂ hst₁ hd
    · rw [withPath_of_leafTable ht, ← hst.hasTable hd hp']
      exact hst₁.hasTable hd hp'

/-- It maps the page, or the slot was empty and there was no page for a table. -/
theorem MemInv.pageMap (h : MemInv img m dirs) (hd : d ∈ dirs) (va : Nat) (hp : Usable m dirs pp)
    (hperm : PermOk perm) (hout : target m (d, vpn va) = some pp → Outlives img m dirs d (vpn va) pp) :
    (∃ m', pageMap d va pp perm m = .ok (0, m') ∧
      Remap img dirs d (vpn va) (some (touchPte pp perm)) m m' ∧
      m.freePageList.length ≤ m'.freePageList.length + 2) ∨
    (∃ m', pageMap d va pp perm m = .ok (-E_NO_MEM, m') ∧ Grow img dirs m m' ∧
      leafTable m d (vpn va) = none ∧ m.freePageList.length < 2) := by
  have htwo := missing_le (hasTable m d) (vpn va)
  obtain ⟨m', hm, hr, hl, -⟩ | ⟨m', hm, hg, ht, hl⟩ := h.pageMap_exact hd va hp hperm hout
  · exact .inl ⟨m', hm, hr, by omega⟩
  · exact .inr ⟨m', hm, hg, ht, Nat.lt_of_lt_of_le hl htwo⟩

end Spec

end Exaros
