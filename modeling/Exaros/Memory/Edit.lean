import Exaros.Memory.Forest

/-!
# Edits of the forest

The memory functions edit the forest in five ways only: a leaf slot is cleared, filled or rewritten
in place, a data page changes its contents, and an empty interior slot is linked to a fresh table.
Each is shown here to keep `MemInv`, with its effect on `view`. The first four move no table
(`SameTables`), and there the counts are kept by one conservation law: `ref` minus the leaf
references of a page does not move.
-/

namespace Exaros

/-- The two memories agree on every table of the forest. -/
def SameTables (m m' : Mem) (dirs : Finset Ppn) : Prop :=
  ∀ d ∈ dirs, ∀ p : List Idx, p.length ≤ 2 → tableAt m' d p = tableAt m d p

section Shape

variable {img : Image} {m m' : Mem} {dirs : Finset Ppn} {d d' t : Ppn} {v v' : Vpn} {e : Pte}

theorem SameTables.isTable (h : SameTables m m' dirs) (t : Ppn) : IsTable m' dirs t ↔ IsTable m dirs t :=
  Radix.isNode_congr decodePte (fun r hr p hp => h r hr p hp) t

theorem SameTables.leafTable (h : SameTables m m' dirs) (hd : d ∈ dirs) (v : Vpn) :
    leafTable m' d v = leafTable m d v := h d hd _ (by simp)

theorem SameTables.tableRefs (h : SameTables m m' dirs) (p : Ppn) :
    tableRefs m' dirs p = tableRefs m dirs p := tableRefs_congr (h.isTable p)

/-- The invariant survives a change that moves no table and keeps `ref` minus the leaf references. -/
theorem MemInv.of_sameTables (h : MemInv img m dirs) (ht : SameTables m m' dirs)
    (hleaf : ∀ d ∈ dirs, ∀ v e, view m' d v = some e →
      Managed (pte2Ppn e) ∧ ¬ IsTable m dirs (pte2Ppn e) ∧ Touched e)
    (hnodup : m'.freePageList.Nodup)
    (hfree : ∀ p ∈ m'.freePageList, img.Above p ∧ ¬ IsTable m dirs p ∧ leafRefs m' dirs p = 0)
    (href : ∀ p, Managed p →
      (m'.ref p).toNat + leafRefs m dirs p = (m.ref p).toNat + leafRefs m' dirs p) :
    MemInv img m' dirs where
  kernelDir := h.kernelDir
  roots := h.roots
  sep := h.sep.congr decodePte fun r hr p hp => ht r hr p hp
  tables := fun d hd p t hp hl hn => h.tables d hd p t hp hl (ht d hd p hl ▸ hn)
  leaf := fun d hd v e hv => by
    obtain ⟨h1, h2, h3⟩ := hleaf d hd v e hv
    exact ⟨h1, mt (ht.isTable _).mp h2, h3⟩
  free_nodup := hnodup
  free := fun p hp => by
    obtain ⟨h1, h2, h3⟩ := hfree p hp
    exact ⟨h1, mt (ht.isTable _).mp h2, h3⟩
  ref_above := fun p hp => by
    have h1 := h.ref_above p hp
    have h2 := href p hp.managed
    rw [ht.tableRefs]
    omega
  ref_kernel := fun p hp => by
    have h1 := h.ref_kernel p hp
    have h2 := href p hp.managed
    omega

/-- Views that agree give equal counts. -/
theorem leafRefs_congr (h : ∀ d ∈ dirs, ∀ v, view m' d v = view m d v) (p : Ppn) :
    leafRefs m' dirs p = leafRefs m dirs p := by
  refine Count.fiber_congr (fun x hx => ?_) (some p)
  unfold target
  rw [h x.1 (mem_leafSlots.mp hx) x.2]

/-- Changing the view at one place moves one count down and one up. -/
theorem leafRefs_change (hd : d ∈ dirs) (v : Vpn)
    (h : ∀ d' ∈ dirs, ∀ v', ¬ (d' = d ∧ v' = v) → view m' d' v' = view m d' v') (p : Ppn) :
    leafRefs m' dirs p + (if target m (d, v) = some p then 1 else 0) =
      leafRefs m dirs p + if target m' (d, v) = some p then 1 else 0 := by
  refine Count.fiber_change (mem_leafSlots (x := (d, v)).mpr hd) (fun x hx hne => ?_) (some p)
  unfold target
  rw [h x.1 (mem_leafSlots.mp hx) x.2 fun hx => hne (Prod.ext hx.1 hx.2)]

theorem ram_write_off (m : Mem) (s : Slot) (e : Pte) {p : Ppn} (hp : p ≠ s.1) :
    (m.write s e).ram p = m.ram p := by
  funext i
  simp [Mem.write, hp]

@[simp] theorem read_write (m : Mem) (s : Slot) (e : Pte) : (m.write s e).read s = e := by
  simp [Mem.write, Mem.read]

/-- Writing a leaf slot moves no table. -/
theorem sameTables_write (h : MemInv img m dirs) (hd : d ∈ dirs) (ht : leafTable m d v = some t) (i : Idx)
    (e : Pte) : SameTables m (m.write (t, i) e) dirs := fun _ hd' _ hp =>
  Radix.node_frame decodePte (fun _ hu => ram_write_off m (t, i) e hu)
    (h.sep.not_interior decodePte hd rfl ht) hd' hp

/-- Writing a leaf slot changes that entry of the view and no other. -/
theorem view_write (h : MemInv img m dirs) (hd : d ∈ dirs) (ht : leafTable m d v = some t) (e : Pte)
    (hd' : d' ∈ dirs) (v' : Vpn) :
    view (m.write (t, v.2.2) e) d' v' =
      if d' = d ∧ v' = v then (if pteValid e then some e else none) else view m d' v' := by
  have hram : (m.write (t, v.2.2) e).ram = fun p j => if p = t ∧ j = v.2.2 then e else m.ram p j := rfl
  have hw := Radix.entry_write decodePte h.sep hd (rfl : [v.1, v.2.1].length = 2) ht hram
    hd' (rfl : [v'.1, v'.2.1].length = 2) v'.2.2
  have hiff : (d' = d ∧ [v'.1, v'.2.1] = [v.1, v.2.1] ∧ v'.2.2 = v.2.2) ↔ (d' = d ∧ v' = v) := by
    simp [Prod.ext_iff, and_assoc]
  rw [decodePte_isSome] at hw
  simp only [hiff] at hw
  exact hw

/-- Filling a page that is no table moves no table. -/
theorem sameTables_fill {p : Ppn} (hp : ¬ IsTable m dirs p) (hoff : ∀ q, q ≠ p → m'.ram q = m.ram q) :
    SameTables m m' dirs := fun _ hd _ hl =>
  Radix.node_frame decodePte hoff (Radix.not_interior_of_not_isNode decodePte hp) hd hl

theorem view_fill {p : Ppn} (hp : ¬ IsTable m dirs p) (hoff : ∀ q, q ≠ p → m'.ram q = m.ram q)
    (hd : d ∈ dirs) (v : Vpn) : view m' d v = view m d v :=
  Radix.entry_frame decodePte hoff hp hd (by simp : [v.1, v.2.1].length ≤ 2) v.2.2

end Shape

section Leaf

variable {img : Image} {m : Mem} {dirs : Finset Ppn} {d p t : Ppn} {v : Vpn} {e : Pte}

theorem toNat_add_one {x : BitVec 32} (h : x.toNat ≤ 2 ^ 26 + 1) : (x + 1).toNat = x.toNat + 1 := by
  bv_omega

theorem toNat_sub_one {x : BitVec 32} (h : 0 < x.toNat) : (x - 1).toNat = x.toNat - 1 := by
  bv_omega

/-- The count of a mapped page is positive. -/
theorem MemInv.ref_pos (h : MemInv img m dirs) (hd : d ∈ dirs) (hv : view m d v = some e) :
    0 < (m.ref (pte2Ppn e)).toNat := by
  have hl := leafRefs_pos hd hv
  rcases img.kernel_or_above (h.leaf d hd v e hv).1 with hk | ha
  · rw [h.ref_kernel _ hk]; omega
  · rw [h.ref_above _ ha]; omega

/-- **Clear.** Dropping a leaf entry and its reference, freeing the page if that was the last one. -/
theorem MemInv.clear (h : MemInv img m dirs) (hd : d ∈ dirs) (ht : leafTable m d v = some t) (hv : view m d v = some e) :
    MemInv img ((pageFree (pte2Ppn e) (m.decRef (pte2Ppn e))).2.write (t, v.2.2) 0) dirs := by
  set p := pte2Ppn e with hp
  set m' := (pageFree p (m.decRef p)).2.write (t, v.2.2) 0 with hm'
  have hram : m'.ram = (m.write (t, v.2.2) 0).ram := by
    rw [hm']; unfold Mem.write; simp [Mem.decRef]
  have hview : ∀ d' ∈ dirs, ∀ v', view m' d' v' = if d' = d ∧ v' = v then none else view m d' v' := by
    intro d' hd' v'
    have := view_write h hd ht 0 hd' v'
    unfold view at this ⊢
    rw [hram, this]
    rfl
  have hst : SameTables m m' dirs := by
    have := sameTables_write h hd ht v.2.2 0
    unfold SameTables tableAt at this ⊢
    rwa [hram]
  have htarget : target m (d, v) = some p := target_eq_some_iff.mpr ⟨e, hv, rfl⟩
  have htarget' : target m' (d, v) = none := by
    unfold target
    rw [hview d hd v]
    simp
  have hcount : ∀ q, leafRefs m' dirs q + (if p = q then 1 else 0) = leafRefs m dirs q := by
    intro q
    have := leafRefs_change (m := m) hd v (fun d' hd' v' hne => (hview d' hd' v').trans (if_neg hne)) q
    rw [htarget, htarget'] at this
    simpa using this
  have hrefm : m'.ref = (m.decRef p).ref := by rw [hm']; simp [Mem.write]
  have hpos : 0 < (m.ref p).toNat := h.ref_pos hd hv
  have hrefp : (m'.ref p).toNat = (m.ref p).toNat - 1 := by
    rw [hrefm]
    simp only [Mem.decRef, if_true]
    exact toNat_sub_one hpos
  have hrefq : ∀ q, q ≠ p → m'.ref q = m.ref q := fun q hq => by
    rw [hrefm]; simp [Mem.decRef, hq]
  have href : ∀ q, Managed q →
      (m'.ref q).toNat + leafRefs m dirs q = (m.ref q).toNat + leafRefs m' dirs q := by
    intro q _
    have hc := hcount q
    by_cases hq : q = p
    · subst hq
      rw [if_pos rfl] at hc
      omega
    · rw [if_neg (Ne.symm hq)] at hc
      rw [hrefq q hq]
      omega
  obtain ⟨hman, hnt, -⟩ := h.leaf d hd v e hv
  have hlist : m'.freePageList = m.freePageList ∨
      (m'.freePageList = p :: m.freePageList ∧ m'.ref p = 0) := by
    rw [hrefm]
    simp only [hm', Mem.write, pageFree]
    split
    · rename_i h0
      exact .inr ⟨rfl, h0⟩
    · exact .inl rfl
  have hold : ∀ q ∈ m.freePageList, img.Above q ∧ ¬ IsTable m dirs q ∧ leafRefs m' dirs q = 0 := by
    intro q hq
    obtain ⟨h1, h2, h3⟩ := h.free q hq
    have := hcount q
    exact ⟨h1, h2, by omega⟩
  refine h.of_sameTables hst ?_ ?_ ?_ href
  · intro d' hd' v' e' hv'
    rw [hview d' hd' v'] at hv'
    split at hv'
    · cases hv'
    · exact h.leaf d' hd' v' e' hv'
  · rcases hlist with hl | ⟨hl, -⟩
    · rw [hl]; exact h.free_nodup
    · rw [hl]; exact List.nodup_cons.mpr ⟨h.not_free_of_view hd hv, h.free_nodup⟩
  · rcases hlist with hl | ⟨hl, h0⟩
    · rw [hl]; exact hold
    · rw [hl]
      intro q hq
      rcases List.mem_cons.mp hq with rfl | hq
      · have hc := hcount p
        have hr := href p hman
        rw [h0] at hr
        rcases img.kernel_or_above hman with hk | ha
        · -- a page of the image keeps the reference `freePageInit` gave it
          have hk' := h.ref_kernel p hk
          simp at hc hr
          omega
        · have ha' := h.ref_above p ha
          rw [tableRefs_of_not hnt] at ha'
          simp at hc hr
          exact ⟨ha, hnt, by omega⟩
      · exact hold q hq

/-- **Fill.** Entering a usable page in an empty leaf slot, with a reference. -/
theorem MemInv.fill (h : MemInv img m dirs) (hd : d ∈ dirs) (ht : leafTable m d v = some t)
    (hv : view m d v = none) (hp : Usable m dirs (pte2Ppn e)) (he : pteValid e = true) (htouch : Touched e) :
    MemInv img ((m.write (t, v.2.2) e).incRef (pte2Ppn e)) dirs := by
  set p := pte2Ppn e with hpe
  set m' := (m.write (t, v.2.2) e).incRef p with hm'
  have hview : ∀ d' ∈ dirs, ∀ v', view m' d' v' = if d' = d ∧ v' = v then some e else view m d' v' := by
    intro d' hd' v'
    have := view_write h hd ht e hd' v'
    rwa [if_pos he] at this
  have hst : SameTables m m' dirs := sameTables_write h hd ht v.2.2 e
  obtain ⟨hman, hnf, hnt⟩ := hp
  have htarget : target m (d, v) = none := by simp [target, hv]
  have htarget' : target m' (d, v) = some p := target_eq_some_iff.mpr ⟨e, by rw [hview d hd v]; simp, rfl⟩
  have hcount : ∀ q, leafRefs m' dirs q = leafRefs m dirs q + if p = q then 1 else 0 := by
    intro q
    have := leafRefs_change (m := m) hd v (fun d' hd' v' hne => (hview d' hd' v').trans (if_neg hne)) q
    rw [htarget, htarget'] at this
    simpa using this
  have hle := h.ref_le hman
  refine h.of_sameTables hst ?_ h.free_nodup ?_ ?_
  · intro d' hd' v' e' hv'
    rw [hview d' hd' v'] at hv'
    split at hv'
    · cases hv'
      exact ⟨hman, hnt, htouch⟩
    · exact h.leaf d' hd' v' e' hv'
  · intro q hq
    obtain ⟨h1, h2, h3⟩ := h.free q hq
    have hqp : p ≠ q := fun hqp => hnf (hqp ▸ hq)
    refine ⟨h1, h2, ?_⟩
    rw [hcount q, if_neg hqp, h3]
  · intro q _
    rw [hcount q]
    by_cases hq : q = p
    · subst hq
      have hrefp : (m'.ref p).toNat = (m.ref p).toNat + 1 := by
        simp only [hm', Mem.incRef, Mem.write, if_true]
        exact toNat_add_one hle
      rw [if_pos rfl]
      omega
    · have hrefq : m'.ref q = m.ref q := by simp [hm', Mem.incRef, Mem.write, hq]
      rw [if_neg (Ne.symm hq), hrefq]
      omega

/-- **Rewrite.** Editing the flags of a leaf entry in place. -/
theorem MemInv.rewrite (h : MemInv img m dirs) (hd : d ∈ dirs) (ht : leafTable m d v = some t) {e' : Pte}
    (hv : view m d v = some e) (hpe : pte2Ppn e' = pte2Ppn e) (he : pteValid e' = true)
    (htouch : Touched e') : MemInv img (m.write (t, v.2.2) e') dirs := by
  set m' := m.write (t, v.2.2) e' with hm'
  have hview : ∀ d' ∈ dirs, ∀ v', view m' d' v' = if d' = d ∧ v' = v then some e' else view m d' v' := by
    intro d' hd' v'
    have := view_write h hd ht e' hd' v'
    rwa [if_pos he] at this
  have htarget : target m' (d, v) = target m (d, v) := by
    unfold target
    rw [hview d hd v, hv, if_pos ⟨rfl, rfl⟩, Option.map_some, Option.map_some, hpe]
  have hcount : ∀ q, leafRefs m' dirs q = leafRefs m dirs q := by
    intro q
    have := leafRefs_change (m := m) hd v (fun d' hd' v' hne => (hview d' hd' v').trans (if_neg hne)) q
    rw [htarget] at this
    omega
  obtain ⟨hman, hnt, -⟩ := h.leaf d hd v e hv
  refine h.of_sameTables (sameTables_write h hd ht v.2.2 e') ?_ h.free_nodup ?_ ?_
  · intro d' hd' v' e'' hv'
    rw [hview d' hd' v'] at hv'
    split at hv'
    · cases hv'
      exact ⟨hpe ▸ hman, hpe ▸ hnt, htouch⟩
    · exact h.leaf d' hd' v' e'' hv'
  · intro q hq
    rw [hcount q]
    exact h.free q hq
  · intro q _
    rw [hcount q]
    rfl

/-- **Data.** Changing a page that is no table, or taking pages off the free list. -/
theorem MemInv.data {m' : Mem} (h : MemInv img m dirs) (hp : ¬ IsTable m dirs p)
    (hoff : ∀ q, q ≠ p → m'.ram q = m.ram q) (href : m'.ref = m.ref)
    (hfree : m'.freePageList.Sublist m.freePageList) : MemInv img m' dirs := by
  have hview : ∀ d ∈ dirs, ∀ v, view m' d v = view m d v := fun d hd v => view_fill hp hoff hd v
  refine h.of_sameTables (sameTables_fill hp hoff) ?_ (hfree.nodup h.free_nodup) ?_ ?_
  · intro d hd v e hv
    exact h.leaf d hd v e (hview d hd v ▸ hv)
  · intro q hq
    rw [leafRefs_congr hview]
    exact h.free q (hfree.subset hq)
  · intro q _
    rw [leafRefs_congr hview, href]

end Leaf

end Exaros
