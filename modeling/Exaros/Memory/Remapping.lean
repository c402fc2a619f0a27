import Exaros.Memory.Release

/-!
# Mapping over an old entry

`pageMap` drops what was mapped before it counts the new page. When that is one page, and this entry its
only reference, the page passes through count zero and is left on the free list while it is mapped.
-/

namespace Exaros

/-- The accounting of a mapping: `v` maps `pa`, which is on no list and has gained a reference if `v` did not map
it, and a page that has made way has lost one. -/
structure Remapped (m m' : Mem) (d : Ppn) (v : Vpn) (pa : Ppn) : Prop where
  maps : target m' (d, v) = some pa
  not_free : pa ∉ m'.freePageList
  ref : (m'.ref pa).toNat = (m.ref pa).toNat + if target m (d, v) = some pa then 0 else 1
  old : ∀ p, target m (d, v) = some p → p ≠ pa →
    (m'.ref p).toNat + 1 = (m.ref p).toNat ∧ (p ∈ m'.freePageList ↔ m.ref p = 1)

section Remapping

variable {img : Image} {dirs : Finset Ppn} {m m₁ m' : Mem} {d pa t : Ppn} {va : Nat} {e perm : Pte}

/-- What a lookup that returns shows of a mapped address. -/
theorem pageLookup_ok {r : Option (Ppn × Slot)} (hv : view m d (vpn va) = some e) (hrun : pageLookup d va m = .ok r) :
    ∃ s, r = some (pte2Ppn e, s) := by
  obtain ⟨t, ht, hvalid, hread⟩ := view_eq_some_iff.mp hv
  have hvalid' : pteValid (m.read (t, vaPpn va 0)) = true := hvalid
  have hread' : m.read (t, vaPpn va 0) = e := hread
  unfold pageLookup at hrun
  rw [pageWalk_false, ht] at hrun
  simp only [Option.map_some, hread', if_pos (hread' ▸ hvalid')] at hrun
  obtain ⟨page, hpage, hrun⟩ := Loop.bind_ok hrun
  cases hrun
  unfold pte2Page at hpage
  split at hpage
  · cases hpage
  · cases hpage
    exact ⟨_, rfl⟩

/-- The last part of `pageMap`: whatever page the entry shows is counted. -/
theorem pageMap_of_kernelPageMap {r : Int} (h : MemInv img m₁ dirs) (hd : d ∈ dirs) (ht : leafTable m₁ d (vpn va) = some t)
    (hk : kernelPageMap d va pa perm m = .ok (0, m₁.write (t, vaPpn va 0) (touchPte pa perm)))
    (hrun : pageMap d va pa perm m = .ok (r, m')) :
    m' = (m₁.write (t, vaPpn va 0) (touchPte pa perm)).incRef (pte2Ppn (touchPte pa perm)) := by
  have hview := view_write h hd ht (touchPte pa perm) hd (vpn va)
  rw [if_pos ⟨rfl, rfl⟩, if_pos (show pteValid (touchPte pa perm) = true from pteValid_mkPte _ _)] at hview
  unfold Exaros.pageMap at hrun
  rw [hk, Loop.ok_bind] at hrun
  dsimp only at hrun
  rw [if_neg fun hne => hne rfl] at hrun
  obtain ⟨found, hlookup, hrun⟩ := Loop.bind_ok hrun
  obtain ⟨s, rfl⟩ := pageLookup_ok hview hlookup
  cases hrun
  rfl

/-- The memory in which `pageMap` writes the entry: only tables have been added, or the old entry is gone. -/
theorem pageMap_ok (h : MemInv img m dirs) (hd : d ∈ dirs) (hrun : pageMap d va pa perm m = .ok (0, m')) :
    ∃ m₁ t, MemInv img m₁ dirs ∧ leafTable m₁ d (vpn va) = some t ∧
      m' = (m₁.write (t, vaPpn va 0) (touchPte pa perm)).incRef (pte2Ppn (touchPte pa perm)) ∧
      (view m d (vpn va) = none → Grow img dirs m m₁) ∧
      ∀ e, view m d (vpn va) = some e → m₁.ref = (m.decRef (pte2Ppn e)).ref ∧
        m₁.freePageList = (pageFree (pte2Ppn e) (m.decRef (pte2Ppn e))).2.freePageList := by
  cases hv : view m d (vpn va) with
  | none =>
    have hk := kernelPageMap_absent pa perm hv
    unfold kernelPageMapNew at hk
    rcases pageWalk_exact h hd va with ⟨t, m₁, hw, g, ht, -, -⟩ | ⟨m₁, hw, -, -, -, -⟩
    · rw [hw] at hk
      exact ⟨m₁, t, g.inv, ht, pageMap_of_kernelPageMap g.inv hd ht hk hrun, fun _ => g, fun e he => by cases he⟩
    · rw [hw] at hk
      unfold Exaros.pageMap at hrun
      rw [hk] at hrun
      cases hrun
  | some e =>
    obtain ⟨t, ht, -, hl⟩ := h.pageLookup_some hd hv
    have hr := remap_clear h hd ht hv
    have hrem : pageRemove d va m = .ok (0, (pageFree (pte2Ppn e) (m.decRef (pte2Ppn e))).2.write (t, (vpn va).2.2) 0) := by
      unfold pageRemove
      rw [hl]
      rfl
    have hk : kernelPageMap d va pa perm m = .ok (0, ((pageFree (pte2Ppn e) (m.decRef (pte2Ppn e))).2.write
        (t, (vpn va).2.2) 0).write (t, vaPpn va 0) (touchPte pa perm)) := by
      rw [kernelPageMap_present hv, hrem]
      exact congrArg Except.ok (kernelPageMapNew_of_leafTable (hr.leafTable hd ht))
    have heq := pageMap_of_kernelPageMap hr.inv hd (hr.leafTable hd ht) hk hrun
    refine ⟨_, t, hr.inv, hr.leafTable hd ht, heq, fun hnone => (by cases hnone), fun e' he => ?_⟩
    · cases he
      exact ⟨ref_pageFree .., rfl⟩

/-- What `pageRemove` leaves on the free list. -/
theorem mem_pageFree_decRef {p : Ppn} (hpos : 0 < (m.ref p).toNat) (hp : p ∉ m.freePageList) :
    p ∈ (pageFree p (m.decRef p)).2.freePageList ↔ m.ref p = 1 := by
  have hone : m.ref p - 1 = 0 ↔ m.ref p = 1 := by
    constructor <;> intro h <;> bv_omega
  unfold pageFree
  rw [ref_decRef_self]
  by_cases h : m.ref p = 1
  · rw [if_pos (hone.mpr h)]
    exact iff_of_true List.mem_cons_self h
  · rw [if_neg fun hz => h (hone.mp hz)]
    exact iff_of_false hp h

theorem mem_pageFree_of_ne {p q : Ppn} (hne : q ≠ p) :
    q ∈ (pageFree p (m.decRef p)).2.freePageList ↔ q ∈ m.freePageList := by
  unfold pageFree
  split
  · exact List.mem_cons.trans (or_iff_right hne)
  · exact Iff.rfl

theorem ref_incRef_self (m : Mem) (p : Ppn) : (m.incRef p).ref p = m.ref p + 1 := if_pos rfl

theorem ref_write (m : Mem) (s : Slot) (x : Pte) (p : Ppn) : (m.write s x).ref p = m.ref p := rfl

theorem ref_incRef_of_ne (m : Mem) {p q : Ppn} (h : q ≠ p) : (m.incRef p).ref q = m.ref q := if_neg h

/-- The page mapped already is left on the free list just when this entry was its only reference. -/
theorem pageMap_same (h : MemInv img m dirs) (hd : d ∈ dirs) (hv : view m d (vpn va) = some e)
    (hrun : pageMap d va (pte2Ppn e) perm m = .ok (0, m')) :
    pte2Ppn e ∈ m'.freePageList ↔ m.ref (pte2Ppn e) = 1 := by
  obtain ⟨m₁, t, -, -, rfl, -, hsome⟩ := pageMap_ok h hd hrun
  have hpos := h.ref_pos hd hv
  show pte2Ppn e ∈ m₁.freePageList ↔ _
  rw [(hsome e hv).2]
  refine mem_pageFree_decRef hpos fun hf => ?_
  rw [h.ref_of_free hf] at hpos
  cases hpos

/-- `pageMap` keeps the accounts, whatever `va` mapped before, just when `perm` leaves the number of the page alone and
`pa` is not what `va` maps already with its only reference. -/
theorem pageMap_remaps (h : MemInv img m dirs) (hd : d ∈ dirs) (hpa : Managed pa) (href : m.ref pa ≠ 0)
    (hrun : pageMap d va pa perm m = .ok (0, m')) :
    Remapped m m' d (vpn va) pa ↔
      pte2Ppn (touchPte pa perm) = pa ∧ ¬ (target m (d, vpn va) = some pa ∧ m.ref pa = 1) := by
  obtain ⟨m₁, t, hinv, ht, hm', hnone, hsome⟩ := pageMap_ok h hd hrun
  generalize hq : pte2Ppn (touchPte pa perm) = q at *
  have hmaps : target m' (d, vpn va) = some q := by
    subst hm'
    have hview := view_write hinv hd ht (touchPte pa perm) hd (vpn va)
    rw [if_pos ⟨rfl, rfl⟩, if_pos (show pteValid (touchPte pa perm) = true from pteValid_mkPte _ _)] at hview
    exact target_eq_some_iff.mpr ⟨_, hview, hq⟩
  by_cases hqpa : q = pa
  swap
  · refine ⟨fun hr => (hqpa (Option.some.inj (hmaps.symm.trans hr.maps))).elim, fun hc => (hqpa hc.1).elim⟩
  subst hqpa
  have hnf : q ∉ m.freePageList := fun hf => href (h.ref_of_free hf)
  have hle := h.ref_le hpa
  cases hv : view m d (vpn va) with
  | none =>
    subst hm'
    have htarget : target m (d, vpn va) = none := by rw [target, hv, Option.map_none]
    have g := hnone hv
    refine iff_of_true ⟨hmaps, fun hf => hnf (g.free.subset hf), ?_, fun p hp => ?_⟩ ⟨rfl, fun hc => ?_⟩
    · rw [htarget, if_neg (Option.some_ne_none _).symm, ref_incRef_self, ref_write, g.ref q hnf, toNat_add_one hle]
    · rw [htarget] at hp
      cases hp
    · rw [htarget] at hc
      cases hc.1
  | some e =>
    have htarget : target m (d, vpn va) = some (pte2Ppn e) := by rw [target, hv, Option.map_some]
    obtain ⟨hrefs, hfree⟩ := hsome e hv
    have hpos := h.ref_pos hd hv
    have hold : pte2Ppn e ∉ m.freePageList := fun hf => by
      rw [h.ref_of_free hf] at hpos
      cases hpos
    rw [htarget]
    by_cases hsame : pte2Ppn e = q
    · -- the page is dropped and counted again
      subst hsame
      have hmem := pageMap_same h hd hv hrun
      subst hm'
      constructor
      · intro hr
        exact ⟨rfl, fun hc => hr.not_free (hmem.mpr hc.2)⟩
      · intro hc
        refine ⟨hmaps, fun hf => hc.2 ⟨rfl, hmem.mp hf⟩, ?_, fun p hp hne => ?_⟩
        · rw [htarget, if_pos rfl, ref_incRef_self, ref_write, hrefs, ref_decRef_self, sub_add_cancel, Nat.add_zero]
        · exact (hne (Option.some.inj (htarget.symm.trans hp)).symm).elim
    · subst hm'
      refine iff_of_true ⟨hmaps, fun hf => ?_, ?_, fun p hp hne => ?_⟩ ⟨rfl, fun hc => hsame (Option.some.inj hc.1)⟩
      · have hf : q ∈ m₁.freePageList := hf
        rw [hfree, mem_pageFree_of_ne (Ne.symm hsame)] at hf
        exact hnf hf
      · rw [htarget, if_neg fun hc => hsame (Option.some.inj hc), ref_incRef_self, ref_write, hrefs,
          ref_decRef_of_ne m (Ne.symm hsame), toNat_add_one hle]
      · obtain rfl := Option.some.inj (htarget.symm.trans hp)
        constructor
        · rw [ref_incRef_of_ne _ hne, ref_write, hrefs, ref_decRef_self, toNat_sub_one hpos]
          omega
        · show pte2Ppn e ∈ m₁.freePageList ↔ _
          rw [hfree]
          exact mem_pageFree_decRef hpos hold

/-- A present entry leaves no table to find. -/
theorem pageMap_present (h : MemInv img m dirs) (hd : d ∈ dirs) (hv : view m d (vpn va) = some e) (hpa : Managed pa)
    (hperm : PermOk perm) : ∃ m', pageMap d va pa perm m = .ok (0, m') := by
  obtain ⟨t, ht, -⟩ := leafTable_of_view hv
  obtain ⟨m₁, hrem, hr, -⟩ := h.pageRemove_some hd hv
  have ht₁ := hr.leafTable hd ht
  have hk : kernelPageMap d va pa perm m = .ok (0, m₁.write (t, vaPpn va 0) (touchPte pa perm)) := by
    rw [kernelPageMap_present hv, hrem]
    exact congrArg Except.ok (kernelPageMapNew_of_leafTable ht₁)
  exact ⟨_, pageMap_of_ok hr.inv hd ht₁ hpa hperm hk⟩

/-- A page that was free and has one entry has one reference. -/
theorem Change.ref_eq_one {v : Vpn} (c : Change img dirs d v (some e) m m') (h : MemInv img m dirs) (hd : d ∈ dirs)
    (hv : Exaros.view m d v = none) (hf : pte2Ppn e ∈ m.freePageList) : m'.ref (pte2Ppn e) = 1 := by
  obtain ⟨ha, -, hz⟩ := h.free _ hf
  have hself : Exaros.view m' d v = some e := c.view_self hd
  have hleaf := leafRefs_change hd v (fun d' hd' v' hne => (c.view d' hd' v').trans (if_neg hne)) (pte2Ppn e)
  have htarget : target m (d, v) = none := by rw [target, hv, Option.map_none]
  have htarget' : target m' (d, v) = some (pte2Ppn e) := by rw [target, hself, Option.map_some]
  rw [htarget, htarget', if_neg (Option.some_ne_none _).symm, if_pos rfl, hz] at hleaf
  have href := c.inv.ref_above _ ha
  rw [tableRefs_of_not (c.inv.leaf d hd v e hself).2.1] at href
  refine BitVec.eq_of_toNat_eq ?_
  show _ = 1
  omega

end Remapping

/-- A directory that maps one page, at `0x1000`, and nothing else. -/
theorem exists_onePage : ∃ dirs d m y e, MemInv Image.sample m dirs ∧ d ∈ dirs ∧ 90 ≤ m.freePageList.length ∧
    view m d (vpn 0x1000) = some e ∧ pte2Ppn e = y ∧ m.ref y = 1 ∧ ∀ v, v ≠ vpn 0x1000 → view m d v = none := by
  obtain ⟨dirs, d, m, hinv, hd, -, hlen, hempty⟩ := exists_emptyProcess
  obtain ⟨y, rest, hf⟩ := List.exists_cons_of_length_pos (Nat.lt_of_lt_of_le (by decide : 0 < 100) hlen)
  have hperm : PermOk (PTE_READ_BIT ||| PTE_WRITE_BIT) := by decide
  rcases hinv.insertFresh hd 0x1000 (pageAlloc_cons hf) (fun _ => 0) hperm with ⟨m', -, hfill, hl⟩ | ⟨m', -, -, -, hlt⟩
  · refine ⟨dirs, d, m', _, _, hfill.change.inv, hd, by omega, hfill.change.view_self hd, rfl, ?_, fun v hne => ?_⟩
    · exact hfill.change.ref_eq_one hinv hd (hempty _) hfill.mem
    · rw [hfill.change.view d hd v, if_neg fun hc => hne hc.2, hempty v]
  · omega

/-- A page with one reference, mapped at a second address. -/
theorem pageMap_remaps_second : ∃ dirs d y m m', MemInv Image.sample m dirs ∧ m.ref y = 1 ∧
    pageMap d 0x2000 y (PTE_READ_BIT ||| PTE_WRITE_BIT) m = .ok (0, m') ∧ Remapped m m' d (vpn 0x2000) y := by
  obtain ⟨dirs, d, m, y, e, hinv, hd, hlen, hv, rfl, hone, hrest⟩ := exists_onePage
  have hperm : PermOk (PTE_READ_BIT ||| PTE_WRITE_BIT) := by decide
  obtain ⟨hmanaged, hnt, -⟩ := hinv.leaf d hd _ e hv
  have hne : m.ref (pte2Ppn e) ≠ 0 := by rw [hone]; decide
  have hnf : pte2Ppn e ∉ m.freePageList := fun hf => hne (hinv.ref_of_free hf)
  have htarget : target m (d, vpn 0x2000) = none := by rw [target, hrest (vpn 0x2000) (by decide : vpn 0x2000 ≠ vpn 0x1000), Option.map_none]
  have hnone : ∀ {P : Prop}, target m (d, vpn 0x2000) = some (pte2Ppn e) → P := fun hc => by
    rw [htarget] at hc
    cases hc
  rcases hinv.pageMap hd 0x2000 ⟨hmanaged, hnf, hnt⟩ hperm hnone with ⟨m', hrun, -⟩ | ⟨m', -, -, -, hlt⟩
  · exact ⟨dirs, d, _, m, m', hinv, hone, hrun, (pageMap_remaps hinv hd hmanaged hne hrun).mpr
      ⟨pte2Ppn_touchPte hmanaged hperm, fun hc => hnone hc.1⟩⟩
  · omega

/-- Mapped again where it is mapped, with one reference, a page ends up mapped, counted once and on the free list. -/
theorem pageMap_frees_mapped : ¬ ∀ dirs d pa va perm m m', MemInv Image.sample m dirs → d ∈ dirs → va < VA_MAX → Managed pa →
    m.ref pa ≠ 0 → pte2Ppn (touchPte pa perm) = pa → pageMap d va pa perm m = .ok (0, m') → Remapped m m' d (vpn va) pa := by
  intro hall
  obtain ⟨dirs, d, m, y, e, hinv, hd, -, hv, rfl, hone, -⟩ := exists_onePage
  have hperm : PermOk (PTE_READ_BIT ||| PTE_WRITE_BIT) := by decide
  have hmanaged := (hinv.leaf d hd _ e hv).1
  have hne : m.ref (pte2Ppn e) ≠ 0 := by rw [hone]; decide
  obtain ⟨m', hrun⟩ := pageMap_present hinv hd hv hmanaged hperm
  have hr := hall dirs d _ 0x1000 _ m m' hinv hd (by decide) hmanaged hne (pte2Ppn_touchPte hmanaged hperm) hrun
  exact hr.not_free ((pageMap_same hinv hd hv hrun).mpr hone)

end Exaros
