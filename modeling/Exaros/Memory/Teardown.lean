import Exaros.Lib.Loop
import Exaros.Memory.Alloc
import Exaros.Memory.Space

/-!
# Tearing down a page directory

`pgdirFree` gives back every page of a directory: the references of its leaf entries, its tables and
the directory itself. It frees a table while the slot above still points at it, so the forest is not
well formed while it runs. The proof follows a shadow of the memory in which those slots read empty
(`blank`); the shadow keeps `MemInv` throughout, and the two agree again once the page that holds the
slots is free as well.
-/

namespace Exaros

/-! ## Dropping a table and a directory -/

section Drop

variable {img : Image} {dirs : Finset Ppn} {m : Mem} {d x y : Ppn} {p₀ : List Idx} {i : Idx}

/-- The memory after `y` has been unlinked from slot `s` and freed. -/
def unlinkTable (m : Mem) (y : Ppn) (s : Slot) : Mem := ((m.write s 0).decRef y).pushFree y

theorem MemInv.unlink_radix (hd : d ∈ dirs) (hp₀ : p₀.length < 2) (hx : tableAt m d p₀ = some x)
    (hy : decodePte (m.ram x i) = some y) (hz : ∀ j, decodePte (m.ram y j) = none) :
    Radix.Unlink decodePte m.ram (unlinkTable m y (x, i)).ram dirs 2 d p₀ i x y where
  root := hd
  depth := hp₀
  table := hx
  linked := hy
  zero := hz
  empty := by
    have h0 : (unlinkTable m y (x, i)).ram x i = 0 := by
      simp [unlinkTable, Mem.write, Mem.decRef, Mem.pushFree]
    rw [h0, decodePte_zero]
  row := fun j hj => by simp [unlinkTable, Mem.write, Mem.decRef, Mem.pushFree, hj]
  off := fun t ht => ram_write_off m (x, i) 0 ht

/-- A table is counted once, for being one. -/
theorem MemInv.ref_table (h : MemInv img m dirs) (ht : IsTable m dirs y) (ha : img.Above y) : m.ref y = 1 := by
  have hleaf : leafRefs m dirs y = 0 := leafRefs_eq_zero.mpr fun d hd v e hv hpe =>
    (h.leaf d hd v e hv).2.1 (hpe ▸ ht)
  have href := h.ref_above y ha
  rw [hleaf, tableRefs_of_isTable ht] at href
  exact BitVec.eq_of_toNat_eq href

/-- A table is not free. -/
theorem MemInv.not_free_of_isTable (h : MemInv img m dirs) (ht : IsTable m dirs y) : y ∉ m.freePageList :=
  fun hf => (h.free y hf).2.1 ht

theorem paDecreaseRef_one (hy : BASE_PPN ≤ y) (hr : m.ref y = 1) :
    paDecreaseRef y m = .ok ((m.decRef y).pushFree y) := by
  have h0 : (m.decRef y).ref y = 0 := by simp [Mem.decRef, hr]
  unfold paDecreaseRef
  rw [if_neg (Nat.not_lt.mpr hy), if_pos h0]

/-- **Unlink.** An empty table goes back to the free list. -/
theorem MemInv.unlink (h : MemInv img m dirs) (hd : d ∈ dirs) (hp₀ : p₀.length < 2)
    (hx : tableAt m d p₀ = some x) (hy : decodePte (m.ram x i) = some y)
    (hz : ∀ j, decodePte (m.ram y j) = none) : MemInv img (unlinkTable m y (x, i)) dirs := by
  have hl := MemInv.unlink_radix hd hp₀ hx hy hz
  have hty : tableAt m d (p₀ ++ [i]) = some y := hl.node_self decodePte
  have hyt : IsTable m dirs y := ⟨d, hd, p₀ ++ [i], by simp; omega, hty⟩
  have hya : img.Above y := h.tables d hd (p₀ ++ [i]) y (by simp) (by simp; omega) hty
  have hone := h.ref_table hyt hya
  have hynf := h.not_free_of_isTable hyt
  set m' := unlinkTable m y (x, i) with hm'
  have hview : ∀ d ∈ dirs, ∀ v, view m' d v = view m d v := fun d hd v =>
    hl.entry decodePte h.sep hd (rfl : [v.1, v.2.1].length = 2) v.2.2
  have htab : ∀ t, IsTable m' dirs t ↔ IsTable m dirs t ∧ t ≠ y := hl.isNode decodePte h.sep
  have href : ∀ p, p ≠ y → m'.ref p = m.ref p := fun p hp => by
    simp [hm', unlinkTable, Mem.write, Mem.decRef, Mem.pushFree, hp]
  have hrefy : m'.ref y = 0 := by
    simp [hm', unlinkTable, Mem.write, Mem.decRef, Mem.pushFree, hone]
  have hleafy : leafRefs m dirs y = 0 := leafRefs_eq_zero.mpr fun d hd v e hv hpe =>
    (h.leaf d hd v e hv).2.1 (hpe ▸ hyt)
  refine ⟨h.kernelDir, h.roots, hl.separated decodePte h.sep, ?_, ?_, ?_, ?_, ?_, ?_⟩
  · intro r hr p t hp hlen hn
    exact h.tables r hr p t hp hlen ((hl.node_eq_some decodePte h.sep hr hlen).mp hn).1
  · intro d' hd' v e hv
    rw [hview d' hd' v] at hv
    obtain ⟨h1, h2, h3⟩ := h.leaf d' hd' v e hv
    exact ⟨h1, fun ht => h2 ((htab _).mp ht).1, h3⟩
  · exact List.nodup_cons.mpr ⟨hynf, h.free_nodup⟩
  · intro p hp
    rw [leafRefs_congr hview]
    rcases List.mem_cons.mp hp with rfl | hp
    · exact ⟨hya, fun ht => ((htab p).mp ht).2 rfl, hleafy⟩
    · obtain ⟨h1, h2, h3⟩ := h.free p hp
      exact ⟨h1, fun ht => h2 ((htab p).mp ht).1, h3⟩
  · intro p hp
    rw [leafRefs_congr hview]
    by_cases hpy : p = y
    · subst hpy
      rw [hrefy, hleafy, tableRefs_of_not fun ht => ((htab p).mp ht).2 rfl]
      rfl
    · have hiff : IsTable m' dirs p ↔ IsTable m dirs p := by rw [htab]; simp [hpy]
      rw [href p hpy, h.ref_above p hp, tableRefs_congr hiff]
  · intro p hp
    have hpy : p ≠ y := by
      rintro rfl
      exact Image.not_above_of_kernel hp hya
    rw [leafRefs_congr hview, href p hpy]
    exact h.ref_kernel p hp

theorem view_unlinkTable (h : MemInv img m dirs) (hd : d ∈ dirs) (hp₀ : p₀.length < 2)
    (hx : tableAt m d p₀ = some x) (hy : decodePte (m.ram x i) = some y)
    (hz : ∀ j, decodePte (m.ram y j) = none) {d' : Ppn} (hd' : d' ∈ dirs) (v : Vpn) :
    view (unlinkTable m y (x, i)) d' v = view m d' v :=
  (MemInv.unlink_radix hd hp₀ hx hy hz).entry decodePte h.sep hd' (rfl : [v.1, v.2.1].length = 2) v.2.2

/-- Leaving out a directory without entries leaves out no reference. -/
theorem leafRefs_erase_empty (hz : ∀ v, view m d v = none) (p : Ppn) :
    leafRefs m (dirs.erase d) p = leafRefs m dirs p := by
  refine (Count.fiber_subset ?_ ?_).symm
  · intro x hx
    exact mem_leafSlots.mpr (Finset.mem_of_mem_erase (mem_leafSlots.mp hx))
  · intro x hx hn
    have hxd : x.1 = d := by
      by_contra hne
      exact hn (mem_leafSlots.mpr (Finset.mem_erase.mpr ⟨hne, mem_leafSlots.mp hx⟩))
    unfold target
    rw [hxd, hz x.2]
    simp

/-- **Drop.** An empty directory goes back to the free list. -/
theorem MemInv.dropDir (h : MemInv img m dirs) (hd : d ∈ dirs) (hk : d ≠ img.kernelPageDirectory)
    (hz : ∀ i, decodePte (m.ram d i) = none) :
    MemInv img ((m.decRef d).pushFree d) (dirs.erase d) := by
  have hroot : ∀ path u, tableAt m d path = some u → path = [] ∧ u = d := by
    intro path u hu
    cases path with
    | nil => exact ⟨rfl, (Option.some.inj hu).symm⟩
    | cons j js =>
      unfold tableAt at hu
      rw [Radix.node_cons, hz j, Option.bind_none] at hu
      cases hu
  have hempty : ∀ v, view m d v = none := by
    intro v
    cases hv : view m d v with
    | none => rfl
    | some e =>
      obtain ⟨t, ht, -⟩ := leafTable_of_view hv
      exact absurd (hroot _ t ht).1 (by simp)
  have hdt : IsTable m dirs d := isTable_root hd
  have hda : img.Above d := (h.roots d hd).resolve_left hk
  have hone := h.ref_table hdt hda
  have htab : ∀ t, IsTable m (dirs.erase d) t ↔ IsTable m dirs t ∧ t ≠ d := by
    intro t
    constructor
    · rintro ⟨r, hr, p, hp, hn⟩
      obtain ⟨hrd, hr'⟩ := Finset.mem_erase.mp hr
      refine ⟨⟨r, hr', p, hp, hn⟩, ?_⟩
      intro htd
      exact hrd (h.sep r hr' d hd p [] hp (by simp) t hn (congrArg some htd.symm)).1
    · rintro ⟨⟨r, hr, p, hp, hn⟩, hne⟩
      refine ⟨r, Finset.mem_erase.mpr ⟨?_, hr⟩, p, hp, hn⟩
      rintro rfl
      exact hne (hroot p t hn).2
  have hrefs : ∀ p, leafRefs m (dirs.erase d) p = leafRefs m dirs p := leafRefs_erase_empty hempty
  have hleafd : leafRefs m dirs d = 0 := leafRefs_eq_zero.mpr fun d' hd' v e hv hpe =>
    (h.leaf d' hd' v e hv).2.1 (hpe ▸ hdt)
  set m' := (m.decRef d).pushFree d with hm'
  have hsame : ∀ p, leafRefs m' (dirs.erase d) p = leafRefs m dirs p := hrefs
  have htab' : ∀ t, IsTable m' (dirs.erase d) t ↔ IsTable m dirs t ∧ t ≠ d := htab
  have href : ∀ p, p ≠ d → m'.ref p = m.ref p := fun p hp => by
    simp [hm', Mem.decRef, Mem.pushFree, hp]
  have hrefd : m'.ref d = 0 := by simp [hm', Mem.decRef, Mem.pushFree, hone]
  refine ⟨Finset.mem_erase.mpr ⟨Ne.symm hk, h.kernelDir⟩, ?_, ?_, ?_, ?_, ?_, ?_, ?_, ?_⟩
  · exact fun r hr => h.roots r (Finset.mem_of_mem_erase hr)
  · intro r hr r' hr'
    exact h.sep r (Finset.mem_of_mem_erase hr) r' (Finset.mem_of_mem_erase hr')
  · exact fun r hr => h.tables r (Finset.mem_of_mem_erase hr)
  · intro r hr v e hv
    obtain ⟨h1, h2, h3⟩ := h.leaf r (Finset.mem_of_mem_erase hr) v e hv
    exact ⟨h1, fun ht => h2 ((htab' _).mp ht).1, h3⟩
  · exact List.nodup_cons.mpr ⟨h.not_free_of_isTable hdt, h.free_nodup⟩
  · intro p hp
    rw [hsame p]
    rcases List.mem_cons.mp hp with rfl | hp
    · exact ⟨hda, fun ht => ((htab' p).mp ht).2 rfl, hleafd⟩
    · obtain ⟨h1, h2, h3⟩ := h.free p hp
      exact ⟨h1, fun ht => h2 ((htab' p).mp ht).1, h3⟩
  · intro p hp
    rw [hsame p]
    by_cases hpd : p = d
    · subst hpd
      rw [hrefd, hleafd, tableRefs_of_not fun ht => ((htab' p).mp ht).2 rfl]
      rfl
    · rw [href p hpd, h.ref_above p hp]
      congr 1
      by_cases hpt : IsTable m dirs p
      · rw [tableRefs_of_isTable hpt, tableRefs_of_isTable ((htab' p).mpr ⟨hpt, hpd⟩)]
      · rw [tableRefs_of_not hpt, tableRefs_of_not fun ht => hpt ((htab' p).mp ht).1]
  · intro p hp
    have hpd : p ≠ d := by
      rintro rfl
      exact Image.not_above_of_kernel hp hda
    rw [hsame p, href p hpd]
    exact h.ref_kernel p hp

end Drop

/-! ## The shadow -/

open Classical in
/-- The memory with the slots of `S` read as empty. -/
noncomputable def blank (S : Set Slot) (m : Mem) : Mem :=
  { m with ram := fun p i => if (p, i) ∈ S then 0 else m.ram p i }

section Blank

variable {S : Set Slot} {m : Mem} {p : Ppn} {i : Idx}

theorem ram_blank_mem (h : (p, i) ∈ S) : (blank S m).ram p i = 0 := if_pos h

theorem ram_blank_notMem (h : (p, i) ∉ S) : (blank S m).ram p i = m.ram p i := if_neg h

theorem ram_blank_page (h : ∀ i, (p, i) ∉ S) : (blank S m).ram p = m.ram p :=
  funext fun i => ram_blank_notMem (h i)

theorem decodePte_of_not_valid {e : Pte} (h : (!pteValid e) = true) : decodePte e = none := by
  unfold decodePte
  rw [if_neg (by simpa using h)]

theorem decodePte_of_valid {e : Pte} (h : ¬ (!pteValid e) = true) : decodePte e = some (pte2Ppn e) := by
  unfold decodePte
  rw [if_pos (by simpa using h)]

end Blank

/-! ## Giving pages back -/

/-- Counts have only gone down, and the pages that have joined the free list are some that lost their last
reference, all of them. -/
structure GivenBack (m m' : Mem) : Prop where
  idle : ∀ p, Idle m' p → Idle m p
  free : m.freePageList ⊆ m'.freePageList
  fresh : ∀ p ∈ m'.freePageList, p ∈ m.freePageList ∨ m.ref p ≠ 0
  ref_le : ∀ p, (m'.ref p).toNat ≤ (m.ref p).toNat

section GivenBack

variable {m m₁ m' : Mem} {p y : Ppn}

theorem GivenBack.refl (m : Mem) : GivenBack m m where
  idle := fun _ h => h
  free := fun _ h => h
  fresh := fun _ h => .inl h
  ref_le := fun _ => le_refl _

theorem GivenBack.trans (g : GivenBack m m₁) (g' : GivenBack m₁ m') : GivenBack m m' where
  idle := fun p h => g.idle p (g'.idle p h)
  free := fun _ hp => g'.free (g.free hp)
  fresh := fun p hp => by
    rcases g'.fresh p hp with hp | hp
    · exact g.fresh p hp
    · refine .inr fun h0 => hp (BitVec.eq_of_toNat_eq ?_)
      have := g.ref_le p
      rw [h0] at this
      exact Nat.le_zero.mp this
  ref_le := fun p => (g'.ref_le p).trans (g.ref_le p)

/-- Only the counts and the list matter. -/
theorem GivenBack.congr (g : GivenBack m m₁) (href : m'.ref = m₁.ref) (hfree : m'.freePageList = m₁.freePageList) :
    GivenBack m m' where
  idle := fun p h => g.idle p ⟨hfree ▸ h.1, href ▸ h.2⟩
  free := hfree ▸ g.free
  fresh := fun p hp => g.fresh p (hfree ▸ hp)
  ref_le := fun p => href ▸ g.ref_le p

theorem ref_decRef_self (m : Mem) (p : Ppn) : (m.decRef p).ref p = m.ref p - 1 := if_pos rfl

theorem ref_decRef_of_ne (m : Mem) {p q : Ppn} (h : q ≠ p) : (m.decRef p).ref q = m.ref q := if_neg h

theorem ref_decRef_le (hp : 0 < (m.ref p).toNat) (q : Ppn) : ((m.decRef p).ref q).toNat ≤ (m.ref q).toNat := by
  by_cases hq : q = p
  · rw [hq, ref_decRef_self, toNat_sub_one hp]
    exact Nat.sub_le ..
  · rw [ref_decRef_of_ne m hq]

/-- A page that had a reference loses it, and joins the list with its last one. -/
theorem givenBack_pageFree (hp : 0 < (m.ref p).toNat) : GivenBack m (pageFree p (m.decRef p)).2 := by
  have hne : m.ref p ≠ 0 := fun h0 => by
    rw [h0] at hp
    cases hp
  unfold pageFree
  split
  · rename_i hz
    refine ⟨fun q hq => ?_, List.subset_cons_self .., fun q hq => ?_, ref_decRef_le hp⟩
    · have hqp : q ≠ p := fun e => hq.1 (e ▸ List.mem_cons_self)
      refine ⟨fun hf => hq.1 (List.mem_cons_of_mem _ hf), ?_⟩
      have h0 : (m.decRef p).ref q = 0 := hq.2
      rwa [ref_decRef_of_ne m hqp] at h0
    · rcases List.mem_cons.mp hq with rfl | hq
      · exact .inr hne
      · exact .inl hq
  · rename_i hz
    refine ⟨fun q hq => ?_, fun _ hq => hq, fun q hq => .inl hq, ref_decRef_le hp⟩
    have h0 : (m.decRef p).ref q = 0 := hq.2
    have hqp : q ≠ p := fun e => hz (e ▸ h0)
    rw [ref_decRef_of_ne m hqp] at h0
    exact ⟨hq.1, h0⟩

theorem givenBack_pushFree (hy : m.ref y = 1) : GivenBack m ((m.decRef y).pushFree y) := by
  have hz : (m.decRef y).ref y = 0 := by simp [Mem.decRef, hy]
  have hback := givenBack_pageFree (m := m) (p := y) (by rw [hy]; decide)
  unfold pageFree at hback
  rwa [if_pos hz] at hback

end GivenBack

/-- Directory `d` is being torn down: the slots of `S` point at freed tables, and the shadow without them is
well formed and shows the other directories as they were in `m₀`. -/
structure Tearing (img : Image) (dirs : Finset Ppn) (d : Ppn) (m₀ : Mem) (S : Set Slot) (m : Mem) : Prop where
  inv : MemInv img (blank S m) dirs
  view : ∀ d' ∈ dirs, d' ≠ d → ∀ v, view (blank S m) d' v = view m₀ d' v
  table : ∀ d' ∈ dirs, d' ≠ d → ∀ p, p.length ≤ 2 → tableAt (blank S m) d' p = tableAt m₀ d' p
  back : GivenBack m₀ m

section Tearing

variable {img : Image} {dirs : Finset Ppn} {m₀ m m₁ : Mem} {d x y pa pa2 : Ppn} {S S' : Set Slot}
  {p₀ : List Idx} {i j : Idx} {v : Vpn} {va : Nat} {done : List Idx} {row : Idx → Pte}

theorem tableAt_one (h : decodePte (m.ram d i) = some pa) : tableAt m d [i] = some pa := by
  unfold tableAt
  rw [Radix.node_cons, h]
  rfl

theorem tableAt_two (h : decodePte (m.ram d i) = some pa) (h' : decodePte (m.ram pa j) = some pa2) :
    tableAt m d [i, j] = some pa2 := by
  unfold tableAt
  rw [Radix.node_cons, h, Option.bind_some, Radix.node_cons, h']
  rfl

/-- One leaf entry goes, in the memory and in its shadow alike. -/
theorem Tearing.pageRemove (h : Tearing img dirs d m₀ S m) (hd : d ∈ dirs) (hva : vpn va = v)
    (hi : (d, v.1) ∉ S) (hpa : decodePte (m.ram d v.1) = some pa) (hj : (pa, v.2.1) ∉ S)
    (hpa2 : decodePte (m.ram pa v.2.1) = some pa2) (hk : ∀ k, (pa2, k) ∉ S) (hvalid : pteValid (m.ram pa2 v.2.2) = true) :
    ∃ m', Exaros.pageRemove d va m = .ok (0, m') ∧ Tearing img dirs d m₀ S m' ∧
      m'.ram = (m.write (pa2, v.2.2) 0).ram := by
  subst hva
  set e := m.ram pa2 (vpn va).2.2 with he
  have ht : leafTable m d (vpn va) = some pa2 := tableAt_two hpa hpa2
  have htb : leafTable (blank S m) d (vpn va) = some pa2 :=
    tableAt_two (by rwa [ram_blank_notMem hi]) (by rwa [ram_blank_notMem hj])
  have hv : Exaros.view m d (vpn va) = some e := by
    rw [view_of_leafTable ht, if_pos hvalid]
  have hvb : Exaros.view (blank S m) d (vpn va) = some e := by
    rw [view_of_leafTable htb, ram_blank_notMem (hk _), if_pos hvalid]
  have hr := remap_clear h.inv hd htb hvb
  have hshadow : blank S ((pageFree (pte2Ppn e) (m.decRef (pte2Ppn e))).2.write (pa2, (vpn va).2.2) 0) =
      (pageFree (pte2Ppn e) ((blank S m).decRef (pte2Ppn e))).2.write (pa2, (vpn va).2.2) 0 := by
    have hcond : ((blank S m).decRef (pte2Ppn e)).ref = (m.decRef (pte2Ppn e)).ref := rfl
    unfold pageFree
    rw [hcond]
    split <;>
    · simp only [blank, Mem.write, Mem.pushFree, Mem.decRef, Mem.mk.injEq, and_self, and_true]
      funext q l
      by_cases hq : q = pa2 ∧ l = (vpn va).2.2
      · simp [hq]
      · simp [hq]
  have hst := sameTables_write h.inv hd htb (vpn va).2.2 0
  have hpos : 0 < (m.ref (pte2Ppn e)).toNat := h.inv.ref_pos hd hvb
  refine ⟨(pageFree (pte2Ppn e) (m.decRef (pte2Ppn e))).2.write (pa2, (vpn va).2.2) 0, ?_, ⟨?_, ?_, ?_, ?_⟩, ?_⟩
  · unfold Exaros.pageRemove
    rw [pageLookup_some ht hv (h.inv.leaf d hd _ e hvb).1]
    rfl
  · rw [hshadow]
    exact hr.inv
  · intro d' hd' hne w
    rw [hshadow, hr.view d' hd' w, if_neg fun heq => hne heq.1]
    exact h.view d' hd' hne w
  · intro d' hd' hne p hp
    have hram : ((pageFree (pte2Ppn e) ((blank S m).decRef (pte2Ppn e))).2.write (pa2, (vpn va).2.2) 0).ram =
        ((blank S m).write (pa2, (vpn va).2.2) 0).ram := by
      unfold Mem.write
      simp [Mem.decRef]
    rw [hshadow, ← h.table d' hd' hne p hp, ← hst d' hd' p hp]
    unfold tableAt
    rw [hram]
  · exact h.back.trans ((givenBack_pageFree hpos).congr rfl rfl)
  · unfold Mem.write
    simp [Mem.decRef]

/-- A table without entries is freed while slot `(x, i)` still points at it: the shadow has the slot empty
from here on. -/
theorem Tearing.drop (h : Tearing img dirs d m₀ S m) (m₁ : Mem) (S' : Set Slot) (p₀ : List Idx) (hd : d ∈ dirs)
    (hp₀ : p₀.length < 2) (hx : tableAt (blank S m) d p₀ = some x) (hi : (x, i) ∉ S) (hy : decodePte (m.ram x i) = some y)
    (hz : ∀ j, decodePte ((blank S m).ram y j) = none) (href : m₁.ref = m.ref)
    (hfree : m₁.freePageList = m.freePageList) (hram : ∀ p, p ≠ y → m₁.ram p = m.ram p)
    (hS : ∀ s : Slot, s.1 ≠ y → (s ∈ S' ↔ s ∈ S ∨ s = (x, i))) :
    ∃ m', paDecreaseRef y m₁ = .ok m' ∧ Tearing img dirs d m₀ S' m' ∧ ∀ p, p ≠ y → m'.ram p = m.ram p := by
  have hyb : decodePte ((blank S m).ram x i) = some y := by rwa [ram_blank_notMem hi]
  have hl := MemInv.unlink_radix hd hp₀ hx hyb hz
  have hty : tableAt (blank S m) d (p₀ ++ [i]) = some y := hl.node_self decodePte
  have hyt : IsTable (blank S m) dirs y := ⟨d, hd, p₀ ++ [i], by simp; omega, hty⟩
  have hya : img.Above y := h.inv.tables d hd (p₀ ++ [i]) y (by simp) (by simp; omega) hty
  have hone : m₁.ref y = 1 := by
    rw [href]
    exact h.inv.ref_table hyt hya
  have hinv := h.inv.unlink hd hp₀ hx hyb hz
  have hnt : ¬ IsTable (unlinkTable (blank S m) y (x, i)) dirs y := fun ht =>
    ((hl.isNode decodePte h.inv.sep y).mp ht).2 rfl
  have hoff : ∀ q, q ≠ y → (blank S' ((m₁.decRef y).pushFree y)).ram q =
      (unlinkTable (blank S m) y (x, i)).ram q := by
    intro q hq
    funext l
    have hmem := hS (q, l) hq
    have hleft : (blank S' ((m₁.decRef y).pushFree y)).ram q l = (blank S' m₁).ram q l := rfl
    have hright : (unlinkTable (blank S m) y (x, i)).ram q l = ((blank S m).write (x, i) 0).ram q l := rfl
    rw [hleft, hright]
    by_cases hs : (q, l) = (x, i)
    · obtain ⟨rfl, rfl⟩ := Prod.mk.inj hs
      rw [ram_blank_mem (hmem.mpr (.inr rfl))]
      simp [Mem.write]
    · have hw : ((blank S m).write (x, i) 0).ram q l = (blank S m).ram q l :=
        if_neg fun heq => hs (Prod.ext heq.1 heq.2)
      rw [hw]
      by_cases hmS : (q, l) ∈ S
      · rw [ram_blank_mem (hmem.mpr (.inl hmS)), ram_blank_mem hmS]
      · rw [ram_blank_notMem fun hn => (hmem.mp hn).elim hmS hs, ram_blank_notMem hmS, hram q hq]
  refine ⟨(m₁.decRef y).pushFree y, paDecreaseRef_one hya.managed.1 hone, ⟨?_, ?_, ?_, ?_⟩, hram⟩
  · refine hinv.data hnt hoff ?_ ?_
    · simp only [blank, unlinkTable, Mem.write, Mem.decRef, Mem.pushFree, href]
    · simp only [blank, unlinkTable, Mem.write, Mem.decRef, Mem.pushFree, hfree]
      exact List.Sublist.refl _
  · intro d' hd' hne w
    rw [view_fill hnt hoff hd' w, view_unlinkTable h.inv hd hp₀ hx hyb hz hd' w]
    exact h.view d' hd' hne w
  · intro d' hd' hne p hp
    have hother := hl.node decodePte h.inv.sep hd' hp
    rw [if_neg fun heq => hne heq.1] at hother
    rw [sameTables_fill hnt hoff d' hd' p hp, ← h.table d' hd' hne p hp]
    exact hother
  · exact h.back.trans (((GivenBack.refl m).congr href hfree).trans (givenBack_pushFree hone))

/-! ## The three loops -/

/-- The rule for a loop over the entries of a table. -/
theorem eachEntry_ok (table : Ppn) (body : Idx → Mem → Except Panic Mem) {P : List Idx → Mem → Prop}
    (h : P [] m) (skip : ∀ done k m, k ∉ done → P done m → decodePte (m.ram table k) = none → P (done ++ [k]) m)
    (step : ∀ done k m, k ∉ done → P done m → decodePte (m.ram table k) = some (pte2Ppn (m.ram table k)) →
      ∃ m', body k m = .ok m' ∧ P (done ++ [k]) m') :
    ∃ m', eachEntry table body m = .ok m' ∧ P (List.finRange 512) m' := by
  refine Loop.foldlM_ok (List.nodup_finRange 512) h fun done k m hk hP => ?_
  by_cases hv : (!pteValid (m.ram table k)) = true
  · exact ⟨m, if_pos hv, skip done k m hk hP (decodePte_of_not_valid hv)⟩
  · obtain ⟨m', hm', hP'⟩ := step done k m hk hP (decodePte_of_valid hv)
    exact ⟨m', (if_neg hv).trans hm', hP'⟩

theorem mem_snoc {k l : Idx} : l ∈ done ++ [k] ↔ l ∈ done ∨ l = k := by simp

/-- The innermost loop empties a last-level table. -/
theorem Tearing.leafLoop (h : Tearing img dirs d m₀ S m) (hd : d ∈ dirs) (hi : (d, i) ∉ S)
    (hpa : decodePte (m.ram d i) = some pa) (hj : (pa, j) ∉ S) (hpa2 : decodePte (m.ram pa j) = some pa2)
    (hk : ∀ k, (pa2, k) ∉ S) (hne : d ≠ pa2) (hne' : pa ≠ pa2) :
    ∃ m', eachEntry pa2 (pgdirFreeLeaf d i j) m = .ok m' ∧ Tearing img dirs d m₀ S m' ∧
      (∀ p, p ≠ pa2 → m'.ram p = m.ram p) ∧ ∀ k, decodePte (m'.ram pa2 k) = none := by
  have hloop := eachEntry_ok (m := m) pa2 (pgdirFreeLeaf d i j)
    (P := fun done m' => Tearing img dirs d m₀ S m' ∧ (∀ p, p ≠ pa2 → m'.ram p = m.ram p) ∧
      ∀ k ∈ done, decodePte (m'.ram pa2 k) = none)
    ⟨h, fun _ _ => rfl, by simp⟩ ?_ ?_
  · obtain ⟨m', hm', ht, hoff, hz⟩ := hloop
    exact ⟨m', hm', ht, hoff, fun k => hz k (List.mem_finRange k)⟩
  · rintro done k m₂ - ⟨h₂, hoff, hdone⟩ hn
    refine ⟨h₂, hoff, fun l hl => ?_⟩
    rcases mem_snoc.mp hl with hl | rfl
    · exact hdone l hl
    · exact hn
  · rintro done k m₂ - ⟨h₂, hoff, hdone⟩ hs
    have hva : vpn ((i.val <<< 30) ||| (j.val <<< 21) ||| (k.val <<< 12)) = (i, j, k) := by
      rw [vpnAddr_eq_or (i, j, k), vpn_vpnAddr]
    have hvalid : pteValid (m₂.ram pa2 k) = true := by
      rw [← decodePte_isSome, hs]
      rfl
    obtain ⟨m₃, hrem, h₃, hram⟩ := h₂.pageRemove (v := (i, j, k)) hd hva hi (by rwa [hoff d hne]) hj
      (by rwa [hoff pa hne']) hk hvalid
    refine ⟨m₃, ?_, h₃, fun p hp => ?_, fun l hl => ?_⟩
    · unfold pgdirFreeLeaf
      rw [hrem]
      rfl
    · rw [hram, ram_write_off m₂ _ 0 hp, hoff p hp]
    · rw [hram]
      by_cases hlk : l = k
      · have h0 : (m₂.write (pa2, k) 0).ram pa2 l = 0 := by simp [Mem.write, hlk]
        rw [h0, decodePte_zero]
      · simpa [Mem.write, hlk] using hdone l ((mem_snoc.mp hl).resolve_right hlk)

/-- The slots of a table that its loop has dealt with, as the table reads. -/
def doneSlots (table : Ppn) (row : Idx → Pte) (done : List Idx) : Set Slot :=
  { s | s.1 = table ∧ s.2 ∈ done ∧ decodePte (row s.2) ≠ none }

theorem doneSlots_nil (table : Ppn) (row : Idx → Pte) : doneSlots table row [] = ∅ := by
  simp [doneSlots]

theorem doneSlots_skip {table : Ppn} {k : Idx}
    (hk : decodePte (row k) = none) : doneSlots table row (done ++ [k]) = doneSlots table row done := by
  ext s
  simp only [doneSlots, Set.mem_ofPred_eq, mem_snoc]
  constructor
  · rintro ⟨h1, h2 | h2, h3⟩
    · exact ⟨h1, h2, h3⟩
    · rw [h2] at h3
      exact absurd hk h3
  · rintro ⟨h1, h2, h3⟩
    exact ⟨h1, .inl h2, h3⟩

theorem mem_doneSlots_snoc {table : Ppn} {k : Idx} {y : Ppn} (hk : decodePte (row k) = some y) (s : Slot) :
    s ∈ doneSlots table row (done ++ [k]) ↔ s ∈ doneSlots table row done ∨ s = (table, k) := by
  simp only [doneSlots, Set.mem_ofPred_eq, mem_snoc]
  constructor
  · rintro ⟨h1, h2 | h2, h3⟩
    · exact .inl ⟨h1, h2, h3⟩
    · exact .inr (Prod.ext h1 h2)
  · rintro (⟨h1, h2, h3⟩ | rfl)
    · exact ⟨h1, .inl h2, h3⟩
    · exact ⟨rfl, .inr rfl, by simp [hk]⟩

/-- The slots dealt with and the rest of the table are empty in the shadow once the loop is done. -/
theorem decodePte_blank_all {table : Ppn} (hrow : m.ram table = row)
    (hS : doneSlots table row (List.finRange 512) ⊆ S) (k : Idx) : decodePte ((blank S m).ram table k) = none := by
  by_cases hk : (table, k) ∈ S
  · rw [ram_blank_mem hk, decodePte_zero]
  · rw [ram_blank_notMem hk, hrow]
    by_contra hn
    exact hk (hS ⟨rfl, List.mem_finRange k, hn⟩)

/-- The middle loop frees the last-level tables below a second-level one. -/
theorem Tearing.midLoop (h : Tearing img dirs d m₀ S m) (hd : d ∈ dirs) (hi : (d, i) ∉ S)
    (hpa : decodePte (m.ram d i) = some pa) (hS : ∀ s ∈ S, s.1 = d) :
    ∃ m', eachEntry pa (pgdirFreeMid d i pa) m = .ok m' ∧
      Tearing img dirs d m₀ (S ∪ doneSlots pa (m.ram pa) (List.finRange 512)) m' ∧
      m'.ram d = m.ram d ∧ m'.ram pa = m.ram pa := by
  have hpab : tableAt (blank S m) d [i] = some pa := tableAt_one (by rwa [ram_blank_notMem hi])
  have hdpa : d ≠ pa := fun heq => by
    have := (h.inv.sep d hd d hd [] [i] (by simp) (by simp) d rfl (heq ▸ hpab)).2
    simp at this
  refine eachEntry_ok pa (pgdirFreeMid d i pa)
    (P := fun done m' => Tearing img dirs d m₀ (S ∪ doneSlots pa (m.ram pa) done) m' ∧
      m'.ram d = m.ram d ∧ m'.ram pa = m.ram pa) ?_ ?_ ?_
  · rw [doneSlots_nil, Set.union_empty]
    exact ⟨h, rfl, rfl⟩
  · rintro done j m₂ - ⟨h₂, hrd, hrpa⟩ hn
    rw [hrpa] at hn
    rw [doneSlots_skip hn]
    exact ⟨h₂, hrd, hrpa⟩
  · rintro done j m₂ hj ⟨h₂, hrd, hrpa⟩ hs
    set T := S ∪ doneSlots pa (m.ram pa) done with hT
    set pa2 := pte2Ppn (m₂.ram pa j)
    have hiT : (d, i) ∉ T := fun hmem => hmem.elim hi fun hmem => hdpa hmem.1
    have hjT : (pa, j) ∉ T := fun hmem => hmem.elim (fun hmem => hdpa (hS _ hmem).symm) fun hmem => hj hmem.2.1
    have hpa₂ : decodePte (m₂.ram d i) = some pa := by rwa [hrd]
    have htb : tableAt (blank T m₂) d [i] = some pa := tableAt_one (by rwa [ram_blank_notMem hiT])
    have htb2 : tableAt (blank T m₂) d [i, j] = some pa2 :=
      tableAt_two (by rwa [ram_blank_notMem hiT]) (by rwa [ram_blank_notMem hjT])
    have hdpa2 : d ≠ pa2 := fun heq => by
      have := (h₂.inv.sep d hd d hd [] [i, j] (by simp) (by simp) d rfl (heq ▸ htb2)).2
      simp at this
    have hpapa2 : pa ≠ pa2 := fun heq => by
      have := (h₂.inv.sep d hd d hd [i] [i, j] (by simp) (by simp) pa htb (heq ▸ htb2)).2
      simp at this
    have hkT : ∀ k, (pa2, k) ∉ T := fun k hmem =>
      hmem.elim (fun hmem => hdpa2 (hS _ hmem).symm) fun hmem => hpapa2 hmem.1.symm
    obtain ⟨m₃, hm₃, h₃, hoff, hz⟩ := h₂.leafLoop hd hiT hpa₂ hjT hs hkT hdpa2 hpapa2
    have hrd₃ : m₃.ram d = m₂.ram d := hoff d hdpa2
    have hrpa₃ : m₃.ram pa = m₂.ram pa := hoff pa hpapa2
    have htb₃ : tableAt (blank T m₃) d [i] = some pa :=
      tableAt_one (by rw [ram_blank_notMem hiT, hrd₃]; exact hpa₂)
    have hjrow : decodePte (m.ram pa j) = some pa2 := by
      rw [← hrpa]
      exact hs
    obtain ⟨m₄, hm₄, h₄, hoff₄⟩ := h₃.drop (m₃.write (pa2, j) 0)
      (S ∪ doneSlots pa (m.ram pa) (done ++ [j])) [i] hd (by simp) htb₃ hjT (by rw [hrpa₃]; exact hs)
      (fun k => by rw [ram_blank_notMem (hkT k)]; exact hz k) rfl rfl
      (fun p hp => ram_write_off m₃ _ 0 hp) (fun s _ => by
        rw [Set.mem_union, mem_doneSlots_snoc hjrow, hT, Set.mem_union, or_assoc])
    refine ⟨m₄, ?_, h₄, ?_, ?_⟩
    · unfold pgdirFreeMid
      show Except.bind (eachEntry pa2 (pgdirFreeLeaf d i j) m₂) _ = _
      rw [hm₃]
      exact hm₄
    · rw [hoff₄ d hdpa2, hrd₃, hrd]
    · rw [hoff₄ pa hpapa2, hrpa₃, hrpa]

/-- The outer loop frees every table below the directory. -/
theorem Tearing.topLoop (h : MemInv img m dirs) (hd : d ∈ dirs) :
    ∃ m', eachEntry d (pgdirFreeTop d) m = .ok m' ∧
      Tearing img dirs d m (doneSlots d (m.ram d) (List.finRange 512)) m' ∧ m'.ram d = m.ram d := by
  refine eachEntry_ok d (pgdirFreeTop d)
    (P := fun done m' => Tearing img dirs d m (doneSlots d (m.ram d) done) m' ∧ m'.ram d = m.ram d) ?_ ?_ ?_
  · have hblank : blank ∅ m = m := by simp [blank]
    rw [doneSlots_nil]
    refine ⟨⟨?_, ?_, ?_, .refl m⟩, rfl⟩
    · rwa [hblank]
    · intro d' _ _ v
      rw [hblank]
    · intro d' _ _ p _
      rw [hblank]
  · rintro done i m₂ - ⟨h₂, hrd⟩ hn
    rw [hrd] at hn
    rw [doneSlots_skip hn]
    exact ⟨h₂, hrd⟩
  · rintro done i m₂ hi ⟨h₂, hrd⟩ hs
    set T := doneSlots d (m.ram d) done with hT
    set pa := pte2Ppn (m₂.ram d i)
    have hiT : (d, i) ∉ T := fun hmem => hi hmem.2.1
    have hdT : ∀ s ∈ T, s.1 = d := fun s hs => hs.1
    have htb : tableAt (blank T m₂) d [i] = some pa := tableAt_one (by rwa [ram_blank_notMem hiT])
    have hdpa : d ≠ pa := fun heq => by
      have := (h₂.inv.sep d hd d hd [] [i] (by simp) (by simp) d rfl (heq ▸ htb)).2
      simp at this
    obtain ⟨m₃, hm₃, h₃, hrd₃, hrpa₃⟩ := h₂.midLoop hd hiT hs hdT
    set U := T ∪ doneSlots pa (m₂.ram pa) (List.finRange 512) with hU
    have hiU : (d, i) ∉ U := fun hmem => hmem.elim hiT fun hmem => hdpa hmem.1
    have hrow : decodePte (m.ram d i) = some pa := by
      rw [← hrd]
      exact hs
    obtain ⟨m₄, hm₄, h₄, hoff₄⟩ := h₃.drop m₃ (doneSlots d (m.ram d) (done ++ [i])) [] hd
      (by simp) rfl hiU (by rw [hrd₃]; exact hs) (decodePte_blank_all hrpa₃ Set.subset_union_right) rfl rfl
      (fun _ _ => rfl) (fun s hspa => by
        rw [mem_doneSlots_snoc hrow, hU, Set.mem_union]
        have : s ∉ doneSlots pa (m₂.ram pa) (List.finRange 512) := fun hmem => hspa hmem.1
        simp [this, hT])
    refine ⟨m₄, ?_, h₄, ?_⟩
    · unfold pgdirFreeTop
      show Except.bind (eachEntry pa (pgdirFreeMid d i pa) m₂) _ = _
      rw [hm₃]
      exact hm₄
    · rw [hoff₄ d hdpa, hrd₃, hrd]

/-- What `pgdirFree` does: the directory is gone, the others are as they were. -/
structure Gone (img : Image) (dirs : Finset Ppn) (d : Ppn) (m m' : Mem) : Prop where
  inv : MemInv img m' (dirs.erase d)
  view : ∀ d' ∈ dirs.erase d, ∀ v, Exaros.view m' d' v = Exaros.view m d' v
  tables : SameTables m m' (dirs.erase d)
  back : GivenBack m m'

/-- **`pgdirFree`.** On any directory in use but the kernel's it returns: no count it decreases fails its
assertion. -/
theorem MemInv.pgdirFree (h : MemInv img m dirs) (hd : d ∈ dirs) (hk : d ≠ img.kernelPageDirectory) :
    ∃ m', Exaros.pgdirFree d m = .ok m' ∧ Gone img dirs d m m' := by
  obtain ⟨m₁, hm₁, ht, hrd⟩ := Tearing.topLoop h hd
  set S := doneSlots d (m.ram d) (List.finRange 512)
  have hz := decodePte_blank_all (S := S) hrd (Set.Subset.refl _)
  have hda : img.Above d := (h.roots d hd).resolve_left hk
  have hone : m₁.ref d = 1 := ht.inv.ref_table (isTable_root hd) hda
  have hinv := ht.inv.dropDir hd hk hz
  have hnt : ¬ IsTable (((blank S m₁).decRef d).pushFree d) (dirs.erase d) d := fun htd => by
    obtain ⟨r, hr, p, hp, hn⟩ := htd
    obtain ⟨hrd', hr'⟩ := Finset.mem_erase.mp hr
    exact hrd' (ht.inv.sep r hr' d hd p [] hp (by simp) d hn rfl).1
  have hoff : ∀ q, q ≠ d → ((m₁.decRef d).pushFree d).ram q = (((blank S m₁).decRef d).pushFree d).ram q :=
    fun q hq => (ram_blank_page fun i hmem => hq hmem.1).symm
  refine ⟨(m₁.decRef d).pushFree d, ?_, ⟨?_, ?_, ?_, ?_⟩⟩
  · unfold Exaros.pgdirFree
    rw [hm₁]
    exact paDecreaseRef_one hda.managed.1 hone
  · exact hinv.data hnt hoff rfl (List.Sublist.refl _)
  · intro d' hd' v
    obtain ⟨hne, hd''⟩ := Finset.mem_erase.mp hd'
    rw [view_fill hnt hoff hd' v]
    exact ht.view d' hd'' hne v
  · intro d' hd' p hp
    obtain ⟨hne, hd''⟩ := Finset.mem_erase.mp hd'
    exact (sameTables_fill hnt hoff d' hd' p hp).trans (ht.table d' hd'' hne p hp)
  · exact ht.back.trans (givenBack_pushFree hone)

end Tearing

end Exaros
