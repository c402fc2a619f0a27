import Exaros.Lib.Radix
import Exaros.Lib.Count
import Exaros.Memory.Page
import Mathlib.Order.Interval.Finset.Nat

/-!
# The page-table forest and its accounting

`view` reads a page directory as what it is for: a finite map from virtual pages to entries.
`MemInv` is the invariant of the memory as a whole, relative to the set of live page directories:

* tables are separated (`Radix.Separated`), lie above the kernel image and are no data pages;
* the free list has no duplicates and holds pages nothing refers to;
* `pages[].ref` counts the leaf entries that map a page, plus one for a table and plus one for a
  page of the kernel image.

The lemmas here say how the invariant and the view move under the three edits of a leaf slot
(remove, add, edit in place) and under the allocation of a table. `pageWalk` is then read off in
`Exaros.Memory.Walk`.
-/

namespace Exaros

/-! ## Reading a directory -/

/-- The table reached from a directory along a path of slots. -/
def tableAt (m : Mem) (d : Ppn) (p : List Idx) : Option Ppn := Radix.node decodePte m.ram d p

/-- The last-level table of a virtual page. -/
def leafTable (m : Mem) (d : Ppn) (v : Vpn) : Option Ppn := tableAt m d [v.1, v.2.1]

/-- The valid entry of a virtual page. -/
def view (m : Mem) (d : Ppn) (v : Vpn) : Option Pte := Radix.entry decodePte m.ram d [v.1, v.2.1] v.2.2

/-- Some directory reaches `t` as a table; the directories themselves are tables too. -/
def IsTable (m : Mem) (dirs : Finset Ppn) (t : Ppn) : Prop := Radix.IsNode decodePte m.ram dirs 2 t

/-- The page a slot of a directory maps. -/
def target (m : Mem) (x : Ppn × Vpn) : Option Ppn := (view m x.1 x.2).map pte2Ppn

/-- Every (directory, virtual page) pair. -/
def leafSlots (dirs : Finset Ppn) : Finset (Ppn × Vpn) := Count.pairs dirs Vpn

/-- How many leaf entries map a page. -/
def leafRefs (m : Mem) (dirs : Finset Ppn) (p : Ppn) : Nat :=
  Count.fiber (leafSlots dirs) (target m) (some p)

open Classical in
/-- One for a page that serves as a table. -/
noncomputable def tableRefs (m : Mem) (dirs : Finset Ppn) (p : Ppn) : Nat :=
  if IsTable m dirs p then 1 else 0

theorem mem_leafSlots {dirs : Finset Ppn} {x : Ppn × Vpn} : x ∈ leafSlots dirs ↔ x.1 ∈ dirs :=
  Count.mem_pairs

/-- Entries keep the accessed and dirty bits set throughout. -/
def Touched (e : Pte) : Prop := e.getLsbD 6 = true ∧ e.getLsbD 7 = true

/-- The invariant of memory, for the live page directories `dirs`. -/
structure MemInv (img : Image) (m : Mem) (dirs : Finset Ppn) : Prop where
  kernelDir : img.kernelPageDirectory ∈ dirs
  roots : ∀ d ∈ dirs, d = img.kernelPageDirectory ∨ img.Above d
  sep : Radix.Separated decodePte m.ram dirs 2
  tables : ∀ d ∈ dirs, ∀ p t, p ≠ [] → p.length ≤ 2 → tableAt m d p = some t → img.Above t
  leaf : ∀ d ∈ dirs, ∀ v e, view m d v = some e →
    Managed (pte2Ppn e) ∧ ¬ IsTable m dirs (pte2Ppn e) ∧ Touched e
  free_nodup : m.freePageList.Nodup
  free : ∀ p ∈ m.freePageList, img.Above p ∧ ¬ IsTable m dirs p ∧ leafRefs m dirs p = 0
  ref_above : ∀ p, img.Above p → (m.ref p).toNat = leafRefs m dirs p + tableRefs m dirs p
  ref_kernel : ∀ p, img.Kernel p → (m.ref p).toNat = leafRefs m dirs p + 1

/-- A page an insertion may be given: managed, on no list and no table. -/
def Usable (m : Mem) (dirs : Finset Ppn) (p : Ppn) : Prop :=
  Managed p ∧ p ∉ m.freePageList ∧ ¬ IsTable m dirs p

/-- A page off the free list that nothing counts. -/
def Idle (m : Mem) (p : Ppn) : Prop := p ∉ m.freePageList ∧ m.ref p = 0

section Reading

variable {m m' : Mem} {d t : Ppn} {v : Vpn} {e : Pte} {dirs : Finset Ppn}

@[simp] theorem view_incRef (m : Mem) (p : Ppn) : view (m.incRef p) = view m := rfl

@[simp] theorem ram_pageFree (p : Ppn) (m : Mem) : (pageFree p m).2.ram = m.ram := by
  unfold pageFree
  split <;> rfl

@[simp] theorem ref_pageFree (p : Ppn) (m : Mem) : (pageFree p m).2.ref = m.ref := by
  unfold pageFree
  split <;> rfl

theorem view_of_leafTable (h : leafTable m d v = some t) :
    view m d v = if pteValid (m.ram t v.2.2) then some (m.ram t v.2.2) else none := by
  unfold view
  rw [Radix.entry_of_node decodePte h, decodePte_isSome]

theorem view_eq_some_iff : view m d v = some e ↔
    ∃ t, leafTable m d v = some t ∧ pteValid (m.ram t v.2.2) = true ∧ m.ram t v.2.2 = e := by
  unfold view leafTable tableAt
  rw [Radix.entry_eq_some_iff]
  simp only [decodePte_isSome]

theorem leafTable_of_view (h : view m d v = some e) : ∃ t, leafTable m d v = some t ∧ m.ram t v.2.2 = e := by
  obtain ⟨t, ht, -, he⟩ := view_eq_some_iff.mp h
  exact ⟨t, ht, he⟩

theorem isTable_of_leafTable (hd : d ∈ dirs) (h : leafTable m d v = some t) :
    IsTable m dirs t := ⟨d, hd, [v.1, v.2.1], by simp, h⟩

theorem isTable_root (hd : d ∈ dirs) : IsTable m dirs d :=
  ⟨d, hd, [], by simp, rfl⟩

theorem target_eq_some_iff {x : Ppn × Vpn} {p : Ppn} :
    target m x = some p ↔ ∃ e, view m x.1 x.2 = some e ∧ pte2Ppn e = p := by
  exact Option.map_eq_some_iff

theorem leafRefs_pos (hd : d ∈ dirs) (h : view m d v = some e) :
    0 < leafRefs m dirs (pte2Ppn e) :=
  Count.fiber_pos (mem_leafSlots (x := (d, v)).mpr hd) (target_eq_some_iff.mpr ⟨e, h, rfl⟩)

theorem leafRefs_eq_zero {p : Ppn} :
    leafRefs m dirs p = 0 ↔ ∀ d ∈ dirs, ∀ v e, view m d v = some e → pte2Ppn e ≠ p := by
  unfold leafRefs
  rw [Count.fiber_eq_zero]
  constructor
  · intro h d hd v e he hp
    exact h (d, v) (mem_leafSlots.mpr hd) (target_eq_some_iff.mpr ⟨e, he, hp⟩)
  · intro h x hx hp
    obtain ⟨e, he, hpe⟩ := target_eq_some_iff.mp hp
    exact h x.1 (mem_leafSlots.mp hx) x.2 e he hpe

end Reading

section Facts

variable {img : Image} {m : Mem} {dirs : Finset Ppn} {d p t : Ppn} {v : Vpn} {e : Pte}

theorem tableRefs_le_one (m : Mem) (dirs : Finset Ppn) (p : Ppn) : tableRefs m dirs p ≤ 1 := by
  unfold tableRefs
  split <;> omega

theorem tableRefs_of_not (h : ¬ IsTable m dirs p) : tableRefs m dirs p = 0 := if_neg h

theorem tableRefs_of_isTable (h : IsTable m dirs p) : tableRefs m dirs p = 1 := if_pos h

theorem tableRefs_congr {m' : Mem} (h : IsTable m' dirs p ↔ IsTable m dirs p) :
    tableRefs m' dirs p = tableRefs m dirs p := by
  by_cases hp : IsTable m dirs p
  · rw [tableRefs_of_isTable hp, tableRefs_of_isTable (h.mpr hp)]
  · rw [tableRefs_of_not hp, tableRefs_of_not (mt h.mp hp)]

/-- A mapped page is not free. -/
theorem MemInv.not_free_of_view (h : MemInv img m dirs) (hd : d ∈ dirs) (hv : view m d v = some e) :
    pte2Ppn e ∉ m.freePageList := fun hf => by
  have := leafRefs_pos hd hv
  have := (h.free _ hf).2.2
  omega

/-- A mapped page may be inserted again. -/
theorem MemInv.usable_of_view (h : MemInv img m dirs) (hd : d ∈ dirs) (hv : view m d v = some e) :
    Usable m dirs (pte2Ppn e) :=
  ⟨(h.leaf d hd v e hv).1, h.not_free_of_view hd hv, (h.leaf d hd v e hv).2.1⟩

/-- Tables lie above the image, but for the kernel's own directory. -/
theorem MemInv.above_of_isTable (h : MemInv img m dirs) (ht : IsTable m dirs t) :
    t = img.kernelPageDirectory ∨ img.Above t := by
  obtain ⟨r, hr, p, hp, hn⟩ := ht
  cases p with
  | nil =>
    obtain rfl : r = t := Option.some.inj hn
    exact h.roots r hr
  | cons i p => exact .inr (h.tables r hr (i :: p) t (by simp) hp hn)

/-- A page of a last-level table. -/
theorem MemInv.above_of_leafTable (h : MemInv img m dirs) (hd : d ∈ dirs) (ht : leafTable m d v = some t) :
    img.Above t := h.tables d hd [v.1, v.2.1] t (by simp) (by simp) ht

/-- The slots of the managed pages. -/
theorem exists_managedSlots : ∃ T : Finset (Ppn × Idx), T.card = 2 ^ 26 ∧ ∀ x, Managed x.1 → x ∈ T := by
  refine ⟨Count.pairs (Finset.Ico BASE_PPN END_PPN) Idx, ?_, fun x hx => ?_⟩
  · rw [Count.card_pairs, Nat.card_Ico, Fintype.card_fin]
    decide
  · rw [Count.mem_pairs, Finset.mem_Ico]
    exact hx

/-- There are far fewer leaf slots in use than a 32-bit count can hold: each sits in a slot of its
own of a table above the image. -/
theorem MemInv.leafRefs_le (h : MemInv img m dirs) (p : Ppn) : leafRefs m dirs p ≤ 2 ^ 26 := by
  obtain ⟨T, hT, hmem⟩ := exists_managedSlots
  let f : Ppn × Vpn → Ppn × Idx := fun x => ((leafTable m x.1 x.2).getD 0, x.2.2.2)
  rw [← hT]
  refine Count.fiber_le_card f ?_ ?_
  · intro x hS hx
    obtain ⟨e, he, -⟩ := target_eq_some_iff.mp hx
    obtain ⟨t, ht, -⟩ := leafTable_of_view he
    refine hmem _ ?_
    simp only [f, ht, Option.getD_some]
    exact (h.above_of_leafTable (mem_leafSlots.mp hS) ht).managed
  · intro x hSx y hSy hx hy hxy
    obtain ⟨ex, hex, -⟩ := target_eq_some_iff.mp hx
    obtain ⟨ey, hey, -⟩ := target_eq_some_iff.mp hy
    obtain ⟨tx, htx, -⟩ := leafTable_of_view hex
    obtain ⟨ty, hty, -⟩ := leafTable_of_view hey
    simp only [f, htx, hty, Option.getD_some, Prod.mk.injEq] at hxy
    obtain ⟨rfl, hi⟩ := hxy
    obtain ⟨hr, hp⟩ := h.sep x.1 (mem_leafSlots.mp hSx) y.1 (mem_leafSlots.mp hSy)
      [x.2.1, x.2.2.1] [y.2.1, y.2.2.1] (by simp) (by simp) tx htx hty
    obtain ⟨h1, h2, -⟩ : x.2.1 = y.2.1 ∧ x.2.2.1 = y.2.2.1 ∧ True := by simpa using hp
    exact Prod.ext hr (Prod.ext h1 (Prod.ext h2 hi))

/-- Reference counts never come near the 32-bit bound. -/
theorem MemInv.ref_le (h : MemInv img m dirs) (hp : Managed p) : (m.ref p).toNat ≤ 2 ^ 26 + 1 := by
  have hl := h.leafRefs_le p
  rcases img.kernel_or_above hp with hk | ha
  · rw [h.ref_kernel p hk]; omega
  · have := tableRefs_le_one m dirs p
    rw [h.ref_above p ha]; omega

end Facts

end Exaros
