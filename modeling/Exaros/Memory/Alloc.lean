import Exaros.Memory.Ops

/-!
# Taking and giving back pages

Specifications of the functions that move pages off and onto `freePageList`: `pageAlloc` and its
callers `kmalloc`, `allocPgdir` and `cowHandler`, and `pageFree` through `kfree`. A new page directory
joins the forest as an empty root; `cowHandler` is an allocation, a copy and a `pageInsert`.
-/

namespace Exaros

/-- What `pageAlloc` does: a free page is taken and cleared. -/
structure Taken (img : Image) (dirs : Finset Ppn) (p : Ppn) (m m' : Mem) : Prop where
  inv : MemInv img m' dirs
  above : img.Above p
  free : m.freePageList = p :: m'.freePageList
  ref : m'.ref = m.ref
  ram : ∀ q, q ≠ p → m'.ram q = m.ram q
  cleared : ∀ i, m'.ram p i = 0
  tables : SameTables m m' dirs
  view : ∀ d ∈ dirs, ∀ v, view m' d v = view m d v
  usable : Usable m' dirs p
  unmapped : ∀ d ∈ dirs, ∀ v e, Exaros.view m d v = some e → pte2Ppn e ≠ p

section Taken

variable {img : Image} {dirs : Finset Ppn} {m m' : Mem} {d p q : Ppn}

theorem MemInv.taken (h : MemInv img m dirs) (ha : pageAlloc m = some (p, m')) : Taken img dirs p m m' := by
  obtain ⟨rest, hf, rfl⟩ := pageAlloc_eq_some ha
  have hmem : p ∈ m.freePageList := by rw [hf]; exact List.mem_cons_self ..
  obtain ⟨hab, hnt, hz⟩ := h.free p hmem
  have hnodup := h.free_nodup
  rw [hf] at hnodup
  have hram : ∀ q, q ≠ p → ({ m with freePageList := rest }.setPage p fun _ => 0).ram q = m.ram q :=
    fun q hq => by simp [Mem.setPage, hq]
  have hst := sameTables_fill hnt hram
  refine ⟨?_, hab, hf, rfl, hram, ?_, hst, ?_, ?_, ?_⟩
  · refine h.data hnt hram rfl ?_
    rw [hf]
    exact List.sublist_cons_self p rest
  · intro i
    simp [Mem.setPage]
  · exact fun d hd v => view_fill hnt hram hd v
  · exact ⟨hab.managed, (List.nodup_cons.mp hnodup).1, mt (hst.isTable p).mp hnt⟩
  · intro d hd v e hv hpe
    exact h.not_free_of_view hd hv (hpe ▸ hmem)

theorem Taken.mem (t : Taken img dirs p m m') : p ∈ m.freePageList := by
  rw [t.free]
  exact List.mem_cons_self ..

/-- Only the page taken becomes idle. -/
theorem Taken.idle (t : Taken img dirs p m m') (q : Ppn) (h : Idle m' q) : q = p ∨ Idle m q := by
  by_cases hq : q = p
  · exact .inl hq
  · refine .inr ⟨?_, t.ref ▸ h.2⟩
    rw [t.free]
    exact fun hmem => (List.mem_cons.mp hmem).elim hq h.1

/-- A page nothing refers to may go back on the list; any other is left alone by `pageFree`. -/
theorem MemInv.pageFree (h : MemInv img m dirs) (hp : Managed p) (hf : p ∉ m.freePageList) :
    MemInv img (pageFree p m).2 dirs := by
  unfold Exaros.pageFree
  split
  · rename_i h0
    have hab : img.Above p := by
      rcases img.kernel_or_above hp with hk | ha
      · have := h.ref_kernel p hk
        rw [h0] at this
        simp at this
      · exact ha
    have href := h.ref_above p hab
    rw [h0] at href
    have hnt : ¬ IsTable m dirs p := fun ht => by
      rw [tableRefs_of_isTable ht] at href
      simp at href
    have hz : leafRefs m dirs p = 0 := by
      simp at href
      omega
    refine ⟨h.kernelDir, h.roots, h.sep, h.tables, h.leaf, List.nodup_cons.mpr ⟨hf, h.free_nodup⟩, ?_,
      h.ref_above, h.ref_kernel⟩
    intro q hq
    rcases List.mem_cons.mp hq with rfl | hq
    · exact ⟨hab, hnt, hz⟩
    · exact h.free q hq
  · exact h

end Taken

/-! ## A new page directory -/

/-- What `allocPgdir` does: a free page becomes an empty directory. -/
structure NewDir (img : Image) (dirs : Finset Ppn) (p : Ppn) (m m' : Mem) : Prop where
  inv : MemInv img m' (insert p dirs)
  above : img.Above p
  free : m.freePageList = p :: m'.freePageList
  ram : ∀ q, q ≠ p → m'.ram q = m.ram q
  fresh : p ∉ dirs
  view : ∀ d ∈ dirs, ∀ v, view m' d v = view m d v
  empty : ∀ v, Exaros.view m' p v = none
  isTable : ∀ t, IsTable m' (insert p dirs) t ↔ IsTable m dirs t ∨ t = p
  idle : ∀ p, Idle m' p → Idle m p

section NewDir

variable {img : Image} {dirs : Finset Ppn} {m m' : Mem} {d p : Ppn}

/-- An empty page has no table below it. -/
theorem tableAt_empty (hz : ∀ i, m.ram p i = 0) {path : List Idx} (hp : path ≠ []) : tableAt m p path = none := by
  cases path with
  | nil => exact absurd rfl hp
  | cons i is =>
    unfold tableAt
    rw [Radix.node_cons, hz i, decodePte_zero, Option.bind_none]

/-- A directory with no entries adds no references. -/
theorem leafRefs_insert_empty (hz : ∀ v, view m d v = none) (p : Ppn) :
    leafRefs m (insert d dirs) p = leafRefs m dirs p := by
  refine Count.fiber_subset ?_ ?_
  · intro x hx
    exact mem_leafSlots.mpr (Finset.mem_insert_of_mem (mem_leafSlots.mp hx))
  · intro x hx hn
    have hxd : x.1 = d := by
      rcases Finset.mem_insert.mp (mem_leafSlots.mp hx) with h | h
      · exact h
      · exact absurd (mem_leafSlots.mpr h) hn
    unfold target
    rw [hxd, hz x.2]
    simp

/-- A page directory just allocated maps nothing. -/
theorem MemInv.newDir (h : MemInv img m dirs) (ha : allocPgdir m = some (p, m')) :
    NewDir img dirs p m m' := by
  obtain ⟨⟨q, m₁⟩, hpa, heq⟩ := Option.map_eq_some_iff.mp ha
  obtain ⟨rfl, rfl⟩ := Prod.mk.inj heq
  have t := h.taken hpa
  have hnt : ¬ IsTable m₁ dirs q := t.usable.2.2
  have hfresh : q ∉ dirs := fun hq => hnt (isTable_root hq)
  have hz : leafRefs m₁ dirs q = 0 :=
    leafRefs_eq_zero.mpr fun d hd v e hv => t.unmapped d hd v e ((t.view d hd v).symm.trans hv)
  have hempty : ∀ v, Exaros.view m₁ q v = none := by
    intro v
    unfold Exaros.view
    cases hv : Radix.entry decodePte m₁.ram q [v.1, v.2.1] v.2.2 with
    | none => rfl
    | some e =>
      obtain ⟨u, hu, -⟩ := (Radix.entry_eq_some_iff decodePte).mp hv
      have : tableAt m₁ q [v.1, v.2.1] = none := tableAt_empty t.cleared (by simp)
      unfold tableAt at this
      rw [this] at hu
      cases hu
  have hroot : ∀ path u, tableAt m₁ q path = some u → path = [] ∧ u = q := by
    intro path u hu
    cases path with
    | nil => exact ⟨rfl, (Option.some.inj hu).symm⟩
    | cons i is => rw [tableAt_empty t.cleared (by simp)] at hu; cases hu
  have htab : ∀ u, IsTable m₁ (insert q dirs) u ↔ IsTable m dirs u ∨ u = q := by
    intro u
    rw [← t.tables.isTable u]
    constructor
    · rintro ⟨r, hr, path, hp, hn⟩
      rcases Finset.mem_insert.mp hr with rfl | hr
      · exact .inr (hroot path u hn).2
      · exact .inl ⟨r, hr, path, hp, hn⟩
    · rintro (⟨r, hr, path, hp, hn⟩ | rfl)
      · exact ⟨r, Finset.mem_insert_of_mem hr, path, hp, hn⟩
      · exact isTable_root (Finset.mem_insert_self ..)
  have hrefs : ∀ u, leafRefs m₁ (insert q dirs) u = leafRefs m₁ dirs u := leafRefs_insert_empty hempty
  have hinv : MemInv img (m₁.incRef q) (insert q dirs) := by
    refine ⟨Finset.mem_insert_of_mem h.kernelDir, ?_, ?_, ?_, ?_, t.inv.free_nodup, ?_, ?_, ?_⟩
    · intro r hr
      rcases Finset.mem_insert.mp hr with rfl | hr
      · exact .inr t.above
      · exact h.roots r hr
    · intro r hr r' hr' path path' hp hp' u hu hu'
      rcases Finset.mem_insert.mp hr with rfl | h₁ <;> rcases Finset.mem_insert.mp hr' with rfl | h₂
      · exact ⟨rfl, (hroot path u hu).1.trans (hroot path' u hu').1.symm⟩
      · obtain ⟨-, rfl⟩ := hroot path u hu
        exact absurd ⟨r', h₂, path', hp', hu'⟩ hnt
      · obtain ⟨-, rfl⟩ := hroot path' u hu'
        exact absurd ⟨r, h₁, path, hp, hu⟩ hnt
      · exact t.inv.sep r h₁ r' h₂ path path' hp hp' u hu hu'
    · intro r hr path u hp hl hu
      rcases Finset.mem_insert.mp hr with rfl | hr
      · exact absurd (hroot path u hu).1 hp
      · exact t.inv.tables r hr path u hp hl hu
    · intro r hr v e hv
      rcases Finset.mem_insert.mp hr with rfl | hr
      · rw [view_incRef, hempty v] at hv
        cases hv
      · rw [view_incRef, t.view r hr v] at hv
        obtain ⟨h1, h2, h3⟩ := h.leaf r hr v e hv
        refine ⟨h1, fun ht => ?_, h3⟩
        rcases (htab _).mp ht with ht | ht
        · exact h2 ht
        · exact t.unmapped r hr v e hv ht
    · intro u hu
      obtain ⟨h1, h2, h3⟩ := t.inv.free u hu
      refine ⟨h1, fun ht => ?_, ?_⟩
      · rcases (htab _).mp ht with ht | rfl
        · exact h2 ((t.tables.isTable u).mpr ht)
        · exact t.usable.2.1 hu
      · exact (hrefs u).trans h3
    · intro u hu
      have hold := t.inv.ref_above u hu
      have hleaf : leafRefs (m₁.incRef q) (insert q dirs) u = leafRefs m₁ dirs u := hrefs u
      rw [hleaf]
      by_cases huq : u = q
      · subst huq
        have h1 : tableRefs (m₁.incRef u) (insert u dirs) u = 1 :=
          tableRefs_of_isTable (isTable_root (Finset.mem_insert_self ..))
        have hle := t.inv.ref_le hu.managed
        rw [tableRefs_of_not hnt] at hold
        simp only [Mem.incRef, if_true]
        simp only [Mem.incRef] at h1
        rw [toNat_add_one hle, h1]
        omega
      · have hiff : IsTable (m₁.incRef q) (insert q dirs) u ↔ IsTable m₁ dirs u := by
          have : IsTable m₁ (insert q dirs) u ↔ IsTable m₁ dirs u := by
            rw [htab u, t.tables.isTable u]
            simp [huq]
          exact this
        have htr : tableRefs (m₁.incRef q) (insert q dirs) u = tableRefs m₁ dirs u := by
          by_cases hu' : IsTable m₁ dirs u
          · rw [tableRefs_of_isTable hu', tableRefs_of_isTable (hiff.mpr hu')]
          · rw [tableRefs_of_not hu', tableRefs_of_not (mt hiff.mp hu')]
        rw [htr, ← hold]
        simp [Mem.incRef, huq]
    · intro u hu
      have huq : u ≠ q := by
        rintro rfl
        exact Image.not_above_of_kernel hu t.above
      have hold := t.inv.ref_kernel u hu
      have hleaf : leafRefs (m₁.incRef q) (insert q dirs) u = leafRefs m₁ dirs u := hrefs u
      rw [hleaf, ← hold]
      simp [Mem.incRef, huq]
  refine ⟨hinv, t.above, t.free, t.ram, hfresh, t.view, hempty, htab, fun u hu => ?_⟩
  have huq : u ≠ q := by
    rintro rfl
    have hone := hinv.ref_above u t.above
    rw [tableRefs_of_isTable (isTable_root (Finset.mem_insert_self ..)), hu.2] at hone
    simp at hone
  have hu₁ : Idle m₁ u := ⟨hu.1, by simpa [Mem.incRef, huq] using hu.2⟩
  exact (t.idle u hu₁).resolve_left huq

end NewDir

/-! ## Copy on write -/

/-- The permissions `cowHandler` gives the copy. -/
def cowPerm (e : Pte) : Pte := (pte2Perm e ||| PTE_WRITE_BIT) &&& ~~~ PTE_COW_BIT

/-- What `cowHandler` does: the virtual page `v`, a copy-on-write entry `e` before, maps the page `y`
that was free and now holds a copy. -/
structure Copied (img : Image) (dirs : Finset Ppn) (d : Ppn) (v : Vpn) (e : Pte) (y : Ppn) (m m' : Mem) :
    Prop where
  old : view m d v = some e
  cow : pteHas e PTE_COW_BIT = true
  inv : MemInv img m' dirs
  mem : y ∈ m.freePageList
  view : ∀ d' ∈ dirs, ∀ v', Exaros.view m' d' v' =
    if d' = d ∧ v' = v then some (touchPte y (cowPerm e)) else Exaros.view m d' v'
  isTable : ∀ t, IsTable m' dirs t → IsTable m dirs t ∨ (t ∈ m.freePageList ∧ t ≠ y)
  mono : ∀ d ∈ dirs, ∀ p t, p.length ≤ 2 → tableAt m d p = some t → tableAt m' d p = some t
  free : ∀ p ∈ m'.freePageList, (p ∈ m.freePageList ∧ p ≠ y) ∨ p = pte2Ppn e
  data : ∀ p, p ≠ y → ¬ IsTable m' dirs p → m'.ram p = m.ram p
  copy : m'.ram y = m.ram (pte2Ppn e)
  idle : ∀ p, Idle m' p → Idle m p

section Cow

variable {img : Image} {dirs : Finset Ppn} {m m' : Mem} {d : Ppn} {va pa : Nat} {e : Pte}

theorem permOk_cowPerm (e : Pte) : PermOk (cowPerm e) :=
  ((permOk_pte2Perm e).or (permOk_bit (by omega))).and _

/-- `cowHandler` on a copy-on-write entry: an allocation, a copy and an insertion. -/
theorem cowHandler_eq {t y : Ppn} {m₁ : Mem} (hl : pageLookup d va m = .ok (some (pte2Ppn e, (t, vaPpn va 0))))
    (hread : m.read (t, vaPpn va 0) = e) (hread₁ : (m₁.setPage y (m₁.ram (pte2Ppn e))).read (t, vaPpn va 0) = e)
    (hcow : pteHas e PTE_COW_BIT = true) (ha : pageAlloc m = some (y, m₁)) :
    cowHandler d va m = do
      let (_, m') ← pageInsert d va y (cowPerm e) (m₁.setPage y (m₁.ram (pte2Ppn e)))
      return (pte2Ppn e <<< PAGE_SHIFT + vaOffset va, m') := by
  unfold cowHandler
  rw [hl]
  simp only [bind, Except.bind, hread, hcow, ha, hread₁, Bool.not_true, Bool.false_eq_true, if_false]
  rfl

/-- **`cowHandler`.** When it returns, the entry was copy-on-write and now maps a private copy. -/
theorem MemInv.cowHandler (h : MemInv img m dirs) (hd : d ∈ dirs)
    (hok : cowHandler d va m = .ok (pa, m')) : ∃ e y, Copied img dirs d (vpn va) e y m m' := by
  cases hv : view m d (vpn va) with
  | none =>
    unfold Exaros.cowHandler at hok
    rw [pageLookup_none hv] at hok
    cases hok
  | some e =>
    obtain ⟨t, ht, hread, hl⟩ := h.pageLookup_some hd hv
    cases hcow : pteHas e PTE_COW_BIT with
    | false =>
      unfold Exaros.cowHandler at hok
      rw [hl] at hok
      simp only [bind, Except.bind, hread, hcow, Bool.not_false, if_true] at hok
      cases hok
    | true =>
      cases ha : pageAlloc m with
      | none =>
        unfold Exaros.cowHandler at hok
        rw [hl] at hok
        simp only [bind, Except.bind, hread, hcow, ha, Bool.not_true, Bool.false_eq_true, if_false] at hok
        cases hok
      | some r =>
        obtain ⟨y, m₁⟩ := r
        have tk := h.taken ha
        set m₂ := m₁.setPage y (m₁.ram (pte2Ppn e)) with hm₂
        have hram₂ : ∀ q, q ≠ y → m₂.ram q = m₁.ram q := fun q hq => by simp [hm₂, Mem.setPage, hq]
        have hnt₁ : ¬ IsTable m₁ dirs y := tk.usable.2.2
        have hinv₂ : MemInv img m₂ dirs := tk.inv.data hnt₁ hram₂ rfl (List.Sublist.refl _)
        have hst₂ := sameTables_fill hnt₁ hram₂
        have hview₂ : ∀ d' ∈ dirs, ∀ v', view m₂ d' v' = view m d' v' := fun d' hd' v' =>
          (view_fill hnt₁ hram₂ hd' v').trans (tk.view d' hd' v')
        have hne : pte2Ppn e ≠ y := tk.unmapped d hd _ e hv
        have hread₂ : m₂.read (t, vaPpn va 0) = e := by
          have hty : t ≠ y := by
            rintro rfl
            exact (h.free t tk.mem).2.1 (isTable_of_leafTable hd ht)
          unfold Mem.read
          rw [hram₂ t hty, tk.ram t hty]
          exact hread
        have hus : Usable m₂ dirs y := ⟨tk.usable.1, tk.usable.2.1, mt (hst₂.isTable y).mp hnt₁⟩
        have hlt₂ : leafTable m₂ d (vpn va) = some t :=
          (hst₂.leafTable hd _).trans ((tk.tables.leafTable hd _).trans ht)
        rw [cowHandler_eq hl hread hread₂ hcow ha] at hok
        rcases hinv₂.pageInsert hd va hus (permOk_cowPerm e) with
          ⟨m₃, hi, hr, -⟩ | ⟨m₃, hi, -, hno, -⟩
        · rw [hi] at hok
          cases hok
          have hmy : y ∈ m.freePageList := tk.mem
          have hsub : ∀ p ∈ m₁.freePageList, p ∈ m.freePageList ∧ p ≠ y := fun p hp => by
            refine ⟨?_, fun hpy => tk.usable.2.1 (hpy ▸ hp)⟩
            rw [tk.free]
            exact List.mem_cons_of_mem _ hp
          have hnt₃ : ¬ IsTable m' dirs y := hr.not_isTable hus.2.1 hus.2.2
          refine ⟨e, y, hv, hcow, hr.inv, hmy, ?_, ?_, ?_, ?_, ?_, ?_, ?_⟩
          · intro d' hd' v'
            rw [hr.view d' hd' v', hview₂ d' hd' v']
          · intro u hu
            rcases hr.isTable u hu with hu | hu
            · exact .inl ((tk.tables.isTable u).mp ((hst₂.isTable u).mp hu))
            · exact .inr (hsub u hu)
          · intro d' hd' p u hp hu
            exact hr.mono d' hd' p u hp ((hst₂ d' hd' p hp).trans ((tk.tables d' hd' p hp).trans hu))
          · intro p hp
            rcases hr.free p hp with hp | hp
            · exact .inl (hsub p hp)
            · obtain ⟨e', he', hpe⟩ := target_eq_some_iff.mp hp
              rw [hview₂ d hd, hv] at he'
              cases he'
              exact .inr hpe.symm
          · intro p hpy hnt
            rw [hr.data p hnt, hram₂ p hpy, tk.ram p hpy]
          · rw [hr.data y hnt₃]
            simp only [hm₂, Mem.setPage, if_true]
            exact tk.ram _ hne
          · intro p hp
            rcases tk.idle p (hr.idle p hp) with rfl | hp'
            · -- the copy is mapped by now
              have hpos := hr.inv.ref_pos hd (hr.view_self hd)
              rw [pte2Ppn_touchPte tk.usable.1 (permOk_cowPerm e), hp.2] at hpos
              exact absurd hpos (by simp)
            · exact hp'
        · rw [hlt₂] at hno
          cases hno

end Cow

end Exaros
