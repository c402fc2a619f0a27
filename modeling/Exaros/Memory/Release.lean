import Exaros.Memory.Loads

/-!
# What a page directory gives back

`pgdirFree`, page by page. The counts of the forest without the directory are those of the whole forest less
its own entries and tables; with what the teardown says of the pages that reach zero, this settles the counts
and the free list exactly.
-/

namespace Exaros

section Release

variable {img : Image} {dirs : Finset Ppn} {m m' : Mem} {d p t : Ppn}

/-- The entries of one directory are counted apart. -/
theorem leafRefs_erase (m : Mem) (hd : d ∈ dirs) (p : Ppn) :
    leafRefs m dirs p = leafRefs m (dirs.erase d) p + leafRefs m {d} p :=
  Count.fiber_pairs_erase hd (target m) (some p)

/-- A table of one directory is none of another. -/
theorem MemInv.not_isTable_erase (h : MemInv img m dirs) (hd : d ∈ dirs) (ht : IsTable m {d} t) :
    ¬ IsTable m (dirs.erase d) t := by
  obtain ⟨r, hr, path, hlen, hpath⟩ := ht
  obtain rfl := Finset.mem_singleton.mp hr
  rintro ⟨r', hr', path', hlen', hpath'⟩
  obtain ⟨hne, hr'⟩ := Finset.mem_erase.mp hr'
  exact hne (h.sep r' hr' r hd path' path hlen' hlen t hpath' hpath).1

theorem isTable_of_singleton (hd : d ∈ dirs) (ht : IsTable m {d} t) : IsTable m dirs t := by
  obtain ⟨r, hr, path, hlen, hpath⟩ := ht
  obtain rfl := Finset.mem_singleton.mp hr
  exact ⟨r, hd, path, hlen, hpath⟩

theorem tableRefs_erase (hnt : ¬ IsTable m {d} p) : tableRefs m (dirs.erase d) p = tableRefs m dirs p := by
  have hiff : IsTable m (dirs.erase d) p ↔ IsTable m dirs p := by
    constructor
    · rintro ⟨r, hr, path, hlen, hpath⟩
      exact ⟨r, Finset.mem_of_mem_erase hr, path, hlen, hpath⟩
    · rintro ⟨r, hr, path, hlen, hpath⟩
      refine ⟨r, Finset.mem_erase.mpr ⟨?_, hr⟩, path, hlen, hpath⟩
      rintro rfl
      exact hnt ⟨r, Finset.mem_singleton_self r, path, hlen, hpath⟩
  by_cases hpt : IsTable m dirs p
  · rw [tableRefs_of_isTable hpt, tableRefs_of_isTable (hiff.mpr hpt)]
  · rw [tableRefs_of_not hpt, tableRefs_of_not fun ht => hpt (hiff.mp ht)]

theorem MemInv.above_of_singleton (h : MemInv img m dirs) (hd : d ∈ dirs) (hk : d ≠ img.kernelPageDirectory)
    (ht : IsTable m {d} t) : img.Above t := by
  obtain ⟨r, hr, path, hlen, hpath⟩ := ht
  rw [Finset.mem_singleton.mp hr] at hpath
  by_cases hnil : path = []
  · subst hnil
    cases Option.some.inj hpath
    exact (h.roots d hd).resolve_left hk
  · exact h.tables d hd path t hnil hlen hpath

/-- A free page counts nothing. -/
theorem MemInv.ref_of_free (h : MemInv img m dirs) (hp : p ∈ m.freePageList) : m.ref p = 0 := by
  obtain ⟨ha, hnt, hz⟩ := h.free p hp
  have href := h.ref_above p ha
  rw [hz, tableRefs_of_not hnt] at href
  exact BitVec.eq_of_toNat_eq href

/-- **Counts.** A page loses a reference for each entry of the directory that maps it. -/
theorem Gone.ref (g : Gone img dirs d m m') (h : MemInv img m dirs) (hd : d ∈ dirs) (hp : Managed p)
    (hnt : ¬ IsTable m {d} p) : (m'.ref p).toNat + leafRefs m {d} p = (m.ref p).toNat := by
  have hsplit := leafRefs_erase m hd p
  have hsame := leafRefs_congr g.view p
  rcases img.kernel_or_above hp with hk | ha
  · rw [g.inv.ref_kernel p hk, h.ref_kernel p hk, hsame]
    omega
  · rw [g.inv.ref_above p ha, h.ref_above p ha, hsame, g.tables.tableRefs, tableRefs_erase hnt]
    omega

/-- **Tables.** The directory and its tables are free, and were not. -/
theorem Gone.freed (g : Gone img dirs d m m') (h : MemInv img m dirs) (hd : d ∈ dirs) (hk : d ≠ img.kernelPageDirectory)
    (ht : IsTable m {d} t) : m'.ref t = 0 ∧ t ∉ m.freePageList ∧ t ∈ m'.freePageList := by
  have ha := h.above_of_singleton hd hk ht
  have htab := isTable_of_singleton hd ht
  have hone := h.ref_table htab ha
  have hleaf : leafRefs m dirs t = 0 := leafRefs_eq_zero.mpr fun d' hd' v e hv hpe =>
    (h.leaf d' hd' v e hv).2.1 (hpe ▸ htab)
  have hzero : m'.ref t = 0 := by
    refine BitVec.eq_of_toNat_eq ?_
    have hsplit := leafRefs_erase m hd t
    rw [g.inv.ref_above t ha, leafRefs_congr g.view, g.tables.tableRefs, tableRefs_of_not (h.not_isTable_erase hd ht)]
    show _ = 0
    omega
  refine ⟨hzero, h.not_free_of_isTable htab, ?_⟩
  by_contra hnf
  have hidle := (g.back.idle t ⟨hnf, hzero⟩).2
  rw [hone] at hidle
  cases hidle

/-- **Data pages.** A page the directory maps is free just when nothing counts it any more. -/
theorem Gone.free_iff (g : Gone img dirs d m m') (h : MemInv img m dirs) (hd : d ∈ dirs) {v : Vpn} {e : Pte}
    (hv : Exaros.view m d v = some e) : pte2Ppn e ∈ m'.freePageList ↔ m'.ref (pte2Ppn e) = 0 := by
  constructor
  · exact g.inv.ref_of_free
  · intro hzero
    by_contra hnf
    have hpos := h.ref_pos hd hv
    rw [(g.back.idle _ ⟨hnf, hzero⟩).2] at hpos
    cases hpos

/-- **Nothing else** joins the free list. -/
theorem Gone.of_fresh (g : Gone img dirs d m m') (h : MemInv img m dirs) (hd : d ∈ dirs) (hp : p ∈ m'.freePageList)
    (hnf : p ∉ m.freePageList) : IsTable m {d} p ∨ ∃ v, target m (d, v) = some p := by
  by_contra hnone
  rw [not_or] at hnone
  have hmapped : leafRefs m {d} p = 0 := leafRefs_eq_zero.mpr fun r hr v e hv hpe => by
    obtain rfl := Finset.mem_singleton.mp hr
    exact hnone.2 ⟨v, target_eq_some_iff.mpr ⟨e, hv, hpe⟩⟩
  have href := g.ref h hd (g.inv.free p hp).1.managed hnone.1
  rw [hmapped, g.inv.ref_of_free hp] at href
  exact (g.back.fresh p hp).elim hnf fun hne => hne (BitVec.eq_of_toNat_eq href.symm)

/-- `pgdirFree` returns, and takes from each page one reference for every entry of the directory that maps
it. The directory and its tables join the free list, each once, and of the data pages just those that nothing
counts any more. Other directories translate as before. -/
theorem pgdirFree_gives_back (h : MemInv img m dirs) (hd : d ∈ dirs) (hk : d ≠ img.kernelPageDirectory) :
    ∃ m', pgdirFree d m = .ok m' ∧
      (∀ p, Managed p → ¬ IsTable m {d} p → (m'.ref p).toNat + leafRefs m {d} p = (m.ref p).toNat) ∧
      (∀ t, IsTable m {d} t → m'.ref t = 0 ∧ m.freePageList.count t = 0 ∧ m'.freePageList.count t = 1) ∧
      (∀ v p, target m (d, v) = some p → (p ∈ m'.freePageList ↔ m'.ref p = 0)) ∧
      (∀ p, p ∈ m'.freePageList → p ∈ m.freePageList ∨ IsTable m {d} p ∨ ∃ v, target m (d, v) = some p) ∧
      m.freePageList ⊆ m'.freePageList ∧ m'.freePageList.Nodup ∧
      ∀ d' ∈ dirs, d' ≠ d → ∀ v, view m' d' v = view m d' v := by
  obtain ⟨m', hrun, g⟩ := h.pgdirFree hd hk
  refine ⟨m', hrun, fun p hp hnt => g.ref h hd hp hnt, fun t ht => ?_, fun v p hv => ?_, fun p hp => ?_, g.back.free,
    g.inv.free_nodup, fun d' hd' hne v => g.view d' (Finset.mem_erase.mpr ⟨hne, hd'⟩) v⟩
  · obtain ⟨hzero, hnf, hf⟩ := g.freed h hd hk ht
    exact ⟨hzero, List.count_eq_zero.mpr hnf, List.count_eq_one_of_mem g.inv.free_nodup hf⟩
  · obtain ⟨e, hview, rfl⟩ := target_eq_some_iff.mp hv
    exact g.free_iff h hd hview
  · by_cases hnf : p ∈ m.freePageList
    · exact .inl hnf
    · exact .inr (g.of_fresh h hd hp hnf)

end Release

/-- A directory that maps one page of its own: both pages are free again. -/
theorem pgdirFree_gives_back_page : ∃ dirs d y m m', MemInv Image.sample m dirs ∧ target m (d, vpn 0x1000) = some y ∧
    pgdirFree d m = .ok m' ∧ m'.freePageList.count d = 1 ∧ (y ∈ m'.freePageList ↔ m'.ref y = 0) := by
  obtain ⟨dirs, d, m, hinv, hd, hne, hlen, -⟩ := exists_emptyProcess
  obtain ⟨y, rest, hf⟩ := List.exists_cons_of_length_pos (Nat.lt_of_lt_of_le (by decide : 0 < 100) hlen)
  have hperm : PermOk (PTE_READ_BIT ||| PTE_WRITE_BIT) := by decide
  rcases hinv.insertFresh hd 0x1000 (pageAlloc_cons hf) (fun _ => 0) hperm with ⟨m', -, hfill, -⟩ | ⟨m', -, -, -, hlt⟩
  · have hown := hfill.change.inv
    have hmap : target m' (d, vpn 0x1000) = some y := by
      refine target_eq_some_iff.mpr ⟨_, hfill.change.view_self hd, pte2Ppn_touchPte ?_ hperm⟩
      exact (hinv.free y (hf ▸ List.mem_cons_self)).1.managed
    obtain ⟨m'', hrun, -, htables, hdata, -⟩ := pgdirFree_gives_back hown hd hne
    have hroot : IsTable m' {d} d := isTable_root (Finset.mem_singleton_self d)
    exact ⟨dirs, d, y, m', m'', hown, hmap, hrun, (htables d hroot).2.2, hdata _ _ hmap⟩
  · omega

end Exaros
