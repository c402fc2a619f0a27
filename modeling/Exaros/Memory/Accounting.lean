import Exaros.Lib.Run
import Exaros.Memory.Alloc

/-!
# Physical page accounting, and page tables as finite maps

The memory functions as a transition system: any of them, in any order, over any number of page
directories, from the state `freePageInit` leaves. `held` is the only thing added to the memory of the
source: the pages `pageAlloc` and `kmalloc` handed out that are neither mapped nor given back yet,
which is what a caller may pass to `pageInsert`.

Two results hold of every state reached: the reference counts are exact (`page_accounting`), and
lookup, insertion and removal are those of a finite map per directory (`pageTable_refines_map`).

**What it does not establish.** What the pages hold, and anything of a second hart.
-/

namespace Exaros

/-- Memory, the page directories in use, and the pages in their owners' hands. -/
structure MemState where
  mem : Mem
  dirs : Finset Ppn
  held : Finset Ppn

/-- `freePageInit` over memory whose kernel page directory is still empty. -/
def MemInit (img : Image) (s : MemState) : Prop :=
  ∃ ram : Ppn → Idx → BitVec 64, (∀ i, ram img.kernelPageDirectory i = 0) ∧
    s = { mem := freePageInit img ram, dirs := {img.kernelPageDirectory}, held := ∅ }

/-- A page an insertion may be given: obtained from `pageAlloc`, currently mapped, or a page of the
image other than the kernel's directory. -/
def MemState.Insertable (img : Image) (s : MemState) (pp : Ppn) : Prop :=
  pp ∈ s.held ∨ (∃ d ∈ s.dirs, ∃ v, target s.mem (d, v) = some pp) ∨
    (img.Kernel pp ∧ pp ≠ img.kernelPageDirectory)

/-- One call of a memory function, or a store to a page that is no table. -/
inductive MemStep (img : Image) : MemState → MemState → Prop
  | pageAlloc {m m' : Mem} {dirs held : Finset Ppn} {p : Ppn} (h : pageAlloc m = some (p, m')) :
    MemStep img ⟨m, dirs, held⟩ ⟨m', dirs, insert p held⟩
  | allocPgdir {m m' : Mem} {dirs held : Finset Ppn} {p : Ppn} (h : allocPgdir m = some (p, m')) :
    MemStep img ⟨m, dirs, held⟩ ⟨m', insert p dirs, held⟩
  | pageWalk {m : Mem} {dirs held : Finset Ppn} {d : Ppn} (va : Nat) (hd : d ∈ dirs) :
    MemStep img ⟨m, dirs, held⟩ ⟨(pageWalk d va true m).2, dirs, held⟩
  | pageInsert {m m' : Mem} {dirs held : Finset Ppn} {d pp : Ppn} {va : Nat} {perm : Pte} (hd : d ∈ dirs)
    (hp : MemState.Insertable img ⟨m, dirs, held⟩ pp) (hperm : PermOk perm)
    (h : pageInsert d va pp perm m = .ok (0, m')) : MemStep img ⟨m, dirs, held⟩ ⟨m', dirs, held.erase pp⟩
  | pageInsertFail {m m' : Mem} {dirs held : Finset Ppn} {d pp : Ppn} {va : Nat} {perm : Pte} {r : Int}
    (hd : d ∈ dirs) (hp : MemState.Insertable img ⟨m, dirs, held⟩ pp) (hperm : PermOk perm) (hr : r ≠ 0)
    (h : pageInsert d va pp perm m = .ok (r, m')) : MemStep img ⟨m, dirs, held⟩ ⟨m', dirs, held⟩
  | pageRemove {m m' : Mem} {dirs held : Finset Ppn} {d : Ppn} {va : Nat} {r : Int} (hd : d ∈ dirs)
    (h : pageRemove d va m = .ok (r, m')) : MemStep img ⟨m, dirs, held⟩ ⟨m', dirs, held⟩
  | kmalloc {m m' : Mem} {dirs held : Finset Ppn} {size : Int} {p : Ppn}
    (h : kmalloc size m = .ok (p, m')) : MemStep img ⟨m, dirs, held⟩ ⟨m', dirs, insert p held⟩
  | kfree {m m' : Mem} {dirs held : Finset Ppn} {pa : Ppn} (hp : pa ∈ held)
    (h : kfree pa m = .ok m') : MemStep img ⟨m, dirs, held⟩ ⟨m', dirs, held.erase pa⟩
  | cowHandler {m m' : Mem} {dirs held : Finset Ppn} {d : Ppn} {va pa : Nat} (hd : d ∈ dirs)
    (h : cowHandler d va m = .ok (pa, m')) : MemStep img ⟨m, dirs, held⟩ ⟨m', dirs, held⟩
  | store {m : Mem} {dirs held : Finset Ppn} {p : Ppn} (f : Idx → BitVec 64) (hp : ¬ IsTable m dirs p) :
    MemStep img ⟨m, dirs, held⟩ ⟨m.setPage p f, dirs, held⟩

/-- The states of memory the modelled functions can reach. -/
def MemReach (img : Image) : MemState → Prop := Run.Reach (MemInit img) (MemStep img)

/-- Nothing maps the page. -/
def Unmapped (m : Mem) (dirs : Finset Ppn) (p : Ppn) : Prop :=
  ∀ d ∈ dirs, ∀ v e, view m d v = some e → pte2Ppn e ≠ p

/-- The invariant of the runs: `MemInv`, and `held` is exactly the idle pages above the image. -/
structure MemStateInv (img : Image) (s : MemState) : Prop where
  mem : MemInv img s.mem s.dirs
  held : ∀ p ∈ s.held, img.Above p ∧ Usable s.mem s.dirs p ∧ Unmapped s.mem s.dirs p
  idle : ∀ p, img.Above p → Idle s.mem p → p ∈ s.held

/-! ## The initial state -/

theorem mem_pagesDown {k p n : Nat} : p ∈ pagesDown k n ↔ k ≤ p ∧ p < n := by
  induction n with
  | zero => simp [pagesDown]
  | succ n ih =>
    unfold pagesDown
    split
    · rw [List.mem_cons, ih]
      omega
    · simp only [List.not_mem_nil, false_iff]
      omega

theorem pagesDown_succ {k n : Nat} (h : k ≤ n) : pagesDown k (n + 1) = n :: pagesDown k n := if_pos h

theorem nodup_pagesDown (k n : Nat) : (pagesDown k n).Nodup := by
  induction n with
  | zero => simp [pagesDown]
  | succ n ih =>
    unfold pagesDown
    split
    · refine List.nodup_cons.mpr ⟨fun h => ?_, ih⟩
      have := mem_pagesDown.mp h
      omega
    · exact List.nodup_nil

/-- `freePageInit` establishes the invariant. -/
theorem memStateInv_init {img : Image} {s : MemState} (h : MemInit img s) : MemStateInv img s := by
  obtain ⟨ram, hz, rfl⟩ := h
  set m := freePageInit img ram
  set k := img.kernelPageDirectory
  have hk : img.Kernel k := img.kernelPageDirectory_mem
  have hroot : ∀ path t, tableAt m k path = some t → path = [] ∧ t = k := by
    intro path t ht
    cases path with
    | nil => exact ⟨rfl, (Option.some.inj ht).symm⟩
    | cons i is => rw [tableAt_empty hz (by simp)] at ht; cases ht
  have htab : ∀ t, IsTable m {k} t ↔ t = k := by
    intro t
    constructor
    · rintro ⟨r, hr, path, -, hn⟩
      rw [Finset.mem_singleton.mp hr] at hn
      exact (hroot path t hn).2
    · rintro rfl
      exact isTable_root (Finset.mem_singleton_self _)
  have hview : ∀ d ∈ ({k} : Finset Ppn), ∀ v, view m d v = none := by
    intro d hd v
    rw [Finset.mem_singleton.mp hd]
    cases hv : view m k v with
    | none => rfl
    | some e =>
      obtain ⟨t, ht, -⟩ := leafTable_of_view hv
      exact absurd (hroot _ t ht).1 (by simp)
  have hzero : ∀ p, leafRefs m {k} p = 0 := fun p =>
    leafRefs_eq_zero.mpr fun d hd v e hv => by rw [hview d hd v] at hv; cases hv
  have habove : ∀ p, img.Above p → ¬ IsTable m {k} p := fun p hp ht => by
    rw [htab] at ht
    exact Image.not_above_of_kernel hk (ht ▸ hp)
  have hfree : ∀ p, p ∈ m.freePageList ↔ img.Above p := fun p => mem_pagesDown
  refine ⟨⟨Finset.mem_singleton_self _, ?_, ?_, ?_, ?_, nodup_pagesDown _ _, ?_, ?_, ?_⟩, ?_, ?_⟩
  · intro d hd
    exact .inl (Finset.mem_singleton.mp hd)
  · intro r hr r' hr' p p' _ _ t ht ht'
    obtain rfl := Finset.mem_singleton.mp hr
    obtain rfl := Finset.mem_singleton.mp hr'
    exact ⟨rfl, (hroot p t ht).1.trans (hroot p' t ht').1.symm⟩
  · intro d hd p t hp _ ht
    obtain rfl := Finset.mem_singleton.mp hd
    exact absurd (hroot p t ht).1 hp
  · intro d hd v e hv
    rw [hview d hd v] at hv
    cases hv
  · intro p hp
    exact ⟨(hfree p).mp hp, habove p ((hfree p).mp hp), hzero p⟩
  · intro p hp
    have : m.ref p = 0 := if_neg (Nat.not_lt.mpr hp.1)
    rw [this, hzero p, tableRefs_of_not (habove p hp)]
    rfl
  · intro p hp
    have : m.ref p = 1 := if_pos hp.2
    rw [this, hzero p]
    rfl
  · intro p hp
    simp at hp
  · intro p hp hi
    exact absurd ((hfree p).mpr hp) hi.1

theorem length_pagesDown (k n : Nat) : (pagesDown k n).length = n - k := by
  induction n with
  | zero => simp [pagesDown]
  | succ n ih =>
    unfold pagesDown
    split
    · rw [List.length_cons, ih]
      omega
    · simp only [List.length_nil]
      omega

/-! ## Every step keeps the invariant -/

section Step

variable {img : Image} {s s' : MemState} {p : Ppn} {m' : Mem}

theorem MemStateInv.usable (h : MemStateInv img s) (hp : s.Insertable img p) : Usable s.mem s.dirs p := by
  rcases hp with hp | ⟨d, hd, v, hv⟩ | ⟨hk, hne⟩
  · exact (h.held p hp).2.1
  · obtain ⟨e, he, rfl⟩ := target_eq_some_iff.mp hv
    exact h.mem.usable_of_view hd he
  · refine ⟨hk.managed, fun hf => ?_, fun ht => ?_⟩
    · exact Image.not_above_of_kernel hk (h.mem.free p hf).1
    · rcases h.mem.above_of_isTable ht with h' | h'
      · exact hne h'
      · exact Image.not_above_of_kernel hk h'

/-- A held page survives a change of the view that does not bring it in. -/
theorem MemStateInv.held_of_view {dirs' : Finset Ppn} (h : MemStateInv img s)
    (hview : ∀ d ∈ dirs', ∀ v e, view m' d v = some e →
      pte2Ppn e ≠ p ∨ ∃ d' ∈ s.dirs, ∃ v', view s.mem d' v' = some e)
    (hfree : p ∈ m'.freePageList → p ∈ s.mem.freePageList ∨ ¬ Unmapped s.mem s.dirs p)
    (htab : IsTable m' dirs' p → IsTable s.mem s.dirs p ∨ p ∈ s.mem.freePageList) (hp : p ∈ s.held) :
    img.Above p ∧ Usable m' dirs' p ∧ Unmapped m' dirs' p := by
  obtain ⟨ha, ⟨hman, hnf, hnt⟩, hun⟩ := h.held p hp
  refine ⟨ha, ⟨hman, fun hf => ?_, fun ht => ?_⟩, fun d hd v e he => ?_⟩
  · rcases hfree hf with hf | hf
    · exact hnf hf
    · exact hf hun
  · exact (htab ht).elim hnt hnf
  · rcases hview d hd v e he with hne | ⟨d', hd', v', he'⟩
    · exact hne
    · exact hun d' hd' v' e he'

theorem MemStateInv.grow (h : MemStateInv img s) (g : Grow img s.dirs s.mem m') :
    MemStateInv img ⟨m', s.dirs, s.held⟩ where
  mem := g.inv
  held := fun p hp => h.held_of_view
    (fun d hd v _ he => .inr ⟨d, hd, v, (g.view d hd v).symm.trans he⟩)
    (fun hf => .inl (g.free.subset hf)) (g.isTable p) hp
  idle := fun p hp hi => h.idle p hp (g.idle p hi)

/-- An edit of one slot: what it maps leaves the hands of its owner. -/
theorem MemStateInv.remap {d : Ppn} {v : Vpn} {new : Option Pte} {held' : Finset Ppn}
    (h : MemStateInv img s) (hd : d ∈ s.dirs) (r : Remap img s.dirs d v new s.mem m') (hsub : held' ⊆ s.held)
    (hnew : ∀ e, new = some e → pte2Ppn e ∉ held') (hkeep : ∀ p ∈ s.held, p ∉ held' → ∃ e, new = some e ∧ pte2Ppn e = p) :
    MemStateInv img ⟨m', s.dirs, held'⟩ where
  mem := r.inv
  held := fun p hp => by
    refine h.held_of_view (fun d' hd' v' e he => ?_) (fun hf => ?_) (r.isTable p) (hsub hp)
    · rw [r.view d' hd' v'] at he
      split at he
      · exact .inl fun hpe => hnew e he (hpe ▸ hp)
      · exact .inr ⟨d', hd', v', he⟩
    · refine (r.free p hf).imp_right fun ht hun => ?_
      obtain ⟨e, he, hpe⟩ := target_eq_some_iff.mp ht
      exact hun d hd v e he hpe
  idle := fun p hp hi => by
    by_contra hn
    obtain ⟨e, rfl, rfl⟩ := hkeep p (h.idle p hp (r.idle p hi)) hn
    have hpos := r.inv.ref_pos hd (r.view_self hd)
    rw [hi.2] at hpos
    simp at hpos

/-- A page taken from the free list is in its owner's hands. -/
theorem MemStateInv.taken (h : MemStateInv img s) (t : Taken img s.dirs p s.mem m') :
    MemStateInv img ⟨m', s.dirs, insert p s.held⟩ where
  mem := t.inv
  held := fun q hq => by
    rcases Finset.mem_insert.mp hq with rfl | hq
    · exact ⟨t.above, t.usable, fun d hd v e he => t.unmapped d hd v e ((t.view d hd v).symm.trans he)⟩
    · refine h.held_of_view (fun d hd v e he => .inr ⟨d, hd, v, (t.view d hd v).symm.trans he⟩)
        (fun hf => .inl ?_) (fun ht => .inl ((t.tables.isTable q).mp ht)) hq
      rw [t.free]
      exact List.mem_cons_of_mem _ hf
  idle := fun q hq hi => by
    rcases t.idle q hi with rfl | hi
    · exact Finset.mem_insert_self ..
    · exact Finset.mem_insert_of_mem (h.idle q hq hi)

theorem MemStateInv.newDir (h : MemStateInv img s) (n : NewDir img s.dirs p s.mem m') :
    MemStateInv img ⟨m', insert p s.dirs, s.held⟩ where
  mem := n.inv
  held := fun q hq => by
    refine h.held_of_view (fun d hd v e he => .inr ?_) (fun hf => .inl ?_) (fun ht => ?_) hq
    · rcases Finset.mem_insert.mp hd with rfl | hd
      · rw [n.empty v] at he
        cases he
      · exact ⟨d, hd, v, (n.view d hd v).symm.trans he⟩
    · rw [n.free]
      exact List.mem_cons_of_mem _ hf
    · refine ((n.isTable q).mp ht).imp_right fun hqp => ?_
      rw [hqp, n.free]
      exact List.mem_cons_self ..
  idle := fun q hq hi => h.idle q hq (n.idle q hi)

theorem MemStateInv.copied {d y : Ppn} {v : Vpn} {e : Pte} (h : MemStateInv img s) (hd : d ∈ s.dirs)
    (c : Copied img s.dirs d v e y s.mem m') : MemStateInv img ⟨m', s.dirs, s.held⟩ where
  mem := c.inv
  held := fun q hq => by
    have hqy : q ≠ y := fun hqy => (h.held q hq).2.1.2.1 (hqy ▸ c.mem)
    refine h.held_of_view (fun d' hd' v' e' he => ?_) (fun hf => ?_)
      (fun ht => (c.isTable q ht).imp_right And.left) hq
    · rw [c.view d' hd' v'] at he
      split at he
      · refine .inl ?_
        cases he
        rw [pte2Ppn_touchPte (h.mem.free y c.mem).1.managed (permOk_cowPerm e)]
        exact hqy.symm
      · exact .inr ⟨d', hd', v', he⟩
    · rcases c.free q hf with hf | hf
      · exact .inl hf.1
      · exact .inr fun hun => hun d hd v e c.old hf.symm
  idle := fun q hq hi => h.idle q hq (c.idle q hi)

/-- Giving a held page back. -/
theorem MemStateInv.kfree (h : MemStateInv img s) (hp : p ∈ s.held)
    (hk : kfree p s.mem = .ok m') : MemStateInv img ⟨m', s.dirs, s.held.erase p⟩ := by
  obtain ⟨ha, hus, hun⟩ := h.held p hp
  have h0 : s.mem.ref p = 0 := by
    have href := h.mem.ref_above p ha
    rw [leafRefs_eq_zero.mpr hun, tableRefs_of_not hus.2.2] at href
    exact BitVec.eq_of_toNat_eq href
  obtain rfl : m' = s.mem.pushFree p := by
    unfold Exaros.kfree Exaros.pageFree at hk
    rw [if_neg (Nat.not_lt.mpr hus.1.1), if_pos h0] at hk
    exact (Except.ok.inj hk).symm
  have hinv := h.mem.pageFree hus.1 hus.2.1
  unfold Exaros.pageFree at hinv
  rw [if_pos h0] at hinv
  refine ⟨hinv, fun q hq => ?_, fun q hq hi => ?_⟩
  · have hqp := Finset.ne_of_mem_erase hq
    refine h.held_of_view (fun d hd v e he => .inr ⟨d, hd, v, he⟩) (fun hf => .inl ?_) (fun ht => .inl ht)
      (Finset.mem_of_mem_erase hq)
    exact (List.mem_cons.mp hf).resolve_left hqp
  · have hqp : q ≠ p := by
      rintro rfl
      exact hi.1 (List.mem_cons_self ..)
    exact Finset.mem_erase.mpr ⟨hqp, h.idle q hq ⟨fun hf => hi.1 (List.mem_cons_of_mem _ hf), hi.2⟩⟩

theorem kmalloc_eq_ok {size : Int} {m m' : Mem} (h : kmalloc size m = .ok (p, m')) :
    pageAlloc m = some (p, m') := by
  unfold Exaros.kmalloc at h
  split at h
  · cases h
  · cases ha : pageAlloc m with
    | none => rw [ha] at h; cases h
    | some r => rw [ha] at h; cases h; rfl

/-- Every step keeps the invariant. -/
theorem memStateInv_step (h : MemStateInv img s) (hs : MemStep img s s') : MemStateInv img s' := by
  cases hs with
  | pageAlloc ha => exact h.taken (h.mem.taken ha)
  | allocPgdir ha => exact h.newDir (h.mem.newDir ha)
  | @pageWalk m dirs held d va hd =>
    rcases pageWalk_create h.mem hd va with ⟨t, m', hw, g, -⟩ | ⟨m', hw, g, -⟩
    · simp only at hw
      rw [hw]
      exact h.grow g
    · simp only at hw
      rw [hw]
      exact h.grow g
  | @pageInsert m m' dirs held d pp va perm hd hp hperm hi =>
    have hus := h.usable hp
    rcases h.mem.pageInsert hd va hus hperm with ⟨m₁, hi₁, hr, -⟩ | ⟨m₁, hi₁, -⟩
    · obtain ⟨-, rfl⟩ := Prod.mk.inj (Except.ok.inj (hi.symm.trans hi₁))
      have hppn := pte2Ppn_touchPte hus.1 hperm
      refine h.remap hd hr (Finset.erase_subset _ _) ?_ ?_
      · rintro e ⟨⟩
        rw [hppn]
        exact Finset.notMem_erase pp held
      · intro q hq hn
        refine ⟨_, rfl, ?_⟩
        rw [hppn]
        by_contra hne
        exact hn (Finset.mem_erase.mpr ⟨Ne.symm hne, hq⟩)
    · have := (Prod.mk.inj (Except.ok.inj (hi.symm.trans hi₁))).1
      exact absurd this (by decide)
  | @pageInsertFail m m' dirs held d pp va perm r hd hp hperm hr hi =>
    rcases h.mem.pageInsert hd va (h.usable hp) hperm with ⟨m₁, hi₁, -⟩ | ⟨m₁, hi₁, hg, -⟩
    · exact absurd (Prod.mk.inj (Except.ok.inj (hi.symm.trans hi₁))).1 hr
    · obtain ⟨-, rfl⟩ := Prod.mk.inj (Except.ok.inj (hi.symm.trans hi₁))
      exact h.grow hg
  | @pageRemove m m' dirs held d va r hd hr =>
    cases hv : view m d (vpn va) with
    | none =>
      rw [pageRemove_none hv] at hr
      cases hr
      exact h
    | some e =>
      obtain ⟨m₁, hr₁, hre, -⟩ := h.mem.pageRemove_some hd hv
      obtain ⟨-, rfl⟩ := Prod.mk.inj (Except.ok.inj (hr.symm.trans hr₁))
      exact h.remap hd hre (Finset.Subset.refl _) (fun e he => by cases he) fun q hq hn => absurd hq hn
  | kmalloc hk => exact h.taken (h.mem.taken (kmalloc_eq_ok hk))
  | kfree hp hk => exact h.kfree hp hk
  | cowHandler hd hc =>
    obtain ⟨e, y, c⟩ := h.mem.cowHandler hd hc
    exact h.copied hd c
  | @store m dirs held p f hp =>
    have hoff : ∀ q, q ≠ p → (m.setPage p f).ram q = m.ram q := fun q hq => by simp [Mem.setPage, hq]
    have hst := sameTables_fill hp hoff
    have hview : ∀ d ∈ dirs, ∀ v, view (m.setPage p f) d v = view m d v := fun d hd v =>
      view_fill hp hoff hd v
    refine ⟨h.mem.data hp hoff rfl (List.Sublist.refl _), fun q hq => ?_, fun q hq hi => h.idle q hq hi⟩
    exact h.held_of_view (fun d hd v e he => .inr ⟨d, hd, v, (hview d hd v).symm.trans he⟩)
      (fun hf => .inl hf) (fun ht => .inl ((hst.isTable q).mp ht)) hq

theorem MemReach.inv (h : MemReach img s) : MemStateInv img s :=
  h.invariant (fun _ => memStateInv_init) fun _ _ => memStateInv_step

end Step

/-! ## The counts are exact -/

section Results

variable {img : Image} {s : MemState} {d p pp : Ppn} {va : Nat} {perm : Pte}

/-- In every reachable state a page above the image is on the free list at most once; on the list it
has count zero and no entry maps it; off the list its count is the number of entries that map it,
plus one for a table, and zero only for a page still in the hands of whom it was allocated for. A
page of the image keeps the reference `freePageInit` gave it on top of its entries. -/
theorem page_accounting (h : MemReach img s) (p : Ppn) :
    (img.Above p →
      s.mem.freePageList.count p ≤ 1 ∧
      (p ∈ s.mem.freePageList → s.mem.ref p = 0 ∧ ∀ d ∈ s.dirs, ∀ v, target s.mem (d, v) ≠ some p) ∧
      (p ∉ s.mem.freePageList →
        (s.mem.ref p).toNat = leafRefs s.mem s.dirs p + tableRefs s.mem s.dirs p ∧
        (s.mem.ref p = 0 → p ∈ s.held))) ∧
    (img.Kernel p → p ∉ s.mem.freePageList ∧ (s.mem.ref p).toNat = leafRefs s.mem s.dirs p + 1) := by
  have hi := h.inv
  refine ⟨fun hp => ⟨?_, fun hf => ?_, fun hf => ⟨hi.mem.ref_above p hp, fun h0 => hi.idle p hp ⟨hf, h0⟩⟩⟩,
    fun hp => ⟨fun hf => ?_, hi.mem.ref_kernel p hp⟩⟩
  · exact List.nodup_iff_count_le_one.mp hi.mem.free_nodup p
  · obtain ⟨-, hnt, hz⟩ := hi.mem.free p hf
    refine ⟨?_, fun d hd v ht => ?_⟩
    · have href := hi.mem.ref_above p hp
      rw [hz, tableRefs_of_not hnt] at href
      exact BitVec.eq_of_toNat_eq href
    · obtain ⟨e, he, hpe⟩ := target_eq_some_iff.mp ht
      exact leafRefs_eq_zero.mp hz d hd v e he hpe
  · exact Image.not_above_of_kernel hp (hi.mem.free p hf).1

end Results

/-- Memory after boot, zeroed. -/
def bootMem : Mem := freePageInit Image.sample fun _ _ => 0

/-- A page is allocated after boot and mapped in the kernel's directory. -/
theorem exists_memReach_mapped : ∃ s : MemState, MemReach Image.sample s ∧ 0x80004 ∈ s.dirs ∧
    target s.mem (0x80004, vpn 0x1000) = some 0x9ffff := by
  have h₀ : MemReach Image.sample ⟨bootMem, {0x80004}, ∅⟩ := .init ⟨fun _ _ => 0, fun _ => rfl, rfl⟩
  have hf : bootMem.freePageList = 0x9ffff :: pagesDown 0x80008 0x9ffff :=
    pagesDown_succ (k := 0x80008) (n := 0x9ffff) (by decide)
  have h₁ := h₀.step (.pageAlloc (pageAlloc_cons hf))
  have hins := MemReach.inv h₁
  have hd : 0x80004 ∈ ({0x80004} : Finset Ppn) := Finset.mem_singleton_self _
  have hp : ∀ m, MemState.Insertable Image.sample ⟨m, {0x80004}, insert 0x9ffff ∅⟩ 0x9ffff :=
    fun _ => .inl (Finset.mem_insert_self ..)
  have hus := hins.usable (hp _)
  have hperm : PermOk (PTE_READ_BIT ||| PTE_WRITE_BIT) := by decide
  rcases hins.mem.pageInsert hd 0x1000 hus hperm with ⟨m', hi, hr, -⟩ | ⟨m', -, -, -, hlen⟩
  · refine ⟨_, h₁.step (.pageInsert hd (hp _) hperm hi), hd, target_eq_some_iff.mpr ⟨_, hr.view_self hd, ?_⟩⟩
    exact pte2Ppn_touchPte hus.1 hperm
  · have := length_pagesDown 0x80008 0x9ffff
    simp only [Mem.setPage] at hlen
    omega

/-- After a page has been mapped, its count is that of the entries that point to it. -/
theorem page_accounting_mapped : ∃ s : MemState, MemReach Image.sample s ∧ 0x80004 ∈ s.dirs ∧
    target s.mem (0x80004, vpn 0x1000) = some 0x9ffff ∧ 0x9ffff ∉ s.mem.freePageList ∧
    (s.mem.ref 0x9ffff).toNat = leafRefs s.mem s.dirs 0x9ffff + tableRefs s.mem s.dirs 0x9ffff := by
  obtain ⟨s, hs, hd, ht⟩ := exists_memReach_mapped
  have hacc := (page_accounting hs 0x9ffff).1 (by decide)
  have hnf : 0x9ffff ∉ s.mem.freePageList := fun hf => (hacc.2.1 hf).2 _ hd _ ht
  exact ⟨s, hs, hd, ht, hnf, (hacc.2.2 hnf).1⟩

/-! ## Page tables as finite maps -/

/-- What a lookup shows of an address: the page and the entry. -/
def lookupEntry (m : Mem) (d : Ppn) (va : Nat) : Except Panic (Option (Ppn × Pte)) :=
  (pageLookup d va m).map fun r => r.map fun x => (x.1, m.read x.2)

theorem MemInv.lookupEntry_eq {img : Image} {m : Mem} {dirs : Finset Ppn} {d : Ppn} (h : MemInv img m dirs)
    (hd : d ∈ dirs) (va : Nat) :
    lookupEntry m d va = .ok ((view m d (vpn va)).map fun e => (pte2Ppn e, e)) := by
  unfold lookupEntry
  cases hv : view m d (vpn va) with
  | none => rw [pageLookup_none hv]; rfl
  | some e =>
    obtain ⟨t, -, hread, hl⟩ := h.pageLookup_some hd hv
    rw [hl, ← hread]
    rfl

/-- Below `VA_MAX` the three indices name the page of an address. -/
theorem vpn_eq_iff {va va' : Nat} (h : va < VA_MAX) (h' : va' < VA_MAX) :
    vpn va = vpn va' ↔ va / PAGE_SIZE = va' / PAGE_SIZE := by
  have hmax : VA_MAX = 2 ^ 38 := by decide
  rw [hmax] at h h'
  simp only [vpn, vaPpn, Prod.mk.injEq, Fin.mk.injEq, Nat.shiftRight_eq_div_pow, PAGE_SHIFT, PAGE_SIZE]
  omega

section Map

variable {img : Image} {s : MemState} {d pp : Ppn} {va : Nat} {perm : Pte}

/-- In every reachable state, a successful `pageInsert` maps exactly the page of `va` to `pp`, with the
permissions asked for, in that directory only; `pageRemove` unmaps exactly the page of `va`; and a
`pageInsert` can only fail for lack of memory, and then changes no lookup. -/
theorem pageTable_refines_map (h : MemReach img s) (hd : d ∈ s.dirs) (hva : va < VA_MAX)
    (hpp : s.Insertable img pp) (hperm : PermOk perm) :
    (∃ r m', pageInsert d va pp perm s.mem = .ok (r, m') ∧ (r = 0 ∨ r = -E_NO_MEM)) ∧
    (∀ m', pageInsert d va pp perm s.mem = .ok (0, m') → ∀ d' ∈ s.dirs, ∀ va' < VA_MAX,
      lookupEntry m' d' va' =
        if d' = d ∧ va' / PAGE_SIZE = va / PAGE_SIZE then
          .ok (some (pp, mkPte pp (perm ||| (PTE_ACCESSED_BIT ||| PTE_DIRTY_BIT))))
        else lookupEntry s.mem d' va') ∧
    (∀ m', pageInsert d va pp perm s.mem = .ok (-E_NO_MEM, m') → ∀ d' ∈ s.dirs, ∀ va' < VA_MAX,
      lookupEntry m' d' va' = lookupEntry s.mem d' va') ∧
    (∃ r m', pageRemove d va s.mem = .ok (r, m') ∧ ∀ d' ∈ s.dirs, ∀ va' < VA_MAX,
      lookupEntry m' d' va' =
        if d' = d ∧ va' / PAGE_SIZE = va / PAGE_SIZE then .ok none else lookupEntry s.mem d' va') := by
  have hi := h.inv
  have hus := hi.usable hpp
  have hrem : ∃ r m', pageRemove d va s.mem = .ok (r, m') ∧ MemInv img m' s.dirs ∧ ∀ d' ∈ s.dirs, ∀ v,
      view m' d' v = if d' = d ∧ v = vpn va then none else view s.mem d' v := by
    cases hv : view s.mem d (vpn va) with
    | none =>
      refine ⟨-1, s.mem, pageRemove_none hv, hi.mem, fun d' _ v => ?_⟩
      split
      · rename_i heq
        rw [heq.1, heq.2, hv]
      · rfl
    | some e =>
      obtain ⟨m', hr, hre, -⟩ := hi.mem.pageRemove_some hd hv
      exact ⟨0, m', hr, hre.inv, hre.view⟩
  refine ⟨?_, fun m' hm' d' hd' va' hva' => ?_, fun m' hm' d' hd' va' hva' => ?_, ?_⟩
  · rcases hi.mem.pageInsert hd va hus hperm with ⟨m₁, hi₁, -⟩ | ⟨m₁, hi₁, -⟩
    · exact ⟨0, m₁, hi₁, .inl rfl⟩
    · exact ⟨_, m₁, hi₁, .inr rfl⟩
  · rcases hi.mem.pageInsert hd va hus hperm with ⟨m₁, hi₁, hr, -⟩ | ⟨m₁, hi₁, -⟩
    · obtain ⟨-, rfl⟩ := Prod.mk.inj (Except.ok.inj (hm'.symm.trans hi₁))
      rw [hr.inv.lookupEntry_eq hd', hi.mem.lookupEntry_eq hd', hr.view d' hd']
      simp only [vpn_eq_iff hva' hva]
      split
      · rw [Option.map_some, pte2Ppn_touchPte hus.1 hperm]
        rfl
      · rfl
    · exact absurd (Prod.mk.inj (Except.ok.inj (hm'.symm.trans hi₁))).1 (by decide)
  · rcases hi.mem.pageInsert hd va hus hperm with ⟨m₁, hi₁, -⟩ | ⟨m₁, hi₁, hg, -⟩
    · exact absurd (Prod.mk.inj (Except.ok.inj (hm'.symm.trans hi₁))).1 (by decide)
    · obtain ⟨-, rfl⟩ := Prod.mk.inj (Except.ok.inj (hm'.symm.trans hi₁))
      rw [hg.inv.lookupEntry_eq hd', hi.mem.lookupEntry_eq hd', hg.view d' hd']
  · obtain ⟨r, m', hr, hinv, hview⟩ := hrem
    refine ⟨r, m', hr, fun d' hd' va' hva' => ?_⟩
    rw [hinv.lookupEntry_eq hd', hi.mem.lookupEntry_eq hd', hview d' hd']
    simp only [vpn_eq_iff hva' hva]
    split <;> rfl

end Map

/-- A page that is mapped once is inserted at a second address. -/
theorem pageTable_refines_map_mapped : ∃ s : MemState, MemReach Image.sample s ∧
    ∃ r m', pageInsert 0x80004 0x2000 0x9ffff PTE_READ_BIT s.mem = .ok (r, m') ∧ (r = 0 ∨ r = -E_NO_MEM) := by
  obtain ⟨s, hs, hd, ht⟩ := exists_memReach_mapped
  exact ⟨s, hs, (pageTable_refines_map hs hd (by decide) (.inr (.inl ⟨_, hd, _, ht⟩)) (by decide)).1⟩

/-- A permission is or-ed into the entry as it is. With a bit in the page number it leads to another page: the page
0x9ffff, inserted again with bit 27, is looked up as 0xbffff. -/
theorem pageInsert_perm_unmasked : ∃ s : MemState, MemReach Image.sample s ∧ 0x80004 ∈ s.dirs ∧
    s.Insertable Image.sample 0x9ffff ∧ ∃ m' e, pageInsert 0x80004 0x1000 0x9ffff (bit 27) s.mem = .ok (0, m') ∧
      lookupEntry m' 0x80004 0x1000 = .ok (some (0xbffff, e)) := by
  obtain ⟨s, hs, hd, ht⟩ := exists_memReach_mapped
  obtain ⟨e, hv, hpage⟩ := target_eq_some_iff.mp ht
  obtain ⟨t, hleaf, hvalid, hread⟩ := view_eq_some_iff.mp hv
  have hread' : s.mem.read (t, vaPpn 0x1000 0) = e := hread
  have hmanaged : ¬ (0x9ffff : Ppn) < BASE_PPN := by decide
  let e' := mkPte 0x9ffff (bit 27 ||| (PTE_ACCESSED_BIT ||| PTE_DIRTY_BIT))
  have hvalid' : pteValid e' = true := by decide
  have hother : pte2Page e' = .ok 0xbffff := by decide
  have hview : view (s.mem.write (t, vaPpn 0x1000 0) e') 0x80004 (vpn 0x1000) = some e' := by
    rw [show vaPpn 0x1000 0 = (vpn 0x1000).2.2 from rfl, view_write hs.inv.mem hd hleaf e' hd, if_pos ⟨rfl, rfl⟩,
      if_pos hvalid']
  obtain ⟨t', hleaf', -, hread''⟩ := view_eq_some_iff.mp hview
  refine ⟨s, hs, hd, .inr (.inl ⟨_, hd, _, ht⟩), s.mem.write (t, vaPpn 0x1000 0) e', e', ?_, ?_⟩
  · unfold pageInsert
    rw [pageWalk_false, hleaf]
    simp only [Option.map_some, hread', if_pos (hread ▸ hvalid), pte2Page, hpage, if_neg hmanaged]
    rfl
  · unfold lookupEntry pageLookup
    rw [pageWalk_false, hleaf']
    have hread₂ : (s.mem.write (t, vaPpn 0x1000 0) e').read (t', vaPpn 0x1000 0) = e' := hread''
    simp only [Option.map_some, hread₂, if_pos hvalid', hother, Loop.ok_bind]
    exact congrArg (fun e => Except.ok (some (0xbffff, e))) hread₂

end Exaros
