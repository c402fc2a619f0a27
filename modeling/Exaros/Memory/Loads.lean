import Exaros.Memory.Accounting
import Exaros.Memory.Bytes
import Exaros.Memory.Faults

/-!
# Filling an address space

What the functions that load a program do to memory: `initUserMemory`, `do_mmap`, the page faults and
`copyout`. Each of them keeps memory well formed for the directories in use and leaves the pages in their
owners' hands there (`Kept`); a page of theirs whose insertion fails for want of a table joins those.
-/

namespace Exaros

/-- Memory stays well formed, and a page in its owner's hands stays there. -/
def Kept (img : Image) (dirs : Finset Ppn) (m m' : Mem) : Prop :=
  ∀ held, MemStateInv img ⟨m, dirs, held⟩ → ∃ held', held ⊆ held' ∧ MemStateInv img ⟨m', dirs, held'⟩

section Kept

variable {img : Image} {dirs held : Finset Ppn} {m m₁ m' : Mem} {d y pp : Ppn} {v : Vpn} {va : Nat} {perm : Pte}
  {new : Option Pte} {r : Int}

theorem Kept.refl (img : Image) (dirs : Finset Ppn) (m : Mem) : Kept img dirs m m :=
  fun held h => ⟨held, Finset.Subset.refl _, h⟩

theorem Kept.trans (k : Kept img dirs m m₁) (k' : Kept img dirs m₁ m') : Kept img dirs m m' := by
  intro held h
  obtain ⟨held₁, hsub₁, h₁⟩ := k held h
  obtain ⟨held', hsub', h'⟩ := k' held₁ h₁
  exact ⟨held', hsub₁.trans hsub', h'⟩

open Classical in
/-- The pages in their owners' hands are the idle ones. -/
theorem MemInv.exists_held (h : MemInv img m dirs) : ∃ held, MemStateInv img ⟨m, dirs, held⟩ := by
  refine ⟨(Finset.range END_PPN).filter fun p => img.Above p ∧ Idle m p, h, fun p hp => ?_, fun p hp hi => ?_⟩
  · obtain ⟨-, ha, hnf, h0⟩ := Finset.mem_filter.mp hp
    have href := h.ref_above p ha
    rw [h0] at href
    have hz : leafRefs m dirs p = 0 ∧ tableRefs m dirs p = 0 := by
      have : (0 : BitVec 32).toNat = 0 := rfl
      omega
    have hnt : ¬ IsTable m dirs p := fun ht => by
      rw [tableRefs_of_isTable ht] at hz
      exact absurd hz.2 (by decide)
    exact ⟨ha, ⟨ha.managed, hnf, hnt⟩, leafRefs_eq_zero.mp hz.1⟩
  · exact Finset.mem_filter.mpr ⟨Finset.mem_range.mpr hp.2, hp, hi⟩

theorem Kept.inv (k : Kept img dirs m m') (h : MemInv img m dirs) : MemInv img m' dirs := by
  obtain ⟨held, hh⟩ := h.exists_held
  obtain ⟨held', -, h'⟩ := k held hh
  exact h'.mem

theorem Grow.kept (g : Grow img dirs m m') : Kept img dirs m m' :=
  fun held h => ⟨held, Finset.Subset.refl _, h.grow g⟩

/-- An edit of one entry that brings in no page out of its owner's hands. -/
theorem Remap.kept (hd : d ∈ dirs) (r : Remap img dirs d v new m m')
    (hnew : ∀ e, new = some e → img.Kernel (pte2Ppn e) ∨ target m (d, v) = some (pte2Ppn e)) :
    Kept img dirs m m' := by
  intro held h
  refine ⟨held, Finset.Subset.refl _, h.remap hd r (Finset.Subset.refl _) (fun e he hmem => ?_) fun p hp hn => absurd hp hn⟩
  obtain ⟨ha, -, hun⟩ := h.held _ hmem
  rcases hnew e he with hk | ht
  · exact Image.not_above_of_kernel hk ha
  · obtain ⟨e', he', hpe⟩ := target_eq_some_iff.mp ht
    exact hun d hd v e' he' hpe

theorem Copied.kept {e : Pte} (hd : d ∈ dirs) (c : Copied img dirs d v e y m m') : Kept img dirs m m' :=
  fun held h => ⟨held, Finset.Subset.refl _, h.copied hd c⟩

/-- A store to a page that is no table. -/
theorem kept_store (f : Idx → BitVec 64) (hp : ¬ IsTable m dirs pp) : Kept img dirs m (m.setPage pp f) :=
  fun held h => ⟨held, Finset.Subset.refl _, memStateInv_step h (.store f hp)⟩

/-- A free page is filled and inserted, whether or not the insertion finds its tables. -/
theorem kept_insertFresh (hd : d ∈ dirs) (ha : pageAlloc m = some (y, m₁)) (data : Idx → BitVec 64)
    (hperm : PermOk perm) (hi : pageInsert d va y perm (m₁.setPage y data) = .ok (r, m')) : Kept img dirs m m' := by
  intro held h
  have t := h.mem.taken ha
  have hy : y ∉ held := fun hmem => (h.held y hmem).2.1.2.1 t.mem
  have h₁ := h.taken t
  have hnt : ¬ IsTable m₁ dirs y := t.usable.2.2
  have h₂ : MemStateInv img ⟨m₁.setPage y data, dirs, insert y held⟩ := memStateInv_step h₁ (.store data hnt)
  have hins : MemState.Insertable img ⟨m₁.setPage y data, dirs, insert y held⟩ y := .inl (Finset.mem_insert_self ..)
  by_cases hr : r = 0
  · subst hr
    refine ⟨(insert y held).erase y, ?_, memStateInv_step h₂ (.pageInsert hd hins hperm hi)⟩
    rw [Finset.erase_insert hy]
  · exact ⟨insert y held, Finset.subset_insert .., memStateInv_step h₂ (.pageInsertFail hd hins hperm hr hi)⟩

theorem kept_insertCleared (hd : d ∈ dirs) (ha : pageAlloc m = some (y, m₁)) (hperm : PermOk perm)
    (hi : pageInsert d va y perm m₁ = .ok (r, m')) : Kept img dirs m m' := by
  rw [← setPage_self m₁ y] at hi
  exact kept_insertFresh hd ha _ hperm hi

end Kept

/-! ## The pages every address space has -/

section Image

variable {img : Image} {dirs : Finset Ppn} {m m' : Mem} {d pp : Ppn} {va : Nat} {perm : Pte} {r : Int}

theorem MemInv.usable_kernel (h : MemInv img m dirs) (hk : img.Kernel pp) (hne : img.kernelPageDirectory ≠ pp) :
    Usable m dirs pp := by
  refine ⟨hk.managed, fun hf => Image.not_above_of_kernel hk (h.free pp hf).1, fun ht => ?_⟩
  rcases h.above_of_isTable ht with heq | ha
  · exact hne heq.symm
  · exact Image.not_above_of_kernel hk ha

/-- `pageMap` of a page of the kernel image always returns, mapped or not. -/
theorem MemInv.pageMap_kernel (h : MemInv img m dirs) (hd : d ∈ dirs) (va : Nat) (hk : img.Kernel pp)
    (hne : img.kernelPageDirectory ≠ pp) (hperm : PermOk perm) :
    ∃ r m', Exaros.pageMap d va pp perm m = .ok (r, m') ∧ Kept img dirs m m' ∧
      m.freePageList.length ≤ m'.freePageList.length + 2 := by
  have hus := h.usable_kernel hk hne
  rcases h.pageMap hd va hus hperm (fun _ => .inl hk) with ⟨m', hm, hr, hlen⟩ | ⟨m', hm, hg, -, hlen⟩
  · refine ⟨0, m', hm, hr.kept hd fun e he => .inl ?_, hlen⟩
    cases he
    rw [pte2Ppn_touchPte hus.1 hperm]
    exact hk
  · exact ⟨_, m', hm, hg.kept, by omega⟩

theorem MemInv.mapImage (h : MemInv img m dirs) (hd : d ∈ dirs) :
    ∃ m', Exaros.mapImage img d m = .ok m' ∧ Kept img dirs m m' ∧
      m.freePageList.length ≤ m'.freePageList.length + 6 := by
  have hperm : PermOk (PTE_READ_BIT ||| PTE_WRITE_BIT ||| PTE_EXECUTE_BIT) := by decide
  have hpermU : PermOk (PTE_READ_BIT ||| PTE_WRITE_BIT ||| PTE_EXECUTE_BIT ||| PTE_USER_BIT) := by decide
  obtain ⟨r₁, m₁, h₁, k₁, hl₁⟩ := h.pageMap_kernel hd TRAMPOLINE img.trampoline_mem img.pgdir_ne.1 hperm
  obtain ⟨r₂, m₂, h₂, k₂, hl₂⟩ := (k₁.inv h).pageMap_kernel hd TRAPFRAME img.trapframe_mem img.pgdir_ne.2.1 hperm
  obtain ⟨r₃, m₃, h₃, k₃, hl₃⟩ := (k₂.inv (k₁.inv h)).pageMap_kernel hd SIGNAL_TRAMPOLINE img.signalTrampoline_mem
    img.pgdir_ne.2.2 hpermU
  refine ⟨m₃, ?_, (k₁.trans k₂).trans k₃, by omega⟩
  unfold Exaros.mapImage
  rw [h₁]
  simp only [bind, Except.bind, h₂, h₃]
  rfl

theorem kept_initUserMemory (h : MemInv img m dirs) (hd : d ∈ dirs) (hok : initUserMemory img d m = .ok m') :
    Kept img dirs m m' := by
  obtain ⟨m₁, h₁, k₁, -⟩ := h.mapImage hd
  unfold initUserMemory at hok
  rw [h₁] at hok
  cases ha : pageAlloc m₁ with
  | none =>
    simp only [bind, Except.bind, ha] at hok
    cases hok
  | some x =>
    obtain ⟨y, m₂⟩ := x
    simp only [bind, Except.bind, ha] at hok
    obtain ⟨x, hi, hx⟩ := Loop.bind_ok hok
    obtain ⟨r, m₃⟩ := x
    cases hx
    exact k₁.trans (kept_insertCleared hd ha (by decide) hi)

/-- With nine pages to spare `initUserMemory` maps the top page of the user stack. -/
theorem MemInv.initUserMemory_ok (h : MemInv img m dirs) (hd : d ∈ dirs) (hlen : 9 ≤ m.freePageList.length) :
    ∃ m' y, initUserMemory img d m = .ok m' ∧ view m' d (vpn (USER_STACK_TOP - PAGE_SIZE)) =
      some (touchPte y (PTE_USER_BIT ||| PTE_READ_BIT ||| PTE_WRITE_BIT ||| PTE_EXECUTE_BIT)) ∧
      m.freePageList.length ≤ m'.freePageList.length + 9 := by
  obtain ⟨m₁, h₁, k₁, hl₁⟩ := h.mapImage hd
  obtain ⟨y, m₂, ha⟩ := pageAlloc_of_pos (m := m₁) (by omega)
  rcases (k₁.inv h).insertFresh hd (USER_STACK_TOP - PAGE_SIZE) ha (m₂.ram y)
    (show PermOk (PTE_USER_BIT ||| PTE_READ_BIT ||| PTE_WRITE_BIT ||| PTE_EXECUTE_BIT) by decide) with
    ⟨m', hi, hc, hl⟩ | ⟨m', -, -, -, hlt⟩
  · rw [setPage_self] at hi
    refine ⟨m', y, ?_, hc.change.view_self hd, by omega⟩
    unfold initUserMemory
    rw [h₁]
    simp only [bind, Except.bind, ha, hi]
    rfl
  · omega

end Image

/-- A process whose directory is the first page allocated after boot, with nothing mapped yet. -/
theorem exists_emptyProcess : ∃ dirs d m, MemInv Image.sample m dirs ∧ d ∈ dirs ∧ d ≠ Image.sample.kernelPageDirectory ∧
    100 ≤ m.freePageList.length ∧ ∀ v, view m d v = none := by
  have hinit : MemStateInv Image.sample ⟨bootMem, {0x80004}, ∅⟩ := memStateInv_init ⟨fun _ _ => 0, fun _ => rfl, rfl⟩
  have hf : bootMem.freePageList = 0x9ffff :: pagesDown 0x80008 0x9ffff :=
    pagesDown_succ (k := 0x80008) (n := 0x9ffff) (by decide)
  have halloc : allocPgdir bootMem = some (0x9ffff,
      ({ bootMem with freePageList := pagesDown 0x80008 0x9ffff }.setPage 0x9ffff fun _ => 0).incRef 0x9ffff) := by
    unfold allocPgdir
    rw [pageAlloc_cons hf]
    rfl
  have n := hinit.mem.newDir halloc
  refine ⟨insert 0x9ffff {0x80004}, 0x9ffff, _, n.inv, Finset.mem_insert_self .., by decide, ?_, n.empty⟩
  show 100 ≤ (pagesDown 0x80008 0x9ffff).length
  rw [length_pagesDown]
  decide

/-- Two processes that have nothing mapped yet, nor has the kernel. -/
theorem exists_emptyProcesses : ∃ dirs d d' m, MemInv Image.sample m dirs ∧ d ∈ dirs ∧ d' ∈ dirs ∧ d' ≠ d ∧
    100 ≤ m.freePageList.length ∧ ∀ x ∈ dirs, ∀ v, view m x v = none := by
  have hinit : MemStateInv Image.sample ⟨bootMem, {0x80004}, ∅⟩ := memStateInv_init ⟨fun _ _ => 0, fun _ => rfl, rfl⟩
  have hlen : bootMem.freePageList.length = 0xa0000 - 0x80008 := length_pagesDown ..
  have hkernel : ∀ v, view bootMem 0x80004 v = none := fun v => by
    cases hv : view bootMem 0x80004 v with
    | none => rfl
    | some e =>
      obtain ⟨t, ht, -⟩ := leafTable_of_view hv
      have hnone : leafTable bootMem 0x80004 v = none := tableAt_empty (fun _ => rfl) (List.cons_ne_nil _ _)
      rw [hnone] at ht
      cases ht
  obtain ⟨d, m₁, ha₁⟩ := pageAlloc_of_pos (m := bootMem) (by omega)
  have n₁ : NewDir Image.sample {0x80004} d bootMem (m₁.incRef d) := hinit.mem.newDir (congrArg (Option.map _) ha₁)
  have h₁ := congrArg List.length n₁.free
  rw [List.length_cons] at h₁
  obtain ⟨d', m₂, ha₂⟩ := pageAlloc_of_pos (m := m₁.incRef d) (by omega)
  have n₂ : NewDir Image.sample (insert d {0x80004}) d' (m₁.incRef d) (m₂.incRef d') :=
    n₁.inv.newDir (congrArg (Option.map _) ha₂)
  have h₂ := congrArg List.length n₂.free
  rw [List.length_cons] at h₂
  have hd : d ∈ insert d ({0x80004} : Finset Ppn) := Finset.mem_insert_self ..
  refine ⟨_, d, d', _, n₂.inv, Finset.mem_insert_of_mem hd, Finset.mem_insert_self .., fun heq => n₂.fresh (heq ▸ hd), by omega,
    fun x hx v => ?_⟩
  rcases Finset.mem_insert.mp hx with rfl | hx
  · exact n₂.empty v
  · rw [n₂.view x hx v]
    rcases Finset.mem_insert.mp hx with rfl | hx
    · exact n₁.empty v
    · rw [n₁.view x hx v, Finset.mem_singleton.mp hx, hkernel v]

theorem exists_process : ∃ dirs d m, MemInv Image.sample m dirs ∧ d ∈ dirs ∧ d ≠ Image.sample.kernelPageDirectory ∧
    100 ≤ m.freePageList.length := by
  obtain ⟨dirs, d, m, hinv, hd, hne, hlen, -⟩ := exists_emptyProcess
  exact ⟨dirs, d, m, hinv, hd, hne, hlen⟩

/-! ## Page faults and copies to the user -/

section Copy

variable {img : Image} {dirs : Finset Ppn} {segs : List SegmentMap} {data : Idx → BitVec 64} {m m' : Mem} {d : Ppn}
  {va pa : Nat} {src : List UInt8}

theorem permOk_lazy (segs : List SegmentMap) :
    PermOk (PTE_USER_BIT ||| segs.foldl (fun perm s => perm ||| (s.flag &&& ~~~ MAP_ZERO)) 0) :=
  (permOk_bit (by omega)).or (permOk_segments _ 0 (by decide))

/-- A page loaded on demand leaves the others. -/
theorem kept_passiveAlloc (hd : d ∈ dirs) (hok : passiveAlloc segs data d va m = .ok (pa, m')) :
    Kept img dirs m m' := by
  unfold passiveAlloc at hok
  split at hok
  · cases ha : pageAlloc m with
    | none =>
      rw [ha] at hok
      cases hok
    | some x =>
      obtain ⟨y, m₁⟩ := x
      rw [ha] at hok
      obtain ⟨⟨r, m₂⟩, hi, hx⟩ := Loop.bind_ok hok
      have hkept : Kept img dirs m m₂ := kept_insertCleared hd ha (by decide) hi
      simp only [bind, Except.bind] at hx
      split at hx
      · cases hx
      · cases hx
        exact hkept
  · split at hok
    · cases hok
    · rename_i seg rest _
      cases ha : pageAlloc m with
      | none =>
        rw [ha] at hok
        cases hok
      | some x =>
        obtain ⟨y, m₁⟩ := x
        rw [ha] at hok
        obtain ⟨⟨r, m₂⟩, hi, hx⟩ := Loop.bind_ok hok
        cases hx
        exact kept_insertFresh hd ha data (permOk_lazy _) hi

theorem kept_cowHandler (h : MemInv img m dirs) (hd : d ∈ dirs) (hok : cowHandler d va m = .ok (pa, m')) :
    Kept img dirs m m' := by
  obtain ⟨e, y, c⟩ := h.cowHandler hd hok
  exact c.kept hd

theorem kept_copyPage (h : MemInv img m dirs) (hd : d ∈ dirs) (hok : copyPage segs data d va m = .ok m') :
    Kept img dirs m m' := by
  unfold copyPage at hok
  split at hok
  · obtain ⟨⟨pa, m₁⟩, hp, hok⟩ := Loop.bind_ok hok
    have k₁ : Kept img dirs m m₁ := kept_passiveAlloc hd hp
    simp only [pure, Except.pure, bind, Except.bind] at hok
    split at hok
    · obtain ⟨⟨pa', m₂⟩, hc, hx⟩ := Loop.bind_ok hok
      cases hx
      exact k₁.trans (kept_cowHandler (k₁.inv h) hd hc)
    · cases hok
      exact k₁
  · simp only [pure, Except.pure, bind, Except.bind] at hok
    split at hok
    · obtain ⟨⟨pa', m₂⟩, hc, hx⟩ := Loop.bind_ok hok
      cases hx
      exact kept_cowHandler h hd hc
    · cases hok
      exact Kept.refl img dirs m

/-- The page `va2PA` finds is mapped, so it is no table. -/
theorem MemInv.not_isTable_va2PA (h : MemInv img m dirs) (hd : d ∈ dirs) {cow : Bool}
    (hva : va2PA d va m = some (pa, cow)) : ¬ IsTable m dirs (pa / PAGE_SIZE) := by
  unfold va2PA at hva
  split at hva
  · cases hva
  · rw [pageWalk_false] at hva
    cases ht : leafTable m d (vpn va) with
    | none =>
      simp only [ht, Option.map_none] at hva
      cases hva
    | some t =>
      simp only [ht, Option.map_some] at hva
      split at hva
      · rename_i hvalid
        have hv : pteValid (m.ram t (vpn va).2.2) = true := (Bool.and_eq_true_iff.mp hvalid).1
        have hview := (view_of_leafTable ht).trans (if_pos hv)
        obtain ⟨rfl, -⟩ := Prod.mk.inj (Option.some.inj hva)
        have hpage : (pte2Ppn (m.read (t, vaPpn va 0)) <<< PAGE_SHIFT + vaOffset va) / PAGE_SIZE =
            pte2Ppn (m.ram t (vpn va).2.2) := by
          have hlt : vaOffset va < PAGE_SIZE := Nat.mod_lt _ (by decide)
          have hpow : PAGE_SIZE = 2 ^ PAGE_SHIFT := by decide
          rw [Nat.shiftLeft_eq, ← hpow, Nat.mul_comm, Nat.mul_add_div (by decide), Nat.div_eq_of_lt hlt]
          rfl
        rw [hpage]
        exact (h.leaf d hd _ _ hview).2.1
      · cases hva

theorem write_eq_setPage (m : Mem) (s : Slot) (e : Pte) :
    m.write s e = m.setPage s.1 fun i => if i = s.2 then e else m.ram s.1 i := by
  unfold Mem.write Mem.setPage
  congr 1
  funext p i
  by_cases hp : p = s.1
  · rw [if_pos hp, hp]
    simp
  · rw [if_neg hp, if_neg fun h => hp h.1]

theorem kept_storeByte (ch : UInt8) (hnt : ¬ IsTable m dirs (pa / PAGE_SIZE)) :
    Kept img dirs m (storeByte m pa ch) := by
  unfold storeByte
  rw [write_eq_setPage]
  exact kept_store _ hnt

theorem isTable_storeByte (ch : UInt8) (hnt : ¬ IsTable m dirs (pa / PAGE_SIZE)) (t : Ppn) :
    IsTable (storeByte m pa ch) dirs t ↔ IsTable m dirs t := by
  have hoff : ∀ q, q ≠ pa / PAGE_SIZE → (storeByte m pa ch).ram q = m.ram q := fun q hq => by
    exact ram_write_off m _ _ hq
  exact (sameTables_fill hnt hoff).isTable t

/-- Bytes stored within one page that is no table. -/
theorem kept_storeBytes (hnt : ¬ IsTable m dirs (pa / PAGE_SIZE))
    (hfit : pa % PAGE_SIZE + src.length ≤ PAGE_SIZE) : Kept img dirs m (storeBytes pa src m) := by
  induction src generalizing pa m with
  | nil => exact Kept.refl img dirs m
  | cons ch src ih =>
    rw [List.length_cons] at hfit
    have k : Kept img dirs m (storeByte m pa ch) := kept_storeByte ch hnt
    cases src with
    | nil => exact k
    | cons ch' src =>
      rw [List.length_cons] at hfit ih
      have hmod : (pa + 1) % PAGE_SIZE = pa % PAGE_SIZE + 1 := by
        unfold PAGE_SIZE at hfit ⊢
        omega
      have hdiv : (pa + 1) / PAGE_SIZE = pa / PAGE_SIZE := by
        unfold PAGE_SIZE at hfit ⊢
        omega
      refine k.trans (ih ?_ ?_)
      · rw [hdiv]
        exact fun ht => hnt ((isTable_storeByte ch hnt _).mp ht)
      · omega

/-- They are stores of data: no directory shows a difference. -/
theorem view_storeBytes (hnt : ¬ IsTable m dirs (pa / PAGE_SIZE))
    (hfit : pa % PAGE_SIZE + src.length ≤ PAGE_SIZE) (hd : d ∈ dirs) (v : Vpn) :
    view (storeBytes pa src m) d v = view m d v := by
  induction src generalizing pa m with
  | nil => rfl
  | cons ch src ih =>
    rw [List.length_cons] at hfit
    have hoff : ∀ q, q ≠ pa / PAGE_SIZE → (storeByte m pa ch).ram q = m.ram q := fun q hq => by
      exact ram_write_off m _ _ hq
    have hone := view_fill hnt hoff hd v
    cases src with
    | nil => exact hone
    | cons ch' src =>
      rw [List.length_cons] at hfit ih
      have hmod : (pa + 1) % PAGE_SIZE = pa % PAGE_SIZE + 1 := by
        unfold PAGE_SIZE at hfit ⊢
        omega
      have hdiv : (pa + 1) / PAGE_SIZE = pa / PAGE_SIZE := by
        unfold PAGE_SIZE at hfit ⊢
        omega
      refine (ih ?_ ?_).trans hone
      · rw [hdiv]
        exact fun ht => hnt ((isTable_storeByte ch hnt _).mp ht)
      · omega

/-- `va2PA` of a user page. -/
theorem va2PA_of_view {e : Pte} (hva : va < VA_MAX) (hv : view m d (vpn va) = some e)
    (huser : pteHas e PTE_USER_BIT = true) :
    va2PA d va m = some (pte2Ppn e <<< PAGE_SHIFT + vaOffset va, pteHas e PTE_COW_BIT) := by
  obtain ⟨t, ht, hvalid, hread⟩ := view_eq_some_iff.mp hv
  have hread' : m.read (t, vaPpn va 0) = e := hread
  have hvalid' : pteValid e = true := hread ▸ hvalid
  unfold va2PA
  rw [if_neg (Nat.not_le.mpr hva), pageWalk_false, ht]
  simp only [Option.map_some, hread', hvalid', huser, Bool.and_self, if_true]

/-- **`copyout`** stores into pages the directory maps. -/
theorem kept_copyoutLoop {pages : Nat → Idx → BitVec 64} {fuel : Nat} (h : MemInv img m dirs)
    (hd : d ∈ dirs) (hok : copyoutLoop segs pages d fuel va src m = .ok m') : Kept img dirs m m' := by
  induction fuel generalizing va src m with
  | zero =>
    cases src with
    | nil =>
      cases hok
      exact Kept.refl img dirs m'
    | cons ch src => cases hok
  | succ fuel ih =>
    cases src with
    | nil =>
      cases hok
      exact Kept.refl img dirs m'
    | cons ch src =>
      obtain ⟨m₁, hp, hok⟩ := Loop.bind_ok hok
      have k₁ := kept_copyPage h hd hp
      split at hok
      · cases hok
      · rename_i pa cow hva
        have hnt := (k₁.inv h).not_isTable_va2PA hd hva
        have hfit : pa % PAGE_SIZE +
            ((ch :: src).take (min (PAGE_SIZE - pa % PAGE_SIZE) (ch :: src).length)).length ≤ PAGE_SIZE := by
          have hlt : pa % PAGE_SIZE < PAGE_SIZE := Nat.mod_lt _ (by decide)
          rw [List.length_take]
          omega
        have k₂ : Kept img dirs m₁ _ := kept_storeBytes hnt hfit
        exact (k₁.trans k₂).trans (ih (k₂.inv (k₁.inv h)) hok)

/-- A buffer within one user page that is mapped and not copy-on-write goes out in one turn. -/
theorem MemInv.copyout_mapped {e : Pte} (h : MemInv img m dirs) (segs : List SegmentMap)
    (pages : Nat → Idx → BitVec 64) (hd : d ∈ dirs) (hva : va < VA_MAX) (hv : view m d (vpn va) = some e) (huser : pteHas e PTE_USER_BIT = true)
    (hcow : pteHas e PTE_COW_BIT = false) (hfit : va % PAGE_SIZE + src.length ≤ PAGE_SIZE) :
    ∃ m', Exaros.copyout segs pages d va src m = .ok m' ∧ ∀ v, view m' d v = view m d v := by
  have hpa := va2PA_of_view hva hv huser
  rw [hcow] at hpa
  have hnt := h.not_isTable_va2PA hd hpa
  have hoff : (pte2Ppn e <<< PAGE_SHIFT + vaOffset va) % PAGE_SIZE = va % PAGE_SIZE := by
    have hpow : PAGE_SIZE = 2 ^ PAGE_SHIFT := by decide
    rw [Nat.shiftLeft_eq, ← hpow, Nat.mul_comm, Nat.mul_add_mod]
    exact Nat.mod_mod ..
  unfold Exaros.copyout
  cases src with
  | nil => exact ⟨m, rfl, fun _ => rfl⟩
  | cons ch src =>
    have hpage : copyPage segs (pages (alignDown va)) d va m = .ok m := by
      unfold copyPage
      simp only [hpa, bind, Except.bind, pure, Except.pure]
    have hmin : min (PAGE_SIZE - va % PAGE_SIZE) (ch :: src).length = (ch :: src).length := by omega
    refine ⟨storeBytes (pte2Ppn e <<< PAGE_SHIFT + vaOffset va) (ch :: src) m, ?_, fun v => ?_⟩
    · simp only [List.length_cons, copyoutLoop, hpage, bind, Except.bind, hpa, hoff]
      rw [List.length_cons] at hmin
      rw [hmin, List.drop_of_length_le (by simp), List.take_of_length_le (by simp)]
      cases src.length <;> rfl
    · exact view_storeBytes hnt (by rwa [hoff]) hd v

theorem kept_copyout {pages : Nat → Idx → BitVec 64} (h : MemInv img m dirs)
    (hd : d ∈ dirs) (hok : copyout segs pages d va src m = .ok m') : Kept img dirs m m' :=
  kept_copyoutLoop h hd hok

end Copy

/-! ## `do_mmap` -/

section Mmap

variable {img : Image} {dirs : Finset Ppn} {m m' : Mem} {d : Ppn} {perm : Pte} {stop start : Nat} {r : Option Int}

theorem touched_mmapPte (p : Ppn) (perm : Pte) : Touched (mmapPte p perm) := by
  unfold Touched mmapPte PTE_ACCESSED_BIT PTE_DIRTY_BIT
  simp only [BitVec.getLsbD_or]
  rw [getLsbD_bit 6 6 (by omega), getLsbD_bit 7 7 (by omega)]
  simp

theorem mmapPte_eq (p : Ppn) (perm : Pte) : mmapPte p perm =
    mkPte p (perm ||| PTE_USER_BIT ||| PTE_DIRTY_BIT ||| PTE_EXECUTE_BIT ||| PTE_ACCESSED_BIT) := by
  unfold mmapPte mkPte
  ac_rfl

/-- The rewrite of a mapped page: it is cleared and its entry written anew. -/
theorem kept_clearPage {page : Ppn} {pte : Slot} (h : MemInv img m dirs) (hd : d ∈ dirs) (hperm : PermOk perm)
    (f : Idx → BitVec 64) (hl : pageLookup d start m = .ok (some (page, pte))) :
    Kept img dirs m ((m.setPage page f).write pte (mmapPte page perm)) := by
  cases hv : view m d (vpn start) with
  | none =>
    rw [pageLookup_none hv] at hl
    cases hl
  | some e =>
    obtain ⟨t, ht, -, hl'⟩ := h.pageLookup_some hd hv
    rw [hl'] at hl
    cases hl
    obtain ⟨hman, hnt, -⟩ := h.leaf d hd _ e hv
    have k₁ : Kept img dirs m (m.setPage (pte2Ppn e) f) := kept_store f hnt
    have hoff : ∀ q, q ≠ pte2Ppn e → (m.setPage (pte2Ppn e) f).ram q = m.ram q := fun q hq => by
      simp [Mem.setPage, hq]
    have ht₁ : leafTable (m.setPage (pte2Ppn e) f) d (vpn start) = some t :=
      ((sameTables_fill hnt hoff).leafTable hd _).trans ht
    have hv₁ : view (m.setPage (pte2Ppn e) f) d (vpn start) = some e := (view_fill hnt hoff hd _).trans hv
    have hbits : PermOk (perm ||| PTE_USER_BIT ||| PTE_DIRTY_BIT ||| PTE_EXECUTE_BIT ||| PTE_ACCESSED_BIT) :=
      (((hperm.or (by decide)).or (by decide)).or (by decide)).or (by decide)
    have hppn : pte2Ppn (mmapPte (pte2Ppn e) perm) = pte2Ppn e := by
      rw [mmapPte_eq, pte2Ppn_mkPte hman.lt hbits]
    have hvalid : pteValid (mmapPte (pte2Ppn e) perm) = true := by
      rw [mmapPte_eq]
      exact pteValid_mkPte _ _
    have hr := remap_rewrite (k₁.inv h) hd ht₁ hv₁ hppn hvalid (touched_mmapPte _ _)
    refine k₁.trans (hr.kept hd fun e' he' => .inr ?_)
    cases he'
    exact target_eq_some_iff.mpr ⟨e, hv₁, hppn.symm⟩

/-- A page of `mmap` leaves the others. -/
theorem kept_mmapPage (h : MemInv img m dirs) (hd : d ∈ dirs) (hperm : PermOk perm)
    (hok : mmapPage d perm stop start m = .ok (r, m')) : Kept img dirs m m' := by
  have hbits : PermOk (perm ||| PTE_USER_BIT ||| PTE_EXECUTE_BIT ||| PTE_ACCESSED_BIT) :=
    ((hperm.or (by decide)).or (by decide)).or (by decide)
  obtain ⟨x, hl, hok⟩ := Loop.bind_ok hok
  cases x with
  | none =>
    cases ha : pageAlloc m with
    | none =>
      simp only [ha] at hok
      cases hok
      exact Kept.refl img dirs m
    | some x =>
      obtain ⟨y, m₁⟩ := x
      simp only [ha] at hok
      obtain ⟨⟨r, m₂⟩, hi, hx⟩ := Loop.bind_ok hok
      cases hx
      exact kept_insertCleared hd ha hbits hi
  | some x =>
    obtain ⟨page, pte⟩ := x
    simp only at hok
    split at hok
    · obtain ⟨⟨pa, m₁⟩, hc, hok⟩ := Loop.bind_ok hok
      have k₁ : Kept img dirs m m₁ := kept_cowHandler h hd hc
      obtain ⟨x, hl₁, hok⟩ := Loop.bind_ok hok
      cases x with
      | none => cases hok
      | some x =>
        cases hok
        exact k₁.trans (kept_clearPage (k₁.inv h) hd hperm _ hl₁)
    · cases hok
      exact kept_clearPage h hd hperm _ hl

theorem alignUp_lt (x : Nat) : alignUp x < 2 ^ 64 := by
  exact Nat.mod_lt _ (by decide)

theorem kept_do_mmap {fuel len : Nat} {sp sp' : Space} {n : Int} (h : MemInv img m dirs) (hd : sp.pgdir ∈ dirs)
    (hstart : start < 2 ^ 64) (hperm : PermOk perm) (hok : do_mmap fuel sp start len perm m = .ok (n, sp', m')) :
    Kept img dirs m m' ∧ sp'.pgdir = sp.pgdir ∧ sp'.segmentMap = sp.segmentMap := by
  have hloop : ∀ start stop r m', start < 2 ^ 64 →
      whilePages (mmapPage sp.pgdir perm stop) stop fuel start m = .ok (r, m') → Kept img dirs m m' := by
    intro start stop r m' hstart hrun
    have hinv := whilePages_inv (I := fun m₁ => MemInv img m₁ dirs ∧ Kept img dirs m m₁) hrun hstart
      ⟨h, Kept.refl img dirs m⟩ fun va s r s' _ hs hb => by
        have k := kept_mmapPage hs.1 hd hperm hb
        exact ⟨k.inv hs.1, hs.2.trans k⟩
    exact hinv.2
  unfold do_mmap at hok
  by_cases halign : start % PAGE_SIZE = 0
  · by_cases hzero : start = 0
    · subst hzero
      simp only [halign, ne_eq, not_true_eq_false, if_true, if_false] at hok
      split at hok
      · cases hok
      · obtain ⟨⟨r, m₁⟩, hrun, hx⟩ := Loop.bind_ok hok
        cases hx
        exact ⟨hloop _ _ _ _ (alignUp_lt _) hrun, rfl, rfl⟩
    · simp only [halign, hzero, ne_eq, not_true_eq_false, if_false] at hok
      obtain ⟨⟨r, m₁⟩, hrun, hx⟩ := Loop.bind_ok hok
      cases hx
      exact ⟨hloop _ _ _ _ hstart hrun, rfl, rfl⟩
  · simp only [halign, ne_eq, not_false_eq_true, if_true] at hok
    cases hok

end Mmap

end Exaros
