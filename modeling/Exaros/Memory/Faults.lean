import Exaros.Memory.Edits

/-!
# Page faults

When `passiveAlloc` and `cowHandler` bring a page in: an address of the stack or of a segment, or an entry
that is copy-on-write, and memory for the page and the tables above it.
-/

namespace Exaros

section Faults

variable {img : Image} {dirs : Finset Ppn} {m m₁ : Mem} {d y : Ppn} {va : Nat} {perm : Pte}

/-- A page that was free is filled and mapped, or there is no page for a table. -/
theorem MemInv.insertFresh (h : MemInv img m dirs) (hd : d ∈ dirs) (va : Nat) (ha : pageAlloc m = some (y, m₁))
    (data : Idx → BitVec 64) (hperm : PermOk perm) :
    (∃ m', Exaros.pageInsert d va y perm (m₁.setPage y data) = .ok (0, m') ∧
      Filled img dirs d (vpn va) (touchPte y perm) data m m' ∧
      m.freePageList.length ≤ m'.freePageList.length + 3) ∨
    (∃ m', Exaros.pageInsert d va y perm (m₁.setPage y data) = .ok (-E_NO_MEM, m') ∧ Unseen img dirs m m' ∧
      (leafTable m d (vpn va) = none ∧ ¬ IsTable m' dirs y) ∧ m.freePageList.length < 3) := by
  have tk := h.taken ha
  have hnt : ¬ IsTable m₁ dirs y := tk.usable.2.2
  have hram : ∀ q, q ≠ y → (m₁.setPage y data).ram q = m₁.ram q := fun q hq => by simp [Mem.setPage, hq]
  have hinv : MemInv img (m₁.setPage y data) dirs := tk.inv.data hnt hram rfl (List.Sublist.refl _)
  have hst := sameTables_fill hnt hram
  have hquiet : Quiet img dirs m (m₁.setPage y data) := ⟨hinv, fun d' hd' v =>
    (view_fill hnt hram hd' v).trans (tk.view d' hd' v)⟩
  have hus : Usable (m₁.setPage y data) dirs y := ⟨tk.usable.1, tk.usable.2.1, mt (hst.isTable y).mp hnt⟩
  rcases hinv.pageInsert hd va hus hperm with ⟨m', hi, hr, hlen⟩ | ⟨m', hi, hg, hno, hlen⟩
  · have hppn := pte2Ppn_touchPte hus.1 hperm
    refine .inl ⟨m', hi, ⟨hquiet.change hr.change, ?_, ?_, fun p hp hnt' => ?_⟩, ?_⟩
    · rw [hppn]
      exact tk.mem
    · rw [hppn, hr.data y (hr.not_isTable hus.2.1 hus.2.2)]
      simp [Mem.setPage]
    · rw [hppn] at hp
      rw [hr.data p hnt', hram p hp, tk.ram p hp]
    rw [tk.free, List.length_cons]
    have : m₁.freePageList.length ≤ m'.freePageList.length + 2 := hlen
    omega
  · refine .inr ⟨m', hi, ⟨hquiet.trans hg.quiet, fun d' hd' v e he => ?_⟩, ?_, ?_⟩
    · have hne : pte2Ppn e ≠ y := tk.unmapped d' hd' v e he
      have hleaf := (hg.inv.leaf d' hd' v e ?_).2.1
      · rw [hg.data _ hleaf, hram _ hne, tk.ram _ hne]
      · rw [hg.view d' hd' v, hquiet.view d' hd' v, he]
    · rw [← tk.tables.leafTable hd, ← hst.leafTable hd]
      exact ⟨hno, (hg.usable hus).2.2⟩
    · rw [tk.free, List.length_cons]
      have : m₁.freePageList.length < 2 := hlen
      omega

/-- The page that starts at `va`'s page is brought in on demand. -/
def Lazy (segs : List SegmentMap) (va : Nat) : Prop :=
  (USER_STACK_BOTTOM ≤ va ∧ va < USER_STACK_TOP) ∨ ∃ seg ∈ segs, seg.meets (alignDown va) = true

instance (segs : List SegmentMap) (va : Nat) : Decidable (Lazy segs va) := by
  unfold Lazy
  infer_instance

theorem pageAlloc_of_pos (h : 0 < m.freePageList.length) : ∃ y m₁, pageAlloc m = some (y, m₁) := by
  unfold pageAlloc
  cases hf : m.freePageList with
  | nil => simp [hf] at h
  | cons y rest => exact ⟨y, _, rfl⟩

theorem setPage_self (m : Mem) (y : Ppn) : m.setPage y (m.ram y) = m := by
  have : (fun p => if p = y then m.ram y else m.ram p) = m.ram := by
    funext p
    split
    · next h => rw [h]
    · rfl
  unfold Mem.setPage
  rw [this]

theorem permOk_segments (l : List SegmentMap) (perm : Pte) (h : PermOk perm) :
    PermOk (l.foldl (fun perm s => perm ||| (s.flag &&& ~~~ MAP_ZERO)) perm) := by
  induction l generalizing perm with
  | nil => exact h
  | cons s l ih =>
    refine ih _ (h.or (PermOk.and ?_ _))
    rcases s.flag_mem with hf | hf
    · rw [hf]
      exact ((permOk_bit (by omega)).or (permOk_bit (by omega))).or (permOk_bit (by omega))
    · rw [hf]
      exact ((permOk_bit (by omega)).or (permOk_bit (by omega))).or (permOk_bit (by omega))

/-- **`passiveAlloc`** maps a page that was free at an address of the stack or of a segment. -/
theorem MemInv.passiveAlloc_ok (h : MemInv img m dirs) (hd : d ∈ dirs) {segs : List SegmentMap} (data : Idx → BitVec 64)
    (hlazy : Lazy segs va) (hmem : 3 ≤ m.freePageList.length) :
    ∃ pa m', Exaros.passiveAlloc segs data d va m = .ok (pa, m') ∧ Fresh img dirs d (vpn va) m m' := by
  obtain ⟨y, m₁, ha⟩ := pageAlloc_of_pos (m := m) (by omega)
  unfold passiveAlloc
  by_cases hstack : USER_STACK_BOTTOM ≤ va ∧ va < USER_STACK_TOP
  · have hperm : PermOk (PTE_READ_BIT ||| PTE_WRITE_BIT ||| PTE_USER_BIT) :=
      ((permOk_bit (by omega)).or (permOk_bit (by omega))).or (permOk_bit (by omega))
    rcases h.insertFresh hd va ha (m₁.ram y) hperm with ⟨m', hi, hc, -⟩ | ⟨m', -, -, -, hlen⟩
    · rw [setPage_self] at hi
      refine ⟨y <<< PAGE_SHIFT + vaOffset va, m', ?_, hc.fresh⟩
      rw [if_pos hstack, ha]
      simp only [bind, Except.bind, hi]
      rfl
    · omega
  · obtain ⟨seg, hseg, hmeets⟩ := hlazy.resolve_left hstack
    cases hfilter : segs.filter (·.meets (alignDown va)) with
    | nil =>
      have : seg ∈ segs.filter (·.meets (alignDown va)) := List.mem_filter.mpr ⟨hseg, hmeets⟩
      rw [hfilter] at this
      cases this
    | cons s rest =>
      have hperm : PermOk (PTE_USER_BIT ||| (s :: rest).foldl (fun perm s => perm ||| (s.flag &&& ~~~ MAP_ZERO)) 0) :=
        (permOk_bit (by omega)).or (permOk_segments _ 0 (by rw [permOk_iff]; simp))
      rcases h.insertFresh hd va ha data hperm with ⟨m', hi, hc, -⟩ | ⟨m', -, -, -, hlen⟩
      · refine ⟨y <<< PAGE_SHIFT + vaOffset va, m', ?_, hc.fresh⟩
        rw [if_neg hstack, ha]
        simp only [bind, Except.bind, hi]
        rfl
      · omega

/-- **`cowHandler`** copies a copy-on-write page. -/
theorem MemInv.cowHandler_ok (h : MemInv img m dirs) (hd : d ∈ dirs) {e : Pte} (hv : view m d (vpn va) = some e)
    (hcow : pteHas e PTE_COW_BIT = true) (hmem : 0 < m.freePageList.length) :
    ∃ pa m', Exaros.cowHandler d va m = .ok (pa, m') ∧ (∃ e y, Copied img dirs d (vpn va) e y m m') ∧
      m.freePageList.length ≤ m'.freePageList.length + 3 := by
  obtain ⟨y, m₁, ha⟩ := pageAlloc_of_pos hmem
  have tk := h.taken ha
  obtain ⟨t, ht, hread, hl⟩ := h.pageLookup_some hd hv
  have hne : t ≠ y := fun hty => (h.free y tk.mem).2.1 (hty ▸ isTable_of_leafTable hd ht)
  have hread₁ : (m₁.setPage y (m₁.ram (pte2Ppn e))).read (t, vaPpn va 0) = e := by
    rw [← hread]
    unfold Mem.read
    simp [Mem.setPage, hne, tk.ram t hne]
  have heq := cowHandler_eq hl hread hread₁ hcow ha
  rcases h.insertFresh hd va ha (m₁.ram (pte2Ppn e)) (permOk_cowPerm e) with
    ⟨m', hi, -, hlen⟩ | ⟨m', -, -, ⟨hno, -⟩, -⟩
  · rw [hi] at heq
    exact ⟨_, m', heq, h.cowHandler hd heq, hlen⟩
  · rw [ht] at hno
    cases hno

end Faults

end Exaros
