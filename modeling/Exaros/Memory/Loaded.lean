import Exaros.Memory.Growth
import Exaros.Memory.Visible

/-!
# Pages that are loaded

What a page that `passiveAlloc` brings in takes from the free list, and the entry it gets: the tables on the way to
it and the page itself, with the permissions of the stack or of the segments that meet it.
-/

namespace Exaros

/-- The permissions `passiveAlloc` maps the page of an address with. -/
def lazyPerm (segs : List SegmentMap) (badAddr : Nat) : Pte :=
  if USER_STACK_BOTTOM ≤ badAddr ∧ badAddr < USER_STACK_TOP then PTE_READ_BIT ||| PTE_WRITE_BIT ||| PTE_USER_BIT
  else PTE_USER_BIT ||| (segs.filter (·.meets (alignDown badAddr))).foldl (fun perm s => perm ||| (s.flag &&& ~~~ MAP_ZERO)) 0

/-- A page that was free has been filled and mapped, and the tables it took are there. -/
structure Brought (img : Image) (dirs : Finset Ppn) (d : Ppn) (v : Vpn) (y : Ppn) (perm : Pte) (data : Idx → BitVec 64)
    (m m' : Mem) : Prop where
  filled : Filled img dirs d v (touchPte y perm) data m m'
  free : m.freePageList.length = m'.freePageList.length + (1 + missing (hasTable m d) v)
  tables : ∀ p, p.length ≤ 2 → hasTable m' d p = withPath (hasTable m d) v p
  managed : Managed y

section Loaded

variable {img : Image} {dirs : Finset Ppn} {m m₁ m' : Mem} {d y : Ppn} {va : Nat} {perm : Pte}

theorem permOk_lazyPerm (segs : List SegmentMap) (badAddr : Nat) : PermOk (lazyPerm segs badAddr) := by
  unfold lazyPerm
  split
  · decide
  · exact permOk_lazy _

theorem lazyEntry_lazyPerm (y : Ppn) {segs : List SegmentMap} {badAddr : Nat} (h : Lazy segs badAddr) :
    LazyEntry (touchPte y (lazyPerm segs badAddr)) := by
  unfold lazyPerm
  by_cases hstack : USER_STACK_BOTTOM ≤ badAddr ∧ badAddr < USER_STACK_TOP
  · rw [if_pos hstack]
    exact lazyEntry_of_bits y (by decide) (by decide) (by decide) (by decide)
  · rw [if_neg hstack]
    obtain ⟨seg, hseg, hmeets⟩ := h.resolve_left hstack
    have hmem : seg ∈ segs.filter (·.meets (alignDown badAddr)) := List.mem_filter.mpr ⟨hseg, hmeets⟩
    obtain ⟨s, rest, hfilter⟩ := List.exists_cons_of_ne_nil (List.ne_nil_of_mem hmem)
    rw [hfilter]
    exact lazyEntry_segments y s rest

/-- A page that was free, with enough others for the tables. -/
theorem MemInv.insertFresh_exact (h : MemInv img m dirs) (hd : d ∈ dirs) (hv : view m d (vpn va) = none)
    (ha : pageAlloc m = some (y, m₁)) (data : Idx → BitVec 64) (hperm : PermOk perm)
    (hmem : 1 + missing (hasTable m d) (vpn va) ≤ m.freePageList.length) :
    ∃ m', Exaros.pageInsert d va y perm (m₁.setPage y data) = .ok (0, m') ∧ Brought img dirs d (vpn va) y perm data m m' := by
  have tk := h.taken ha
  have hnt : ¬ IsTable m₁ dirs y := tk.usable.2.2
  have hram : ∀ q, q ≠ y → (m₁.setPage y data).ram q = m₁.ram q := fun q hq => by simp [Mem.setPage, hq]
  have hst : SameTables m₁ (m₁.setPage y data) dirs := sameTables_fill hnt hram
  have hhas : ∀ p, p.length ≤ 2 → hasTable (m₁.setPage y data) d p = hasTable m d p := fun p hp => by
    rw [hst.hasTable hd hp, tk.tables.hasTable hd hp]
  have hmissing := missing_congr (v := vpn va) hhas
  have hlen : m.freePageList.length = m₁.freePageList.length + 1 := by rw [tk.free, List.length_cons]
  have hinv : MemInv img (m₁.setPage y data) dirs := tk.inv.data hnt hram rfl (List.Sublist.refl _)
  have hus : Usable (m₁.setPage y data) dirs y := ⟨tk.usable.1, tk.usable.2.1, mt (hst.isTable y).mp hnt⟩
  have habsent : view (m₁.setPage y data) d (vpn va) = none := by
    rw [view_fill hnt hram hd, tk.view d hd, hv]
  rw [pageInsert_absent habsent]
  obtain ⟨m', hi, r, hl, hp⟩ | ⟨m', -, -, -, hl⟩ := hinv.pageInsertNew hd habsent hus hperm
  · obtain ⟨m₂, hi₂, hfill, -⟩ | ⟨m₂, hi₂, -⟩ := h.insertFresh hd va ha data hperm
    · rw [pageInsert_absent habsent, hi] at hi₂
      cases hi₂
      refine ⟨m', congrArg Except.ok hi, hfill, ?_, fun p hp' => ?_, hus.1⟩
      · rw [← hmissing, hlen]
        have hl' : m₁.freePageList.length = m'.freePageList.length + missing (hasTable (m₁.setPage y data) d) (vpn va) := hl
        omega
      · rw [hp p hp']
        unfold withPath
        rw [hhas p hp']
    · rw [pageInsert_absent habsent, hi] at hi₂
      cases hi₂
  · have hl' : m₁.freePageList.length < missing (hasTable (m₁.setPage y data) d) (vpn va) := hl
    omega

/-- **`passiveAlloc`** brings in a page of the stack or of a segment, when there is memory for it and its tables. -/
theorem MemInv.passiveAlloc_exact (h : MemInv img m dirs) (hd : d ∈ dirs) (hv : view m d (vpn va) = none) {segs : List SegmentMap}
    (data : Idx → BitVec 64) (hlazy : Lazy segs va) (hmem : 1 + missing (hasTable m d) (vpn va) ≤ m.freePageList.length) :
    ∃ y m', Exaros.passiveAlloc segs data d va m = .ok (y <<< PAGE_SHIFT + vaOffset va, m') ∧
      Brought img dirs d (vpn va) y (lazyPerm segs va) (faultData va data) m m' := by
  obtain ⟨y, m₁, ha⟩ := pageAlloc_of_pos (m := m) (by omega)
  have tk := h.taken ha
  have hperm := permOk_lazyPerm segs va
  obtain ⟨m', hi, hb⟩ := h.insertFresh_exact hd hv ha (faultData va data) hperm hmem
  refine ⟨y, m', ?_, hb⟩
  unfold passiveAlloc
  by_cases hstack : USER_STACK_BOTTOM ≤ va ∧ va < USER_STACK_TOP
  · have hdata : faultData va data = m₁.ram y := by
      unfold faultData
      rw [if_pos hstack]
      funext i
      exact (tk.cleared i).symm
    unfold lazyPerm at hi
    rw [hdata, setPage_self, if_pos hstack] at hi
    rw [if_pos hstack, ha]
    simp only [bind, Except.bind, hi]
    rfl
  · have hdata : faultData va data = data := if_neg hstack
    obtain ⟨seg, hseg, hmeets⟩ := hlazy.resolve_left hstack
    unfold lazyPerm at hi
    rw [hdata, if_neg hstack] at hi
    rw [if_neg hstack]
    cases hfilter : segs.filter (·.meets (alignDown va)) with
    | nil =>
      have hmem : seg ∈ segs.filter (·.meets (alignDown va)) := List.mem_filter.mpr ⟨hseg, hmeets⟩
      rw [hfilter] at hmem
      cases hmem
    | cons s rest =>
      rw [hfilter] at hi
      rw [ha]
      simp only [bind, Except.bind, hi]
      rfl

end Loaded

/-! ## Some pages -/

/-- What becomes of one page: a mapped one gets another entry, an absent one is brought in. -/
inductive PageStep (img : Image) (dirs : Finset Ppn) (d : Ppn) (v : Vpn) (new : Pte → Pte) (loaded : Ppn → Pte) (m m' : Mem) : Prop
  | mapped {e : Pte} (hv : view m d v = some e) (change : Change img dirs d v (some (new e)) m m')
      (free : m'.freePageList = m.freePageList) (tables : ∀ p, p.length ≤ 2 → hasTable m' d p = hasTable m d p)
  | absent {y : Ppn} (hv : view m d v = none) (change : Change img dirs d v (some (loaded y)) m m')
      (free : m.freePageList.length = m'.freePageList.length + (1 + missing (hasTable m d) v))
      (tables : ∀ p, p.length ≤ 2 → hasTable m' d p = withPath (hasTable m d) v p)

/-- What becomes of some pages. -/
structure Reset (img : Image) (dirs : Finset Ppn) (d : Ppn) (vs : List Vpn) (new : Pte → Pte) (loaded : Vpn → Ppn → Pte) (m m' : Mem) :
    Prop where
  inv : MemInv img m' dirs
  mapped : ∀ v ∈ vs, ∀ e, view m d v = some e → view m' d v = some (new e)
  absent : ∀ v ∈ vs, view m d v = none → ∃ y, view m' d v = some (loaded v y)
  off : ∀ d' ∈ dirs, ∀ v, ¬ (d' = d ∧ v ∈ vs) → view m' d' v = view m d' v

/-- The pages of a list that are not mapped. -/
def absentPages (m : Mem) (d : Ppn) (vs : List Vpn) : List Vpn := vs.filter fun v => (view m d v).isNone

section Pages

variable {img : Image} {dirs : Finset Ppn} {m m₁ m' : Mem} {d : Ppn} {v : Vpn} {vs : List Vpn} {new : Pte → Pte}
  {loaded : Vpn → Ppn → Pte} {found : Ppn → Pte} {perm : Pte} {segs : List SegmentMap} {va : Nat}

theorem Reset.refl (h : MemInv img m dirs) (d : Ppn) : Reset img dirs d [] new loaded m m where
  inv := h
  mapped := fun _ hv => absurd hv List.not_mem_nil
  absent := fun _ hv => absurd hv List.not_mem_nil
  off := fun _ _ _ _ => rfl

theorem PageStep.off (s : PageStep img dirs d v new found m m₁) {d' : Ppn} (hd' : d' ∈ dirs) {w : Vpn} (hne : ¬ (d' = d ∧ w = v)) :
    view m₁ d' w = view m d' w := by
  cases s with
  | mapped _ change _ _ => exact change.view_off hd' hne
  | absent _ change _ _ => exact change.view_off hd' hne

theorem PageStep.inv (s : PageStep img dirs d v new found m m₁) : MemInv img m₁ dirs := by
  cases s with
  | mapped _ change _ _ => exact change.inv
  | absent _ change _ _ => exact change.inv

/-- One page, and then others. -/
theorem PageStep.reset (s : PageStep img dirs d v new (loaded v) m m₁) (hd : d ∈ dirs) (hv : v ∉ vs)
    (r : Reset img dirs d vs new loaded m₁ m') : Reset img dirs d (v :: vs) new loaded m m' where
  inv := r.inv
  mapped := fun w hw e he => by
    by_cases hwv : w = v
    · rw [hwv] at he ⊢
      rw [r.off d hd v fun hc => hv hc.2]
      cases s with
      | mapped hsome change _ _ =>
        rw [he] at hsome
        cases hsome
        exact change.view_self hd
      | absent hnone _ _ _ =>
        rw [he] at hnone
        cases hnone
    · refine r.mapped w ((List.mem_cons.mp hw).resolve_left hwv) e ?_
      rw [s.off hd fun hc => hwv hc.2, he]
  absent := fun w hw hnone => by
    by_cases hwv : w = v
    · rw [hwv] at hnone ⊢
      rw [r.off d hd v fun hc => hv hc.2]
      cases s with
      | mapped hsome _ _ _ =>
        rw [hnone] at hsome
        cases hsome
      | absent _ change _ _ => exact ⟨_, change.view_self hd⟩
    · refine r.absent w ((List.mem_cons.mp hw).resolve_left hwv) ?_
      rw [s.off hd fun hc => hwv hc.2, hnone]
  off := fun d' hd' w hw => by
    rw [r.off d' hd' w fun hc => hw ⟨hc.1, List.mem_cons_of_mem _ hc.2⟩]
    exact s.off hd' fun hc => hw ⟨hc.1, hc.2 ▸ List.mem_cons_self ..⟩

theorem PageStep.off_of_mem (s : PageStep img dirs d v new found m m₁) (hd : d ∈ dirs) (hv : v ∉ vs) {w : Vpn} (hw : w ∈ vs) :
    view m₁ d w = view m d w :=
  s.off hd fun hc => hv (hc.2 ▸ hw)

/-- The memory left is what the other pages take. -/
theorem PageStep.needed (s : PageStep img dirs d v new found m m₁) (hd : d ∈ dirs) (hv : v ∉ vs)
    (hmem : needed (hasTable m d) (absentPages m d (v :: vs)) ≤ m.freePageList.length) :
    needed (hasTable m₁ d) (absentPages m₁ d vs) ≤ m₁.freePageList.length := by
  have hrest : absentPages m₁ d vs = absentPages m d vs := List.filter_congr fun w hw => by
    rw [s.off hd fun hc => hv (hc.2 ▸ hw)]
  rw [hrest]
  cases s with
  | mapped hsome _ free tables =>
    have hhead : absentPages m d (v :: vs) = absentPages m d vs := List.filter_cons_of_neg (by rw [hsome]; exact Bool.false_ne_true)
    rw [hhead] at hmem
    rw [free, needed_congr tables]
    exact hmem
  | absent hnone _ free tables =>
    have hhead : absentPages m d (v :: vs) = v :: absentPages m d vs := List.filter_cons_of_pos (by rw [hnone]; rfl)
    rw [hhead] at hmem
    rw [needed_congr tables]
    unfold Exaros.needed at hmem
    omega

/-- There is memory for the first page. -/
theorem needed_head {n : Nat} (hv : view m d v = none) (hmem : needed (hasTable m d) (absentPages m d (v :: vs)) ≤ n) :
    1 + missing (hasTable m d) v ≤ n := by
  have hhead : absentPages m d (v :: vs) = v :: absentPages m d vs := List.filter_cons_of_pos (by rw [hv]; rfl)
  rw [hhead] at hmem
  unfold needed at hmem
  omega

/-- **The loop** over pages that are mapped or can be brought in. Where the two bodies agree on every page that is absent, so
do the loops. -/
theorem MemInv.resetLoop (body body' : Nat → Mem → Except Panic (Option Int × Mem)) (same : Nat → Prop) (loaded : Vpn → Ppn → Pte)
    {start n fuel stop : Nat}
    (hbody : ∀ va m, MemInv img m dirs → va % PAGE_SIZE = 0 → va < 2 ^ 39 → (view m d (vpn va) = none → Lazy segs va) →
      (view m d (vpn va) = none → 1 + missing (hasTable m d) (vpn va) ≤ m.freePageList.length) →
      ∃ m', body va m = .ok (none, m') ∧ PageStep img dirs d (vpn va) new (loaded (vpn va)) m m' ∧
        ((view m d (vpn va) = none → same va) → body' va m = .ok (none, m')))
    (h : MemInv img m dirs) (hd : d ∈ dirs) (hfuel : n < fuel) (hal : start % PAGE_SIZE = 0) (hstop : stop = start + n * PAGE_SIZE)
    (hmax : n ≠ 0 → stop ≤ 2 ^ 39) (hlt : stop < 2 ^ 64)
    (hlazy : ∀ k < n, view m d (vpn (start + k * PAGE_SIZE)) = none → Lazy segs (start + k * PAGE_SIZE))
    (hmem : needed (hasTable m d) (absentPages m d (pagesFrom start n)) ≤ m.freePageList.length) :
    ∃ m', whilePages body stop fuel start m = .ok (none, m') ∧ Reset img dirs d (pagesFrom start n) new loaded m m' ∧
      ((∀ k < n, view m d (vpn (start + k * PAGE_SIZE)) = none → same (start + k * PAGE_SIZE)) →
        whilePages body' stop fuel start m = .ok (none, m')) := by
  induction n generalizing m start fuel with
  | zero =>
    exact ⟨m, whilePages_end hfuel (by omega), Reset.refl h d, fun _ => whilePages_end hfuel (by omega)⟩
  | succ n ih =>
    obtain ⟨fuel, rfl⟩ := Nat.exists_eq_succ_of_ne_zero (Nat.ne_of_gt (Nat.zero_lt_of_lt hfuel))
    have hmax := hmax (Nat.succ_ne_zero n)
    have hnodup : (pagesFrom start (n + 1)).Nodup := nodup_pagesFrom hal (by omega)
    rw [pagesFrom_succ] at hnodup hmem ⊢
    obtain ⟨hnot, -⟩ := List.nodup_cons.mp hnodup
    have hfirst : start + 0 * PAGE_SIZE = start := by rw [Nat.zero_mul, Nat.add_zero]
    have hlazy₀ : view m d (vpn start) = none → Lazy segs start := fun hv => by
      have hl := hlazy 0 (Nat.succ_pos n)
      rw [hfirst] at hl
      exact hl hv
    have hmem₀ : view m d (vpn start) = none → 1 + missing (hasTable m d) (vpn start) ≤ m.freePageList.length :=
      fun hv => needed_head hv hmem
    obtain ⟨m₁, hrun, hs, hsame⟩ := hbody start m h hal (by unfold PAGE_SIZE at *; omega) hlazy₀ hmem₀
    have hview : ∀ k < n, view m₁ d (vpn (start + PAGE_SIZE + k * PAGE_SIZE)) = view m d (vpn (start + (k + 1) * PAGE_SIZE)) :=
      fun k hk => by
        rw [page_succ]
        exact hs.off_of_mem hd hnot (mem_pagesFrom.mpr ⟨k, hk, rfl⟩)
    obtain ⟨m', hloop, hr, hsame'⟩ := ih hs.inv (Nat.lt_of_succ_lt_succ hfuel) (by unfold PAGE_SIZE at *; omega)
      (hstop.trans (page_succ ..)) (fun _ => hmax) (fun k hk hv => by rw [← page_succ]; exact hlazy (k + 1) (Nat.succ_lt_succ hk) ((hview k hk).symm.trans hv))
      (hs.needed hd hnot hmem)
    have hstep : ∀ f : Nat → Mem → Except Panic (Option Int × Mem), f start m = .ok (none, m₁) →
        whilePages f stop fuel (start + PAGE_SIZE) m₁ = .ok (none, m') → whilePages f stop (fuel + 1) start m = .ok (none, m') :=
      fun f hf hrest => by
        rw [whilePages_turn hstop hlt, hf]
        exact hrest
    refine ⟨m', hstep body hrun hloop, hs.reset hd hnot hr, fun hall => hstep body' (hsame fun hv => ?_) (hsame' fun k hk hv => ?_)⟩
    · have hfirst' := hall 0 (Nat.succ_pos n)
      rw [hfirst] at hfirst'
      exact hfirst' hv
    · rw [← page_succ]
      exact hall (k + 1) (Nat.succ_lt_succ hk) ((hview k hk).symm.trans hv)

end Pages

end Exaros
