import Exaros.Memory.Loaded
import Exaros.Memory.Transfer

/-!
# Strings of a process

`copyInstr` copies a string page by page: it finds the page or brings it in, and copies what lies in it up to a NUL.
What it reads of a range ends with the first NUL or with the range (`reach`).
-/

namespace Exaros

/-- The inner loop of `copyInstr`: what it stores to `dst`, and whether that ends with NUL. -/
def scanPage (m : Mem) (p : Nat) : Nat → List UInt8 × Bool
  | 0 => ([], false)
  | n + 1 =>
    if loadByte m p = 0 then ([0], true)
    else (loadByte m p :: (scanPage m (p + 1) n).1, (scanPage m (p + 1) n).2)

/-- What a call of `copyInstr` comes to: its result, what it stores from `dst` on, and the pages it reads from. -/
structure Fetched where
  ret : Int
  dst : List UInt8
  pages : List Nat

/-- The page of `copyInstr`. -/
def copyInstrPage (segs : List SegmentMap) (data : Nat → Idx → BitVec 64) (pgdir : Ppn) (va0 : Nat) (m : Mem) :
    Except Panic (Nat × Mem) :=
  match va2PA pgdir va0 m with
  | some (pa0, _) => .ok (pa0, m)
  | none => passiveAlloc segs (data va0) pgdir va0 m

/-- `copyInstr`. -/
def copyInstr (segs : List SegmentMap) (data : Nat → Idx → BitVec 64) (pgdir : Ppn) :
    Nat → Nat → Nat → Mem → Except Panic (Fetched × Mem)
  | 0, _, _, _ => .error .endless
  | fuel + 1, srcva, max, m =>
    if max = 0 then .ok (⟨-1, [], []⟩, m)
    else do
      let (pa0, m) ← copyInstrPage segs data pgdir (alignDown srcva) m
      let n := min (PAGE_SIZE - (srcva - alignDown srcva)) max
      let page := scanPage m (pa0 + (srcva - alignDown srcva)) n
      if page.2 then return (⟨0, page.1, [alignDown srcva]⟩, m)
      else do
        let (rest, m) ← copyInstr segs data pgdir fuel (u64 (alignDown srcva + PAGE_SIZE)) (max - n) m
        return (⟨rest.ret, page.1 ++ rest.dst, alignDown srcva :: rest.pages⟩, m)

/-! ## Up to the first NUL -/

/-- How many of `n` bytes are read, up to the first NUL. -/
def reach (byte : Nat → Option UInt8) (va : Nat) : Nat → Nat
  | 0 => 0
  | n + 1 => if byte va = some 0 then 1 else reach byte (va + 1) n + 1

/-- There is a NUL among `n` bytes. -/
def HasNul (byte : Nat → Option UInt8) (va n : Nat) : Prop := ∃ i < n, byte (va + i) = some 0

section Reach

variable {byte byte' : Nat → Option UInt8} {va n k : Nat}

theorem reach_succ (byte : Nat → Option UInt8) (va n : Nat) :
    reach byte va (n + 1) = if byte va = some 0 then 1 else reach byte (va + 1) n + 1 := rfl

theorem reach_le (byte : Nat → Option UInt8) (va n : Nat) : reach byte va n ≤ n := by
  induction n generalizing va with
  | zero => exact Nat.le_refl 0
  | succ n ih =>
    unfold reach
    split
    · exact Nat.succ_pos n
    · exact Nat.succ_le_succ (ih (va + 1))

theorem reach_pos (byte : Nat → Option UInt8) (va : Nat) (h : 0 < n) : 0 < reach byte va n := by
  obtain ⟨n, rfl⟩ := Nat.exists_eq_succ_of_ne_zero (Nat.ne_of_gt h)
  unfold reach
  split
  · exact Nat.one_pos
  · exact Nat.succ_pos _

theorem hasNul_succ : HasNul byte va (n + 1) ↔ byte va = some 0 ∨ HasNul byte (va + 1) n := by
  constructor
  · intro h
    obtain ⟨i, hi, hnul⟩ := h
    cases i with
    | zero => exact .inl hnul
    | succ i => exact .inr ⟨i, Nat.lt_of_succ_lt_succ hi, by rw [Nat.add_assoc, Nat.add_comm 1]; exact hnul⟩
  · intro h
    cases h with
    | inl hnul => exact ⟨0, Nat.succ_pos n, hnul⟩
    | inr h =>
      obtain ⟨i, hi, hnul⟩ := h
      exact ⟨i + 1, Nat.succ_lt_succ hi, by rw [Nat.add_comm i, ← Nat.add_assoc]; exact hnul⟩

theorem hasNul_add : HasNul byte va (k + n) ↔ HasNul byte va k ∨ HasNul byte (va + k) n := by
  induction k generalizing va with
  | zero =>
    rw [Nat.zero_add, Nat.add_zero]
    refine ⟨Or.inr, fun h => h.resolve_left fun hno => ?_⟩
    obtain ⟨i, hi, -⟩ := hno
    exact absurd hi (Nat.not_lt_zero i)
  | succ k ih => rw [Nat.succ_add, hasNul_succ, hasNul_succ, ih, or_assoc, Nat.add_assoc, Nat.add_comm 1]

/-- A range that goes on is read on if no NUL has come. -/
theorem reach_add : (HasNul byte va k → reach byte va (k + n) = reach byte va k) ∧
    (¬ HasNul byte va k → reach byte va (k + n) = k + reach byte (va + k) n) := by
  induction k generalizing va with
  | zero =>
    refine ⟨fun h => ?_, fun _ => by rw [Nat.zero_add, Nat.zero_add, Nat.add_zero]⟩
    obtain ⟨i, hi, -⟩ := h
    exact absurd hi (Nat.not_lt_zero i)
  | succ k ih =>
    rw [Nat.succ_add, hasNul_succ, reach_succ, reach_succ]
    by_cases hnul : byte va = some 0
    · rw [if_pos hnul, if_pos hnul]
      exact ⟨fun _ => rfl, fun h => absurd (.inl hnul) h⟩
    · rw [if_neg hnul, if_neg hnul]
      refine ⟨fun h => ?_, fun h => ?_⟩
      · rw [ih.1 (h.resolve_left hnul)]
      · rw [ih.2 fun hk => h (.inr hk), Nat.add_assoc va, Nat.add_comm 1 k, Nat.add_right_comm]

/-- What is read ends with the first NUL, if there is one. -/
theorem reach_of_hasNul (h : HasNul byte va n) :
    ∃ k, reach byte va n = k + 1 ∧ byte (va + k) = some 0 ∧ ∀ i < k, byte (va + i) ≠ some 0 := by
  induction n generalizing va with
  | zero =>
    obtain ⟨i, hi, -⟩ := h
    exact absurd hi (Nat.not_lt_zero i)
  | succ n ih =>
    unfold reach
    by_cases hnul : byte va = some 0
    · rw [if_pos hnul]
      exact ⟨0, rfl, hnul, fun i hi => absurd hi (Nat.not_lt_zero i)⟩
    · rw [if_neg hnul]
      obtain ⟨k, hk, hlast, hbefore⟩ := ih ((hasNul_succ.mp h).resolve_left hnul)
      refine ⟨k + 1, by rw [hk], ?_, fun i hi => ?_⟩
      · rw [Nat.add_comm k, ← Nat.add_assoc]
        exact hlast
      · cases i with
        | zero => exact hnul
        | succ i =>
          rw [Nat.add_comm i, ← Nat.add_assoc]
          exact hbefore i (Nat.lt_of_succ_lt_succ hi)

/-- Only the bytes that are read matter. -/
theorem reach_congr (h : ∀ i < reach byte va n, byte (va + i) = byte' (va + i)) : reach byte va n = reach byte' va n := by
  induction n generalizing va with
  | zero => rfl
  | succ n ih =>
    have hfirst : byte va = byte' va := h 0 (reach_pos byte va (Nat.succ_pos n))
    rw [reach_succ] at h ⊢
    rw [reach_succ, ← hfirst]
    by_cases hnul : byte va = some 0
    · rw [if_pos hnul, if_pos hnul]
    · rw [if_neg hnul] at h ⊢
      rw [if_neg hnul, ih fun i hi => ?_]
      rw [Nat.add_assoc, Nat.add_comm 1]
      exact h (i + 1) (Nat.succ_lt_succ hi)

theorem hasNul_congr (h : ∀ i < reach byte va n, byte (va + i) = byte' (va + i)) : HasNul byte va n ↔ HasNul byte' va n := by
  have hsame := reach_congr h
  constructor
  · intro hnul
    obtain ⟨k, hk, hlast, -⟩ := reach_of_hasNul hnul
    have hlt : k < reach byte va n := by omega
    exact ⟨k, Nat.lt_of_lt_of_le hlt (reach_le ..), (h k hlt).symm.trans hlast⟩
  · intro hnul
    obtain ⟨k, hk, hlast, -⟩ := reach_of_hasNul hnul
    have hlt : k < reach byte va n := by omega
    exact ⟨k, Nat.lt_of_lt_of_le hlt (reach_le ..), (h k hlt).trans hlast⟩

/-- **The inner loop** reads up to the first NUL. -/
theorem scanPage_spec (m : Mem) (p n : Nat) (h : ∀ i < n, byte (va + i) = some (loadByte m (p + i))) :
    (scanPage m p n).1.map some = (List.range (reach byte va n)).map (fun i => byte (va + i)) ∧
      ((scanPage m p n).2 = true ↔ HasNul byte va n) := by
  induction n generalizing p va with
  | zero =>
    refine ⟨rfl, fun h => (by cases h), fun h => ?_⟩
    obtain ⟨i, hi, -⟩ := h
    exact absurd hi (Nat.not_lt_zero i)
  | succ n ih =>
    have hfirst : byte va = some (loadByte m p) := h 0 (Nat.succ_pos n)
    have hrest : ∀ i < n, byte (va + 1 + i) = some (loadByte m (p + 1 + i)) := fun i hi => by
      rw [Nat.add_assoc, Nat.add_comm 1, Nat.add_assoc p, Nat.add_comm 1]
      exact h (i + 1) (Nat.succ_lt_succ hi)
    rw [hasNul_succ]
    unfold scanPage reach
    by_cases hnul : loadByte m p = 0
    · have hzero : byte va = some 0 := by rw [hfirst, hnul]
      rw [if_pos hnul, if_pos hzero]
      exact ⟨by rw [List.range_one]; exact congrArg (· :: []) hzero.symm, fun _ => .inl hzero, fun _ => rfl⟩
    · have hzero : byte va ≠ some 0 := fun hz => hnul (Option.some.inj (hfirst.symm.trans hz))
      obtain ⟨hdst, hgot⟩ := ih (p + 1) hrest
      rw [if_neg hnul, if_neg hzero]
      refine ⟨?_, hgot.trans ⟨Or.inr, fun h => h.resolve_left hzero⟩⟩
      rw [List.map_cons, hdst, List.range_succ_eq_map, List.map_cons, List.map_map]
      refine congrArg₂ _ hfirst.symm (List.map_congr_left fun i _ => ?_)
      rw [Nat.add_assoc, Nat.add_comm 1]
      rfl

end Reach

/-! ## Pages -/

/-- What a call says of a range of bytes: it has read up to the first NUL, and no page that lies behind it. -/
structure Fetched.Reads (byte : Nat → Option UInt8) (srcva max : Nat) (r : Fetched) : Prop where
  found : HasNul byte srcva max → r.ret = 0
  ungot : ¬ HasNul byte srcva max → r.ret = -1
  dst : r.dst.map some = (List.range (reach byte srcva max)).map fun i => byte (srcva + i)
  pages : ∀ p ∈ r.pages, ∃ i < reach byte srcva max, alignDown (srcva + i) = p

section Reads

variable {byte byte' : Nat → Option UInt8} {srcva max k n : Nat} {r rest : Fetched} {page : List UInt8}

theorem Fetched.Reads.congr (h : r.Reads byte' srcva max)
    (hsame : ∀ i < reach byte srcva max, byte (srcva + i) = byte' (srcva + i)) : r.Reads byte srcva max where
  found := fun hnul => h.found ((hasNul_congr hsame).mp hnul)
  ungot := fun hnul => h.ungot fun hnul' => hnul ((hasNul_congr hsame).mpr hnul')
  dst := by
    rw [h.dst, ← reach_congr hsame]
    exact List.map_congr_left fun i hi => (hsame i (List.mem_range.mp hi)).symm
  pages := by
    rw [reach_congr hsame]
    exact h.pages

/-- The call ends in its first page. -/
theorem Fetched.Reads.last (hnul : HasNul byte srcva k)
    (hpage : page.map some = (List.range (reach byte srcva k)).map fun i => byte (srcva + i)) :
    Fetched.Reads byte srcva (k + n) ⟨0, page, [alignDown srcva]⟩ := by
  have hreach := (reach_add (n := n)).1 hnul
  have hpos : 0 < reach byte srcva k := by
    obtain ⟨i, hi, -⟩ := hnul
    exact reach_pos byte srcva (Nat.zero_lt_of_lt hi)
  refine ⟨fun _ => rfl, fun hno => absurd (hasNul_add.mpr (.inl hnul)) hno, by rw [hreach]; exact hpage, fun p hp => ?_⟩
  · rw [List.mem_singleton.mp hp, hreach]
    exact ⟨0, hpos, rfl⟩

/-- The call goes on after its first page. -/
theorem Fetched.Reads.next (hpos : 0 < k) (hnul : ¬ HasNul byte srcva k)
    (hpage : page.map some = (List.range (reach byte srcva k)).map fun i => byte (srcva + i))
    (h : rest.Reads byte (srcva + k) n) :
    Fetched.Reads byte srcva (k + n) ⟨rest.ret, page ++ rest.dst, alignDown srcva :: rest.pages⟩ := by
  have hall : reach byte srcva k = k := (reach_add (n := 0)).2 hnul
  have hreach := (reach_add (n := n)).2 hnul
  refine ⟨fun hhas => h.found ((hasNul_add.mp hhas).resolve_left hnul), fun hno => h.ungot fun hhas => hno (hasNul_add.mpr (.inr hhas)), ?_, fun p hp => ?_⟩
  · rw [List.map_append, hpage, h.dst, hreach, hall, List.range_add, List.map_append, List.map_map]
    refine congrArg _ (List.map_congr_left fun i _ => ?_)
    rw [Nat.add_assoc]
    rfl
  · rw [hreach]
    cases List.mem_cons.mp hp with
    | inl heq =>
      rw [heq]
      exact ⟨0, by omega, rfl⟩
    | inr hmem =>
      obtain ⟨i, hi, hp⟩ := h.pages p hmem
      exact ⟨k + i, Nat.add_lt_add_left hi k, by rw [← hp, Nat.add_assoc]⟩

end Reads

section Pages

variable {img : Image} {dirs : Finset Ppn} {segs : Ppn → List SegmentMap} {pages : Ppn → Nat → Idx → BitVec 64}
  {m m₁ : Mem} {d : Ppn} {va srcva max fuel len : Nat}

/-- The page is mapped for user mode afterwards, and no process has another byte anywhere. -/
theorem MemInv.copyInstrPage (h : MemInv img m dirs) (hd : d ∈ dirs) (hva : va < VA_MAX) (hal : alignDown va = va)
    (hacc : Accessible (segs d) m d va) (hmem : view m d (vpn va) = none → 1 + missing (hasTable m d) (vpn va) ≤ m.freePageList.length) :
    ∃ e m₁, Exaros.copyInstrPage (segs d) (pages d) d va m = .ok (pte2Ppn e <<< PAGE_SHIFT, m₁) ∧
      view m₁ d (vpn va) = some e ∧ pteHas e PTE_USER_BIT = true ∧
      PageStep img dirs d (vpn va) id (fun y => touchPte y (lazyPerm (segs d) va)) m m₁ ∧
      ∀ d' ∈ dirs, ∀ a < VA_MAX, spaceByte segs pages m₁ d' a = spaceByte segs pages m d' a := by
  have hoff : vaOffset va = 0 := by
    unfold alignDown PAGE_SIZE at hal
    unfold vaOffset PAGE_SIZE
    omega
  unfold Exaros.copyInstrPage
  rcases hacc with ⟨e, hv, hu⟩ | ⟨hv, hl⟩
  · refine ⟨e, m, ?_, hv, hu, .mapped hv ⟨h, fun d' _ v => ?_⟩ rfl fun _ _ => rfl, fun _ _ _ _ => rfl⟩
    · rw [va2PA_of_view hva hv hu, hoff]
      rfl
    · split
      · next hself =>
        rw [hself.1, hself.2, hv]
        rfl
      · rfl
  · have hnone : va2PA d va m = none := va2PA_eq_none hv
    obtain ⟨y, m₁, hrun, hb⟩ := h.passiveAlloc_exact hd hv (pages d va) hl (hmem hv)
    have he := lazyEntry_lazyPerm y hl
    have htwo := missing_le (hasTable m d) (vpn va)
    have hfree := hb.free
    have hr : Ready img dirs segs pages d va (touchPte y (lazyPerm (segs d) va)) m m₁ :=
      hb.filled.ready h hd he.readable.1 he.cow (fun a ha hpage => by
        have hsame := (vpn_eq_iff ha hva).mp hpage
        rw [spaceByte_of_lazy (hpage ▸ hv) ((lazy_congr hsame).mpr hl), faultData_congr hsame, alignDown_congr hsame, hal])
        (by omega)
    refine ⟨_, m₁, ?_, hr.self, hr.user, .absent hv hb.filled.change hb.free hb.tables, hr.byte⟩
    rw [hnone, pte2Ppn_touchPte hb.managed (permOk_lazyPerm _ _)]
    exact hrun.trans (by rw [hoff]; rfl)

/-- The pages of a range, its first and the others. -/
theorem pagesFrom_chunk (h : chunk va max + len ≤ max) (hpos : 0 < len) :
    va + chunk va max = alignDown va + PAGE_SIZE ∧
    pagesFrom (alignDown va) (pagesMet va (chunk va max + len)) =
      vpn va :: pagesFrom (alignDown (va + chunk va max)) (pagesMet (va + chunk va max) len) := by
  have hnext : va + chunk va max = alignDown va + PAGE_SIZE := by
    unfold chunk alignDown PAGE_SIZE at *
    omega
  have hal : alignDown (va + chunk va max) = alignDown va + PAGE_SIZE := by
    rw [hnext]
    unfold alignDown PAGE_SIZE
    omega
  have hcount : pagesMet va (chunk va max + len) = pagesMet (va + chunk va max) len + 1 := by
    unfold pagesMet
    rw [hnext, if_neg (by omega), if_neg (by omega)]
    unfold chunk alignDown PAGE_SIZE at *
    omega
  have hpage : vpn (alignDown va) = vpn va := vpn_congr (by unfold alignDown PAGE_SIZE; omega)
  exact ⟨hnext, by rw [hcount, pagesFrom_succ, hpage, hal]⟩

theorem nodup_pagesMet (h : va + len ≤ VA_MAX) : (pagesFrom (alignDown va) (pagesMet va len)).Nodup := by
  have hmax : VA_MAX = 2 ^ 38 := by decide
  refine nodup_pagesFrom ?_ ?_
  · unfold alignDown PAGE_SIZE
    omega
  · unfold pagesMet
    split
    · unfold alignDown
      omega
    · unfold alignDown PAGE_SIZE
      omega

variable (segs pages) in
/-- **`copyInstr`** reads the string, and no process has another byte anywhere. -/
theorem MemInv.copyInstr (h : MemInv img m dirs) (hd : d ∈ dirs) (hfuel : max < fuel)
    (hrange : srcva + reach (spaceByte segs pages m d) srcva max ≤ VA_MAX)
    (hacc : ∀ i < reach (spaceByte segs pages m d) srcva max, Accessible (segs d) m d (srcva + i))
    (hmem : needed (hasTable m d) (absentPages m d (pagesFrom (alignDown srcva)
      (pagesMet srcva (reach (spaceByte segs pages m d) srcva max)))) ≤ m.freePageList.length) :
    ∃ r m', Exaros.copyInstr (segs d) (pages d) d fuel srcva max m = .ok (r, m') ∧
      r.Reads (spaceByte segs pages m d) srcva max ∧ MemInv img m' dirs ∧
      ∀ d' ∈ dirs, ∀ a < VA_MAX, spaceByte segs pages m' d' a = spaceByte segs pages m d' a := by
  induction fuel generalizing srcva max m with
  | zero => exact absurd hfuel (Nat.not_lt_zero max)
  | succ fuel ih =>
    unfold Exaros.copyInstr
    rcases Nat.eq_zero_or_pos max with rfl | hpos
    · have hno : ¬ HasNul (spaceByte segs pages m d) srcva 0 := fun hnul => by
        obtain ⟨i, hi, -⟩ := hnul
        exact absurd hi (Nat.not_lt_zero i)
      exact ⟨_, m, rfl, ⟨fun hnul => absurd hnul hno, fun _ => rfl, rfl, fun p hp => absurd hp List.not_mem_nil⟩, h, fun _ _ _ _ => rfl⟩
    rw [if_neg (Nat.ne_of_gt hpos)]
    -- the bytes of the first page
    obtain ⟨n, hn⟩ : ∃ n, max = chunk srcva max + n := ⟨max - chunk srcva max, by have := chunk_le srcva max; omega⟩
    have hchunk := chunk_pos srcva hpos
    have hfirst := reach_pos (spaceByte segs pages m d) srcva hpos
    have hva : srcva < VA_MAX := by omega
    have hdown : alignDown srcva ≤ srcva ∧ alignDown (alignDown srcva) = alignDown srcva ∧
        srcva - alignDown srcva = vaOffset srcva ∧ alignDown srcva / PAGE_SIZE = srcva / PAGE_SIZE := by
      unfold alignDown vaOffset PAGE_SIZE
      omega
    obtain ⟨hle, hal, hoff, hdiv⟩ := hdown
    have hpage : vpn (alignDown srcva) = vpn srcva := vpn_congr hdiv
    have hacc₀ : Accessible (segs d) m d (alignDown srcva) := (accessible_congr hdiv).mpr (hacc 0 hfirst)
    have hmem₀ : view m d (vpn (alignDown srcva)) = none →
        1 + missing (hasTable m d) (vpn (alignDown srcva)) ≤ m.freePageList.length := fun hv => by
      have hcount : pagesMet srcva (reach (spaceByte segs pages m d) srcva max) =
          pagesMet srcva (reach (spaceByte segs pages m d) srcva max) - 1 + 1 := by
        unfold pagesMet
        rw [if_neg (Nat.ne_of_gt hfirst)]
        rfl
      rw [hcount, pagesFrom_succ] at hmem
      exact needed_head hv hmem
    obtain ⟨e, m₁, hrun, hv, hu, hstep, hbytes⟩ := h.copyInstrPage hd (Nat.lt_of_le_of_lt hle hva) hal hacc₀ hmem₀
    rw [hpage] at hv hstep
    have hload : ∀ i < chunk srcva max,
        spaceByte segs pages m d (srcva + i) = some (loadByte m₁ (pte2Ppn e <<< PAGE_SHIFT + vaOffset srcva + i)) := fun i hi => by
      have hsame := chunk_page hi
      have hlt : srcva + i < VA_MAX := by
        have hmax : VA_MAX = 2 ^ 26 * PAGE_SIZE := by decide
        rw [hmax] at hva ⊢
        unfold PAGE_SIZE at *
        omega
      rw [← hbytes d hd _ hlt, spaceByte_eq_load ((vpn_congr hsame).symm ▸ hv) hu, vaOffset_add hi, ← Nat.add_assoc]
    obtain ⟨hdst, hgot⟩ := scanPage_spec m₁ _ (chunk srcva max) hload
    have hmin : min (PAGE_SIZE - vaOffset srcva) max = chunk srcva max := rfl
    simp only [hrun, Loop.ok_bind, hoff, hmin]
    by_cases hnul : HasNul (spaceByte segs pages m d) srcva (chunk srcva max)
    · rw [if_pos (hgot.mpr hnul)]
      refine ⟨_, m₁, rfl, ?_, hstep.inv, hbytes⟩
      have hlast := Fetched.Reads.last (n := n) hnul hdst
      rw [← hn] at hlast
      exact hlast
    · rw [if_neg fun hg => hnul (hgot.mp hg)]
      have hsub : max - chunk srcva max = n := by omega
      have hrest : ∃ rest m', Exaros.copyInstr (segs d) (pages d) d fuel (u64 (alignDown srcva + PAGE_SIZE)) n m₁ = .ok (rest, m') ∧
          rest.Reads (spaceByte segs pages m d) (srcva + chunk srcva max) n ∧ MemInv img m' dirs ∧
          ∀ d' ∈ dirs, ∀ a < VA_MAX, spaceByte segs pages m' d' a = spaceByte segs pages m d' a := by
        rcases Nat.eq_zero_or_pos n with rfl | hn0
        · obtain ⟨fuel, rfl⟩ := Nat.exists_eq_succ_of_ne_zero (by omega : fuel ≠ 0)
          have hno : ¬ HasNul (spaceByte segs pages m d) (srcva + chunk srcva max) 0 := fun hnone => by
            obtain ⟨i, hi, -⟩ := hnone
            exact absurd hi (Nat.not_lt_zero i)
          exact ⟨⟨-1, [], []⟩, m₁, rfl, ⟨fun hnone => absurd hnone hno, fun _ => rfl, rfl, fun p hp => absurd hp List.not_mem_nil⟩,
            hstep.inv, hbytes⟩
        · have hreach : reach (spaceByte segs pages m d) srcva max =
              chunk srcva max + reach (spaceByte segs pages m d) (srcva + chunk srcva max) n := by
            have hadd := (reach_add (n := n)).2 hnul
            rwa [← hn] at hadd
          have hle' := reach_le (spaceByte segs pages m d) (srcva + chunk srcva max) n
          have hpos' := reach_pos (spaceByte segs pages m d) (srcva + chunk srcva max) hn0
          rw [hreach] at hrange hacc hmem
          obtain ⟨hnext, hpages⟩ := pagesFrom_chunk (by omega : chunk srcva max +
            reach (spaceByte segs pages m d) (srcva + chunk srcva max) n ≤ max) hpos'
          have hnodup := nodup_pagesMet (by omega : srcva + (chunk srcva max +
            reach (spaceByte segs pages m d) (srcva + chunk srcva max) n) ≤ VA_MAX)
          rw [hpages] at hmem hnodup
          obtain ⟨hnot, -⟩ := List.nodup_cons.mp hnodup
          have hsame : ∀ i < reach (spaceByte segs pages m d) (srcva + chunk srcva max) n,
              spaceByte segs pages m d (srcva + chunk srcva max + i) = spaceByte segs pages m₁ d (srcva + chunk srcva max + i) :=
            fun i hi => (hbytes d hd _ (by omega)).symm
          have hreach₁ := reach_congr hsame
          rw [hreach₁] at hrange hacc hmem hnot
          have hacc₁ : ∀ i < reach (spaceByte segs pages m₁ d) (srcva + chunk srcva max) n,
              Accessible (segs d) m₁ d (srcva + chunk srcva max + i) := fun i hi => by
            have hlater : Accessible (segs d) m d (srcva + chunk srcva max + i) := by
              rw [Nat.add_assoc]
              exact hacc _ (Nat.add_lt_add_left hi _)
            have hlt : srcva / PAGE_SIZE < (srcva + chunk srcva max + i) / PAGE_SIZE :=
              page_lt_of_chunk (Nat.le_add_right (srcva + chunk srcva max) i) (by omega : _ < srcva + max)
            have hne : vpn (srcva + chunk srcva max + i) ≠ vpn srcva := fun heq => by
              have hsame := (vpn_eq_iff (by omega) hva).mp heq
              omega
            unfold Accessible at hlater ⊢
            rw [hstep.off hd fun hc => hne hc.2]
            exact hlater
          obtain ⟨rest, m', hrun', hreads, hinv', hbytes'⟩ :=
            ih hstep.inv (by omega) (by omega) hacc₁ (hstep.needed hd hnot hmem)
          refine ⟨rest, m', ?_, hreads.congr hsame, hinv', fun d' hd' a ha => (hbytes' d' hd' a ha).trans (hbytes d' hd' a ha)⟩
          rw [← hnext, u64_of_le_max (by omega)]
          exact hrun'
      obtain ⟨rest, m', hloop, hreads, hinv, hsame⟩ := hrest
      have hnext := Fetched.Reads.next hchunk hnul hdst hreads
      rw [← hn] at hnext
      refine ⟨_, m', ?_, hnext, hinv, hsame⟩
      rw [hsub, hloop]
      rfl

/-- The bytes of a string that has been read: the last of them is its first NUL. -/
theorem Fetched.Reads.string {byte : Nat → Option UInt8} {r : Fetched} (h : r.Reads byte srcva max) (hnul : HasNul byte srcva max) :
    ∃ s, r.dst = s ++ [0] ∧ 0 ∉ s := by
  obtain ⟨k, hk, hlast, hbefore⟩ := reach_of_hasNul hnul
  have hdst := h.dst
  rw [hk, List.range_succ, List.map_append, List.map_singleton, hlast] at hdst
  obtain ⟨s, t, hst, hs, ht⟩ := List.map_eq_append_iff.mp hdst
  obtain ⟨ch, rfl, hch⟩ := List.map_eq_singleton_iff.mp ht
  obtain rfl := Option.some.inj hch
  refine ⟨s, hst, fun hmem => ?_⟩
  have hin : some 0 ∈ s.map some := List.mem_map_of_mem hmem
  rw [hs] at hin
  obtain ⟨i, hi, hzero⟩ := List.mem_map.mp hin
  exact hbefore i (List.mem_range.mp hi) hzero

theorem Fetched.Reads.length_le {byte : Nat → Option UInt8} {r : Fetched} (h : r.Reads byte srcva max) : r.dst.length ≤ max := by
  have hlen := congrArg List.length h.dst
  rw [List.length_map, List.length_map, List.length_range] at hlen
  rw [hlen]
  exact reach_le byte srcva max

variable (segs pages) in
/-- **Copying a string** ends for every range whose pages can be reached: with 0 exactly if there is a NUL in it, and then
what is stored is the string with its NUL. It stores no more than the range, reads from no page behind the last byte it
needs, and changes no byte of a process. -/
theorem copyInstr_string (h : MemInv img m dirs) (hd : d ∈ dirs) (hfuel : max < fuel)
    (hrange : srcva + reach (spaceByte segs pages m d) srcva max ≤ VA_MAX)
    (hacc : ∀ i < reach (spaceByte segs pages m d) srcva max, Accessible (segs d) m d (srcva + i))
    (hmem : needed (hasTable m d) (absentPages m d (pagesFrom (alignDown srcva)
      (pagesMet srcva (reach (spaceByte segs pages m d) srcva max)))) ≤ m.freePageList.length) :
    ∃ r m', copyInstr (segs d) (pages d) d fuel srcva max m = .ok (r, m') ∧
      (r.ret = 0 ↔ ∃ i < max, spaceByte segs pages m d (srcva + i) = some 0) ∧
      (r.ret = 0 → ∃ s, r.dst = s ++ [0] ∧ 0 ∉ s) ∧
      r.dst.map some = (List.range (reach (spaceByte segs pages m d) srcva max)).map (fun i => spaceByte segs pages m d (srcva + i)) ∧
      r.dst.length ≤ max ∧
      (∀ p ∈ r.pages, ∃ i < reach (spaceByte segs pages m d) srcva max, alignDown (srcva + i) = p) ∧
      MemInv img m' dirs ∧ ∀ d' ∈ dirs, ∀ a < VA_MAX, spaceByte segs pages m' d' a = spaceByte segs pages m d' a := by
  obtain ⟨r, m', hrun, hr, hinv, hbytes⟩ := h.copyInstr segs pages hd hfuel hrange hacc hmem
  have hret : r.ret = 0 ↔ HasNul (spaceByte segs pages m d) srcva max := by
    refine ⟨fun hzero => ?_, hr.found⟩
    by_contra hno
    rw [hr.ungot hno] at hzero
    exact absurd hzero (by decide)
  exact ⟨r, m', hrun, hret, fun hzero => hr.string (hret.mp hzero), hr.dst, hr.length_le, hr.pages, hinv, hbytes⟩

end Pages

/-- The string that ends at the top of a stack that has not been touched. -/
theorem copyInstr_stack_top : ∃ dirs d m r m', MemInv Image.sample m dirs ∧ view m d (vpn (USER_STACK_TOP - 1)) = none ∧
    copyInstr [] (fun _ _ => 0) d 2 (USER_STACK_TOP - 1) 1 m = .ok (r, m') ∧ r.ret = 0 ∧ r.dst = [0] := by
  obtain ⟨dirs, d, m, hinv, hd, -, hlen, hempty⟩ := exists_emptyProcess
  have hlazy : Lazy [] (USER_STACK_TOP - 1) := .inl (by decide)
  have hbyte : spaceByte (fun _ => []) (fun _ _ _ => 0) m d (USER_STACK_TOP - 1) = some 0 := by
    rw [spaceByte_of_lazy (hempty _) hlazy]
    decide
  have hreach : reach (spaceByte (fun _ => []) (fun _ _ _ => 0) m d) (USER_STACK_TOP - 1) 1 = 1 := by
    rw [reach_succ, if_pos hbyte]
  have hacc : ∀ i < reach (spaceByte (fun _ => []) (fun _ _ _ => 0) m d) (USER_STACK_TOP - 1) 1,
      Accessible [] m d (USER_STACK_TOP - 1 + i) := fun i hi => by
    rw [hreach] at hi
    obtain rfl : i = 0 := by omega
    exact .inr ⟨hempty _, hlazy⟩
  have hmem : needed (hasTable m d) (absentPages m d (pagesFrom (alignDown (USER_STACK_TOP - 1)) (pagesMet (USER_STACK_TOP - 1)
      (reach (spaceByte (fun _ => []) (fun _ _ _ => 0) m d) (USER_STACK_TOP - 1) 1)))) ≤ m.freePageList.length := by
    have hone : pagesMet (USER_STACK_TOP - 1) 1 = 1 := by decide
    have hcons : absentPages m d [vpn (alignDown (USER_STACK_TOP - 1))] = [vpn (alignDown (USER_STACK_TOP - 1))] :=
      List.filter_cons_of_pos (by rw [hempty]; rfl)
    have htwo := missing_le (hasTable m d) (vpn (alignDown (USER_STACK_TOP - 1)))
    rw [hreach, hone, pagesFrom_succ]
    show needed (hasTable m d) (absentPages m d [vpn (alignDown (USER_STACK_TOP - 1))]) ≤ _
    rw [hcons]
    unfold needed needed
    omega
  obtain ⟨r, m', hrun, hret, -, hdst, -⟩ := copyInstr_string (fun _ => []) (fun _ _ _ => 0) hinv hd
    (Nat.lt_succ_self 1 : 1 < 2) (by rw [hreach]; decide) hacc hmem
  rw [hreach, List.range_one, List.map_singleton, Nat.add_zero, hbyte] at hdst
  obtain ⟨ch, hr, hch⟩ := List.map_eq_singleton_iff.mp hdst
  obtain rfl := Option.some.inj hch
  exact ⟨dirs, d, m, r, m', hinv, hempty _, hrun, hret.mpr ⟨0, Nat.one_pos, hbyte⟩, hr⟩

end Exaros
