import Exaros.Memory.Growth
import Exaros.Memory.Loads

/-!
# The break

`syscallBrk` checks an address against the top of its region only, and after it has been rounded up; and it leaves
the pages it has mapped when there is none for the next. `Brk.Meets` is what is left of the calls: there the break
stays in its region, and the pages of the region that are mapped are those below it.
-/

namespace Exaros

open Run

/-- Memory with its directories, and the memory of one process. -/
structure Brk where
  mem : Mem
  dirs : Finset Ppn
  sp : Space

namespace Brk

/-- A page of the brk region. -/
def Region (v : Vpn) : Prop := USER_BRK_HEAP_BOTTOM ≤ vpnAddr v ∧ vpnAddr v < USER_BRK_HEAP_TOP

/-- **The invariant**: the break is in its region, where just the pages below it are mapped. -/
structure Inv (img : Image) (s : Brk) : Prop where
  mem : MemInv img s.mem s.dirs
  dir : s.sp.pgdir ∈ s.dirs
  low : USER_BRK_HEAP_BOTTOM ≤ s.sp.brkHeapTop
  high : s.sp.brkHeapTop ≤ USER_BRK_HEAP_TOP
  mapped : ∀ v, Region v → ((view s.mem s.sp.pgdir v).isSome ↔ vpnAddr v < alignUp s.sp.brkHeapTop)

/-- The pages a call adds. -/
def added (s : Brk) (addr : Nat) : List Vpn :=
  pagesFrom (alignUp s.sp.brkHeapTop) ((alignUp addr - alignUp s.sp.brkHeapTop) / PAGE_SIZE)

/-- What a call has to meet: the address is 0, or not below the region nor where rounding up wraps; and when the break
grows, there is memory for all the pages or not for the first. -/
def Meets (s : Brk) (addr : Nat) : Prop :=
  addr = 0 ∨ USER_BRK_HEAP_BOTTOM ≤ addr ∧ addr ≤ 2 ^ 64 - PAGE_SIZE ∧
    (s.sp.brkHeapTop ≤ addr → addr ≤ USER_BRK_HEAP_TOP →
      needed (hasTable s.mem s.sp.pgdir) (s.added addr) ≤ s.mem.freePageList.length ∨
      s.mem.freePageList.length < needed (hasTable s.mem s.sp.pgdir) ((s.added addr).take 1))

/-- What a call that returns `r` should leave. -/
structure Right (img : Image) (s : Brk) (addr : Nat) (r : Int) (s' : Brk) : Prop where
  inv : s'.Inv img
  refused : r ≠ addr → s'.sp = s.sp ∧ ∀ d ∈ s.dirs, ∀ v, view s'.mem d v = view s.mem d v
  outside : ∀ d ∈ s.dirs, ∀ v, ¬ (d = s.sp.pgdir ∧ Region v) → view s'.mem d v = view s.mem d v

/-- A call, with memory as it is then. -/
def call (fuel : Nat) (addr : Nat) (s : Brk) : Except Panic (Int × Brk) :=
  (syscallBrk fuel s.sp addr s.mem).map fun r => (r.1, ⟨r.2.2, s.dirs, r.2.1⟩)

/-- Between calls anything may happen to memory, except that only `brk` maps or unmaps the pages of the region. -/
structure Elsewhere (img : Image) (s s' : Brk) : Prop where
  sp : s'.sp = s.sp
  mem : MemInv img s'.mem s'.dirs
  dir : s.sp.pgdir ∈ s'.dirs
  region : ∀ v, Region v → ((view s'.mem s.sp.pgdir v).isSome ↔ (view s.mem s.sp.pgdir v).isSome)

/-- A call that meets the condition, or what happens between calls. The region has `2 ^ 20` pages, which is what the loops
need as fuel. -/
inductive Step (img : Image) (s : Brk) : Brk → Prop
  | call {fuel addr : Nat} {r : Int} {s' : Brk} : 2 ^ 20 < fuel → addr < 2 ^ 64 → s.Meets addr →
      s.call fuel addr = .ok (r, s') → Step img s s'
  | elsewhere {s' : Brk} : Elsewhere img s s' → Step img s s'

/-- A process that has just been set up. -/
structure Init (img : Image) (s : Brk) : Prop where
  mem : MemInv img s.mem s.dirs
  dir : s.sp.pgdir ∈ s.dirs
  top : s.sp.brkHeapTop = USER_BRK_HEAP_BOTTOM
  empty : ∀ v, Region v → view s.mem s.sp.pgdir v = none

end Brk

section Bounds

variable {img : Image} {s : Brk} {addr : Nat}

theorem brk_bottom_mod : USER_BRK_HEAP_BOTTOM % PAGE_SIZE = 0 := by decide

theorem brk_top_mod : USER_BRK_HEAP_TOP % PAGE_SIZE = 0 := by decide

theorem brk_top_lt : USER_BRK_HEAP_TOP < 2 ^ 38 := by decide

theorem brk_bottom_pos : 0 < USER_BRK_HEAP_BOTTOM := by decide

theorem brk_size : USER_BRK_HEAP_TOP = USER_BRK_HEAP_BOTTOM + 2 ^ 20 * PAGE_SIZE := by decide

/-- An address in the region, rounded up. -/
structure Rounded (x : Nat) : Prop where
  mod : alignUp x % PAGE_SIZE = 0
  le : x ≤ alignUp x
  lt : alignUp x < x + PAGE_SIZE
  low : USER_BRK_HEAP_BOTTOM ≤ alignUp x
  high : alignUp x ≤ USER_BRK_HEAP_TOP

theorem rounded (hlow : USER_BRK_HEAP_BOTTOM ≤ addr) (hhigh : addr ≤ USER_BRK_HEAP_TOP) : Rounded addr := by
  have hpos : 0 < addr := Nat.lt_of_lt_of_le brk_bottom_pos hlow
  have hwrap : addr ≤ 2 ^ 64 - PAGE_SIZE := by
    have hlt := brk_top_lt
    unfold PAGE_SIZE
    omega
  obtain ⟨hmod, hle, hlt⟩ := alignUp_eq hpos hwrap
  exact ⟨hmod, hle, hlt, Nat.le_trans hlow hle, alignUp_le hpos hwrap brk_top_mod hhigh⟩

/-- Pages between two rounded addresses. -/
theorem rounded_sub {x y : Nat} (hx : Rounded x) (hy : Rounded y) (h : alignUp x ≤ alignUp y) :
    alignUp y = alignUp x + (alignUp y - alignUp x) / PAGE_SIZE * PAGE_SIZE ∧
      (alignUp y - alignUp x) / PAGE_SIZE ≤ 2 ^ 20 := by
  have hsize := brk_size
  have hxm := hx.mod
  have hym := hy.mod
  have hlow := hx.low
  have hhigh := hy.high
  unfold PAGE_SIZE at *
  omega

end Bounds

/-! ## Calls -/

section Calls

variable {img : Image} {s s' : Brk} {addr fuel : Nat} {r : Int}

namespace Brk

theorem Inv.rounded (hi : s.Inv img) : Rounded s.sp.brkHeapTop := Exaros.rounded hi.low hi.high

/-- A call that changes nothing. -/
theorem Inv.right_self (hi : s.Inv img) : Right img s addr r s :=
  ⟨hi, fun _ => ⟨rfl, fun _ _ _ => rfl⟩, fun _ _ _ _ => rfl⟩

theorem call_zero (fuel : Nat) (s : Brk) : s.call fuel 0 = .ok (s.sp.brkHeapTop, s) := rfl

theorem call_shrink_eq (h0 : addr ≠ 0) (hlt : addr < s.sp.brkHeapTop) :
    s.call fuel addr = (whilePages (shrinkPage s.sp.pgdir) (alignUp s.sp.brkHeapTop) fuel (alignUp addr) s.mem).map
      fun r => ((addr : Int), Brk.mk r.2 s.dirs { s.sp with brkHeapTop := addr }) := by
  unfold call syscallBrk
  rw [if_neg h0, if_pos hlt]
  cases whilePages (shrinkPage s.sp.pgdir) (alignUp s.sp.brkHeapTop) fuel (alignUp addr) s.mem with
  | error p => rfl
  | ok r => rfl

theorem call_refuse (h0 : addr ≠ 0) (hge : s.sp.brkHeapTop ≤ addr) (hhigh : USER_BRK_HEAP_TOP < alignUp addr) :
    s.call fuel addr = .ok (s.sp.brkHeapTop, s) := by
  unfold call syscallBrk
  rw [if_neg h0, if_neg (Nat.not_lt.mpr hge), if_pos hhigh]
  rfl

theorem call_grow_eq (h0 : addr ≠ 0) (hge : s.sp.brkHeapTop ≤ addr) (hhigh : alignUp addr ≤ USER_BRK_HEAP_TOP) :
    s.call fuel addr = (whilePages
      (growPage .brkRemap s.sp.brkHeapTop s.sp.pgdir (PTE_READ_BIT ||| PTE_WRITE_BIT ||| PTE_USER_BIT))
      (alignUp addr) fuel (alignUp s.sp.brkHeapTop) s.mem).map fun r =>
        r.1.elim ((addr : Int), Brk.mk r.2 s.dirs { s.sp with brkHeapTop := addr }) fun top => (top, ⟨r.2, s.dirs, s.sp⟩) := by
  unfold call syscallBrk
  rw [if_neg h0, if_neg (Nat.not_lt.mpr hge), if_neg (Nat.not_lt.mpr hhigh)]
  cases whilePages (growPage .brkRemap s.sp.brkHeapTop s.sp.pgdir (PTE_READ_BIT ||| PTE_WRITE_BIT ||| PTE_USER_BIT))
      (alignUp addr) fuel (alignUp s.sp.brkHeapTop) s.mem with
  | error p => rfl
  | ok r =>
    obtain ⟨r, m⟩ := r
    cases r <;> rfl

/-- Where rounding up wraps the loop maps nothing, and the break is the address itself. -/
theorem call_wrap (hi : s.Inv img) (hwrap : 2 ^ 64 - PAGE_SIZE < addr) (haddr : addr < 2 ^ 64) (fuel : Nat) :
    s.call (fuel + 1) addr = .ok ((addr : Int), Brk.mk s.mem s.dirs { s.sp with brkHeapTop := addr }) := by
  have hmax := brk_top_lt
  have htop := hi.high
  have hzero := alignUp_wrap hwrap haddr
  have hge : s.sp.brkHeapTop ≤ addr := by
    unfold PAGE_SIZE at hwrap
    omega
  have h0 : addr ≠ 0 := by
    omega
  rw [call_grow_eq h0 hge (by rw [hzero]; exact Nat.zero_le _), hzero]
  unfold whilePages
  rw [if_neg (Nat.not_lt_zero _)]
  rfl

/-- **A smaller break.** -/
theorem call_shrink (hi : s.Inv img) (hlow : USER_BRK_HEAP_BOTTOM ≤ addr) (hlt : addr < s.sp.brkHeapTop)
    (hfuel : 2 ^ 20 < fuel) : ∃ s', s.call fuel addr = .ok (addr, s') ∧ Right img s addr addr s' := by
  have h0 : addr ≠ 0 := Nat.ne_of_gt (Nat.lt_of_lt_of_le brk_bottom_pos hlow)
  have haddr := Exaros.rounded hlow (Nat.le_trans (Nat.le_of_lt hlt) hi.high)
  have htop := hi.rounded
  have hle : alignUp addr ≤ alignUp s.sp.brkHeapTop :=
    alignUp_le (Nat.pos_of_ne_zero h0) (by have := brk_top_lt; have := hi.high; unfold PAGE_SIZE; omega) htop.mod
      (Nat.le_trans (Nat.le_of_lt hlt) htop.le)
  obtain ⟨hstop, hcount⟩ := rounded_sub haddr htop hle
  have hmax := brk_top_lt
  obtain ⟨m', hloop, hinv, hview⟩ := hi.mem.shrinkLoop hi.dir (Nat.lt_of_le_of_lt hcount hfuel) hstop (by have := htop.high; omega)
  have hpages : ∀ v, v ∈ pagesFrom (alignUp addr) ((alignUp s.sp.brkHeapTop - alignUp addr) / PAGE_SIZE) ↔
      alignUp addr ≤ vpnAddr v ∧ vpnAddr v < alignUp s.sp.brkHeapTop := fun v => by
    rw [mem_pagesFrom_iff haddr.mod (by have := htop.high; omega), ← hstop]
  refine ⟨⟨m', s.dirs, { s.sp with brkHeapTop := addr }⟩, ?_, ⟨⟨hinv, hi.dir, hlow, ?_, fun v hv => ?_⟩, fun hr => absurd rfl hr,
    fun d hd v hv => ?_⟩⟩
  · rw [call_shrink_eq h0 hlt, hloop]
    rfl
  · exact Nat.le_trans (Nat.le_of_lt hlt) hi.high
  · dsimp only
    rw [hview _ hi.dir v]
    by_cases hin : v ∈ pagesFrom (alignUp addr) ((alignUp s.sp.brkHeapTop - alignUp addr) / PAGE_SIZE)
    · rw [if_pos ⟨rfl, hin⟩]
      exact ⟨nofun, fun h => absurd h (Nat.not_lt.mpr ((hpages v).mp hin).1)⟩
    · rw [if_neg fun h => hin h.2, hi.mapped v hv]
      rw [hpages] at hin
      omega
  · dsimp only
    rw [hview d hd v]
    refine if_neg fun h => hv ⟨h.1, ?_⟩
    have hv' := (hpages v).mp h.2
    exact ⟨Nat.le_trans haddr.low hv'.1, Nat.lt_of_lt_of_le hv'.2 htop.high⟩

/-- **A larger break**: all its pages are mapped, or those there was memory for. -/
theorem call_grow (hi : s.Inv img) (h0 : addr ≠ 0) (hge : s.sp.brkHeapTop ≤ addr) (hhigh : addr ≤ USER_BRK_HEAP_TOP)
    (hfuel : 2 ^ 20 < fuel) :
    ∃ k r s', s.call fuel addr = .ok (r, s') ∧ k ≤ (s.added addr).length ∧
      Grown img s.dirs s.sp.pgdir (PTE_READ_BIT ||| PTE_WRITE_BIT ||| PTE_USER_BIT) ((s.added addr).take k) s.mem s'.mem ∧
      s'.dirs = s.dirs ∧ needed (hasTable s.mem s.sp.pgdir) ((s.added addr).take k) ≤ s.mem.freePageList.length ∧
      ((r = addr ∧ s'.sp = { s.sp with brkHeapTop := addr } ∧ k = (s.added addr).length) ∨
        (r = s.sp.brkHeapTop ∧ s'.sp = s.sp ∧ k < (s.added addr).length ∧
          s.mem.freePageList.length < needed (hasTable s.mem s.sp.pgdir) ((s.added addr).take (k + 1)))) := by
  have hlow := Nat.le_trans hi.low hge
  have haddr := Exaros.rounded hlow hhigh
  have htop := hi.rounded
  have hmax := brk_top_lt
  have hhi := haddr.high
  have hle : alignUp s.sp.brkHeapTop ≤ alignUp addr := by
    refine alignUp_le (Nat.lt_of_lt_of_le brk_bottom_pos hi.low) ?_ haddr.mod (Nat.le_trans hge haddr.le)
    unfold PAGE_SIZE
    omega
  obtain ⟨hstop, hcount⟩ := rounded_sub htop haddr hle
  have hlen : (s.added addr).length = (alignUp addr - alignUp s.sp.brkHeapTop) / PAGE_SIZE := by simp [added, pagesFrom]
  have hpages : alignUp s.sp.brkHeapTop + (alignUp addr - alignUp s.sp.brkHeapTop) / PAGE_SIZE * PAGE_SIZE ≤ 2 ^ 39 := by omega
  have hfree : ∀ v ∈ s.added addr, view s.mem s.sp.pgdir v = none := fun v hv => by
    obtain ⟨hfrom, hto⟩ := (mem_pagesFrom_iff htop.mod hpages).mp hv
    have hregion : Region v := ⟨Nat.le_trans htop.low hfrom, by omega⟩
    by_contra hsome
    have := (hi.mapped v hregion).mp (Option.isSome_iff_ne_none.mpr hsome)
    omega
  have hperm : PermOk (PTE_READ_BIT ||| PTE_WRITE_BIT ||| PTE_USER_BIT) := by decide
  obtain ⟨k, r, m', hloop, hk, hg, hneeded, hend⟩ := hi.mem.growLoop hi.dir hperm .brkRemap s.sp.brkHeapTop
    (Nat.lt_of_le_of_lt hcount hfuel) hstop (by omega) hfree (nodup_pagesFrom htop.mod hpages)
  have htake : ∀ j, j ≤ (s.added addr).length → (s.added addr).take j = pagesFrom (alignUp s.sp.brkHeapTop) j := fun j hj =>
    take_pagesFrom (hlen ▸ hj) _
  rw [← hlen] at hk hend
  rw [call_grow_eq h0 hge hhi, hloop]
  rw [← htake k hk] at hg hneeded
  obtain ⟨rfl, hkn⟩ | ⟨rfl, hkn, hmore⟩ := hend
  · exact ⟨k, addr, ⟨m', s.dirs, { s.sp with brkHeapTop := addr }⟩, rfl, hk, hg, rfl, hneeded, .inl ⟨rfl, rfl, hkn⟩⟩
  · rw [← htake (k + 1) hkn] at hmore
    exact ⟨k, s.sp.brkHeapTop, ⟨m', s.dirs, s.sp⟩, rfl, hk, hg, rfl, hneeded, .inr ⟨rfl, rfl, hkn, hmore⟩⟩

/-- The pages a growing call adds lie between the two breaks. -/
theorem mem_added (hi : s.Inv img) (hge : s.sp.brkHeapTop ≤ addr) (hhigh : addr ≤ USER_BRK_HEAP_TOP) (v : Vpn) :
    v ∈ s.added addr ↔ alignUp s.sp.brkHeapTop ≤ vpnAddr v ∧ vpnAddr v < alignUp addr := by
  have haddr := Exaros.rounded (Nat.le_trans hi.low hge) hhigh
  have htop := hi.rounded
  have hmax := brk_top_lt
  have hhi := haddr.high
  have hle : alignUp s.sp.brkHeapTop ≤ alignUp addr := by
    refine alignUp_le (Nat.lt_of_lt_of_le brk_bottom_pos hi.low) ?_ haddr.mod (Nat.le_trans hge haddr.le)
    unfold PAGE_SIZE
    omega
  obtain ⟨hstop, -⟩ := rounded_sub htop haddr hle
  unfold added
  rw [mem_pagesFrom_iff htop.mod (by omega), ← hstop]

theorem added_region (hi : s.Inv img) (hge : s.sp.brkHeapTop ≤ addr) (hhigh : addr ≤ USER_BRK_HEAP_TOP) {v : Vpn}
    (hv : v ∈ s.added addr) : Region v := by
  obtain ⟨hfrom, hto⟩ := (mem_added hi hge hhigh v).mp hv
  have haddr := Exaros.rounded (Nat.le_trans hi.low hge) hhigh
  exact ⟨Nat.le_trans hi.rounded.low hfrom, Nat.lt_of_lt_of_le hto haddr.high⟩

/-- A growing call that maps all its pages is right. -/
theorem right_grown (hi : s.Inv img) (hge : s.sp.brkHeapTop ≤ addr) (hhigh : addr ≤ USER_BRK_HEAP_TOP) (hdirs : s'.dirs = s.dirs)
    (hsp : s'.sp = { s.sp with brkHeapTop := addr }) {perm : Pte}
    (hg : Grown img s.dirs s.sp.pgdir perm (s.added addr) s.mem s'.mem) : Right img s addr addr s' := by
  have hle : alignUp s.sp.brkHeapTop ≤ alignUp addr := by
    have haddr := Exaros.rounded (Nat.le_trans hi.low hge) hhigh
    refine alignUp_le (Nat.lt_of_lt_of_le brk_bottom_pos hi.low) ?_ haddr.mod (Nat.le_trans hge haddr.le)
    have hmax := brk_top_lt
    unfold PAGE_SIZE
    omega
  refine ⟨⟨hdirs ▸ hg.inv, ?_, ?_, ?_, fun v hv => ?_⟩, fun hr => absurd rfl hr, fun d hd v hv => ?_⟩
  · rw [hdirs, hsp]
    exact hi.dir
  · rw [hsp]
    exact Nat.le_trans hi.low hge
  · rw [hsp]
    exact hhigh
  · rw [hsp]
    dsimp only
    by_cases hin : v ∈ s.added addr
    · obtain ⟨y, hy⟩ := hg.on v hin
      rw [hy]
      exact ⟨fun _ => ((mem_added hi hge hhigh v).mp hin).2, fun _ => rfl⟩
    · rw [hg.off _ hi.dir v fun h => hin h.2, hi.mapped v hv]
      rw [mem_added hi hge hhigh] at hin
      omega
  · exact hg.off d hd v fun h => hv ⟨h.1, added_region hi hge hhigh h.2⟩

/-- A growing call that maps none of its pages is right. -/
theorem right_refused (hi : s.Inv img) (hdirs : s'.dirs = s.dirs) (hsp : s'.sp = s.sp) {perm : Pte}
    (hg : Grown img s.dirs s.sp.pgdir perm [] s.mem s'.mem) : Right img s addr r s' := by
  have hview : ∀ d ∈ s.dirs, ∀ v, view s'.mem d v = view s.mem d v := fun d hd v => hg.off d hd v fun h => List.not_mem_nil h.2
  refine ⟨⟨hdirs ▸ hg.inv, ?_, ?_, ?_, fun v hv => ?_⟩, fun _ => ⟨hsp, hview⟩, fun d hd v _ => hview d hd v⟩
  · rw [hdirs, hsp]
    exact hi.dir
  · rw [hsp]
    exact hi.low
  · rw [hsp]
    exact hi.high
  · rw [hsp, hview _ hi.dir v]
    exact hi.mapped v hv

/-- A growing call that maps some of its pages only is not. -/
theorem not_right_between (hi : s.Inv img) (hge : s.sp.brkHeapTop ≤ addr) (hhigh : addr ≤ USER_BRK_HEAP_TOP) {k : Nat} {perm : Pte}
    (hg : Grown img s.dirs s.sp.pgdir perm ((s.added addr).take k) s.mem s'.mem) (hk : 0 < k) (hkn : k < (s.added addr).length) :
    ¬ Right img s addr s.sp.brkHeapTop s' := by
  intro hright
  cases hadded : s.added addr with
  | nil =>
    rw [hadded] at hkn
    exact Nat.not_lt_zero _ hkn
  | cons v rest =>
    have hmem : v ∈ s.added addr := hadded ▸ List.mem_cons_self
    have hbetween := (mem_added hi hge hhigh v).mp hmem
    have hne : (s.sp.brkHeapTop : Int) ≠ addr := fun h => by
      have htop : s.sp.brkHeapTop = addr := Int.ofNat_inj.mp h
      rw [htop] at hbetween
      omega
    obtain ⟨j, rfl⟩ := Nat.exists_eq_succ_of_ne_zero (Nat.ne_of_gt hk)
    obtain ⟨y, hy⟩ := hg.on v (by rw [hadded, List.take_succ_cons]; exact List.mem_cons_self)
    have hsome := (hi.mapped v (added_region hi hge hhigh hmem)).mp
      (by rw [← (hright.refused hne).2 _ hi.dir v, hy]; rfl)
    omega

/-- A larger break is right exactly where the pages suffice. -/
theorem right_grow_iff (hi : s.Inv img) (hlow : USER_BRK_HEAP_BOTTOM ≤ addr) (hwrap : addr ≤ 2 ^ 64 - PAGE_SIZE)
    (hge : s.sp.brkHeapTop ≤ addr) (hhigh : addr ≤ USER_BRK_HEAP_TOP) (hfuel : 2 ^ 20 < fuel) :
    (∃ r s', s.call fuel addr = .ok (r, s') ∧ Right img s addr r s') ↔ s.Meets addr := by
  have h0 : addr ≠ 0 := Nat.ne_of_gt (Nat.lt_of_lt_of_le brk_bottom_pos hlow)
  obtain ⟨k, r, s', hcall, hk, hg, hdirs, hneeded, hend⟩ := call_grow hi h0 hge hhigh hfuel
  constructor
  · intro hall
    obtain ⟨r', s'', hcall', hright⟩ := hall
    obtain ⟨rfl, rfl⟩ := Prod.mk.inj (Except.ok.inj (hcall.symm.trans hcall'))
    refine .inr ⟨hlow, hwrap, fun _ _ => ?_⟩
    obtain ⟨-, -, hkn⟩ | ⟨hr, -, hkn, hmore⟩ := hend
    · rw [hkn, List.take_length] at hneeded
      exact .inl hneeded
    · by_cases hzero : k = 0
      · rw [hzero] at hmore
        exact .inr hmore
      · exact absurd (hr ▸ hright) (not_right_between hi hge hhigh hg (Nat.pos_of_ne_zero hzero) hkn)
  · intro hmeets
    obtain hzero | ⟨-, -, hfits⟩ := hmeets
    · exact absurd hzero h0
    obtain ⟨rfl, hsp, hkn⟩ | ⟨-, hsp, hkn, hmore⟩ := hend
    · rw [hkn, List.take_length] at hg
      exact ⟨_, s', hcall, right_grown hi hge hhigh hdirs hsp hg⟩
    · have hzero : k = 0 := by
        obtain hall | hfirst := hfits hge hhigh
        · have hle : needed (hasTable s.mem s.sp.pgdir) ((s.added addr).take (k + 1)) ≤
              needed (hasTable s.mem s.sp.pgdir) (s.added addr) := needed_mono (List.take_prefix _ _)
          omega
        · by_contra hne
          have hle : needed (hasTable s.mem s.sp.pgdir) ((s.added addr).take 1) ≤
              needed (hasTable s.mem s.sp.pgdir) ((s.added addr).take k) :=
            needed_mono (List.take_prefix_take_left (by omega))
          omega
      rw [hzero, List.take_zero] at hg
      exact ⟨r, s', hcall, right_refused hi hdirs hsp hg⟩

/-- **`syscallBrk`** comes back and does what it should exactly where the call meets the condition. -/
theorem right_iff (hi : s.Inv img) (haddr : addr < 2 ^ 64) (hfuel : 2 ^ 20 < fuel) :
    (∃ r s', s.call fuel addr = .ok (r, s') ∧ Right img s addr r s') ↔ s.Meets addr := by
  by_cases h0 : addr = 0
  · subst h0
    exact ⟨fun _ => .inl rfl, fun _ => ⟨_, s, call_zero fuel s, hi.right_self⟩⟩
  by_cases hlow : USER_BRK_HEAP_BOTTOM ≤ addr
  · by_cases hwrap : addr ≤ 2 ^ 64 - PAGE_SIZE
    · by_cases hlt : addr < s.sp.brkHeapTop
      · obtain ⟨s', hcall, hright⟩ := call_shrink hi hlow hlt hfuel
        exact ⟨fun _ => .inr ⟨hlow, hwrap, fun hge => absurd hlt (Nat.not_lt.mpr hge)⟩, fun _ => ⟨_, s', hcall, hright⟩⟩
      · have hge := Nat.not_lt.mp hlt
        by_cases hhigh : addr ≤ USER_BRK_HEAP_TOP
        · exact right_grow_iff hi hlow hwrap hge hhigh hfuel
        · have hover : USER_BRK_HEAP_TOP < alignUp addr :=
            Nat.lt_of_lt_of_le (Nat.not_le.mp hhigh) (alignUp_eq (Nat.pos_of_ne_zero h0) hwrap).2.1
          exact ⟨fun _ => .inr ⟨hlow, hwrap, fun _ h => absurd h hhigh⟩,
            fun _ => ⟨_, s, call_refuse h0 hge hover, hi.right_self⟩⟩
    · refine ⟨fun hall => ?_, fun hmeets => absurd (hmeets.resolve_left h0).2.1 hwrap⟩
      obtain ⟨r, s', hcall, hright⟩ := hall
      obtain ⟨fuel, rfl⟩ := Nat.exists_eq_succ_of_ne_zero (Nat.ne_of_gt (Nat.zero_lt_of_lt hfuel))
      rw [Nat.succ_eq_add_one, call_wrap hi (Nat.not_le.mp hwrap) haddr] at hcall
      cases hcall
      have hend : addr ≤ USER_BRK_HEAP_TOP := hright.inv.high
      have hmax := brk_top_lt
      unfold PAGE_SIZE at hwrap
      omega
  · refine ⟨fun hall => ?_, fun hmeets => absurd (hmeets.resolve_left h0).1 hlow⟩
    obtain ⟨r, s', hcall, hright⟩ := hall
    have hlt : addr < s.sp.brkHeapTop := Nat.lt_of_lt_of_le (Nat.not_le.mp hlow) hi.low
    rw [call_shrink_eq h0 hlt] at hcall
    obtain ⟨x, -, hx⟩ := Loop.map_ok hcall
    cases hx
    exact absurd hright.inv.low hlow

end Brk

end Calls

/-! ## Runs -/

section Runs

variable {img : Image} {s s' : Brk}

namespace Brk

theorem Init.inv (h : s.Init img) : s.Inv img := by
  have hrounded := Exaros.rounded (Nat.le_refl USER_BRK_HEAP_BOTTOM) (by decide)
  refine ⟨h.mem, h.dir, Nat.le_of_eq h.top.symm, ?_, fun v hv => ?_⟩
  · rw [h.top]
    decide
  · have hmod := brk_bottom_mod
    have hlt := hrounded.lt
    have hup := hrounded.mod
    have hlow := hv.1
    have hle := hrounded.low
    rw [h.empty v hv, h.top]
    have hsame : alignUp USER_BRK_HEAP_BOTTOM = USER_BRK_HEAP_BOTTOM := by
      unfold PAGE_SIZE at *
      omega
    rw [hsame]
    exact ⟨nofun, fun h => absurd h (Nat.not_lt.mpr hlow)⟩

theorem inv_step (hi : s.Inv img) (hs : Step img s s') : s'.Inv img := by
  cases hs with
  | call hfuel haddr hmeets hcall =>
    obtain ⟨r, s'', hcall', hright⟩ := (right_iff hi haddr hfuel).mpr hmeets
    obtain ⟨-, rfl⟩ := Prod.mk.inj (Except.ok.inj (hcall'.symm.trans hcall))
    exact hright.inv
  | elsewhere he =>
    refine ⟨he.mem, he.sp ▸ he.dir, he.sp ▸ hi.low, he.sp ▸ hi.high, fun v hv => ?_⟩
    rw [he.sp, he.region v hv]
    exact hi.mapped v hv

/-- **The break** stays in its region, with just the pages below it mapped, in every run of calls that meet the condition;
and there a call comes back without a panic, touches no page outside the region, and changes nothing unless it returns the
address asked for, exactly if it meets the condition. -/
theorem brk_region (hr : Reach (Init img) (Step img) s) :
    s.Inv img ∧ ∀ addr < 2 ^ 64, ∀ fuel, 2 ^ 20 < fuel →
      ((∃ r s', s.call fuel addr = .ok (r, s') ∧ Right img s addr r s') ↔ s.Meets addr) := by
  have hinit : ∀ s, Init img s → s.Inv img := fun s h => h.inv
  have hi : s.Inv img := hr.invariant hinit fun s₁ s₂ => inv_step
  exact ⟨hi, fun addr haddr fuel hfuel => right_iff hi haddr hfuel⟩

theorem exists_init : ∃ s, Init Image.sample s ∧ 100 ≤ s.mem.freePageList.length := by
  obtain ⟨dirs, d, m, hinv, hd, -, hlen, hempty⟩ := exists_emptyProcess
  exact ⟨⟨m, dirs, .fresh d []⟩, ⟨hinv, hd, rfl, fun v _ => hempty v⟩, hlen⟩

/-- The first page is asked for. -/
theorem brk_region_page : ∃ s r s', Reach (Init Image.sample) (Step Image.sample) s ∧
    s.call (2 ^ 20 + 1) (USER_BRK_HEAP_BOTTOM + PAGE_SIZE) = .ok (r, s') ∧
      Right Image.sample s (USER_BRK_HEAP_BOTTOM + PAGE_SIZE) r s' := by
  obtain ⟨s, hs, hlen⟩ := exists_init
  have hreach : Reach (Init Image.sample) (Step Image.sample) s := .init hs
  have hpages : s.added (USER_BRK_HEAP_BOTTOM + PAGE_SIZE) = [vpn USER_BRK_HEAP_BOTTOM] := by
    unfold added
    rw [hs.top]
    rfl
  have hmeets : s.Meets (USER_BRK_HEAP_BOTTOM + PAGE_SIZE) := by
    refine .inr ⟨Nat.le_add_right .., by decide, fun _ _ => .inl ?_⟩
    have hmissing := missing_le (hasTable s.mem s.sp.pgdir) (vpn USER_BRK_HEAP_BOTTOM)
    rw [hpages]
    unfold needed needed
    omega
  obtain ⟨r, s', hcall, hright⟩ := ((brk_region hreach).2 _ (by decide) (2 ^ 20 + 1) (Nat.lt_succ_self _)).mpr hmeets
  exact ⟨s, r, s', hreach, hcall, hright⟩

/-- The last address there is, rounded up, is 0: the call returns it, and the break is there. -/
theorem break_wraps : ∃ s r s', Init Image.sample s ∧ s.call 1 (2 ^ 64 - 1) = .ok (r, s') ∧ r = (2 ^ 64 - 1 : Nat) ∧
    USER_BRK_HEAP_TOP < s'.sp.brkHeapTop := by
  obtain ⟨s, hs, -⟩ := exists_init
  have hlast : 2 ^ 64 - PAGE_SIZE < 2 ^ 64 - 1 := by decide
  have hcall := call_wrap hs.inv hlast (by decide) 0
  exact ⟨s, _, _, hs, hcall, rfl, by show USER_BRK_HEAP_TOP < 2 ^ 64 - 1; decide⟩

end Brk

end Runs

end Exaros
