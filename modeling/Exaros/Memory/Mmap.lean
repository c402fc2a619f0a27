import Exaros.Memory.Forking
import Exaros.Memory.Growth

/-!
# The mmap heap

`syscallMapMemory` without an address takes the next range of its region. It adds the length to the top of the heap
in 64 bits before it compares, and it panics on a page that a call with an address has put there. `Mmap.Meets` is what is
left of the calls: there the top stays in its region and never falls, and a range that is returned is mapped with the
permissions asked for, where nothing was mapped before.
-/

namespace Exaros

open Run

/-- The addresses from `start` on. -/
structure AddrRange where
  start : Nat
  length : Nat

def AddrRange.Has (r : AddrRange) (x : Nat) : Prop := r.start ≤ x ∧ x < r.start + r.length

/-- Memory with its directories, the memory of one process, and the ranges it has been given. -/
structure Mmap where
  mem : Mem
  dirs : Finset Ppn
  sp : Space
  ranges : List AddrRange

namespace Mmap

/-- **The invariant**: the top of the heap is a page boundary of its region, and the ranges given out lie below it, apart. -/
structure Inv (img : Image) (s : Mmap) : Prop where
  mem : MemInv img s.mem s.dirs
  dir : s.sp.pgdir ∈ s.dirs
  aligned : s.sp.mmapHeapTop % PAGE_SIZE = 0
  low : USER_MMAP_HEAP_BOTTOM ≤ s.sp.mmapHeapTop
  high : s.sp.mmapHeapTop ≤ USER_MMAP_HEAP_TOP
  below : ∀ r ∈ s.ranges, r.start + r.length ≤ s.sp.mmapHeapTop
  apart : s.ranges.Pairwise fun r r' => ∀ x, ¬ (r.Has x ∧ r'.Has x)

/-- How many pages a call asks for. -/
def asked (s : Mmap) (length : Nat) : Nat := (alignUp (s.sp.mmapHeapTop + length) - s.sp.mmapHeapTop) / PAGE_SIZE

/-- What a call has to meet: the end of the range does not wrap when it is rounded up, and a page of it that is mapped
is not come to, for want of memory. -/
def Meets (s : Mmap) (length : Nat) : Prop :=
  s.sp.mmapHeapTop + length ≤ 2 ^ 64 - PAGE_SIZE ∧
    (alignUp (s.sp.mmapHeapTop + length) ≤ USER_MMAP_HEAP_TOP → ∀ k < s.asked length,
      (view s.mem s.sp.pgdir (vpn (s.sp.mmapHeapTop + k * PAGE_SIZE))).isSome = true →
        s.mem.freePageList.length < needed (hasTable s.mem s.sp.pgdir) (pagesFrom s.sp.mmapHeapTop k))

/-- What a call that returns `r` should leave. -/
structure Right (img : Image) (s : Mmap) (length prot : Nat) (r : Int) (s' : Mmap) : Prop where
  inv : s'.Inv img
  top : s.sp.mmapHeapTop ≤ s'.sp.mmapHeapTop
  mapped : ∀ a : Nat, r = a → ∀ x, AddrRange.Has ⟨a, length⟩ x → view s.mem s.sp.pgdir (vpn x) = none ∧
    ∃ y, view s'.mem s.sp.pgdir (vpn x) = some (touchPte y (protPerm prot ||| PTE_USER_BIT))

/-- A call without an address, with memory as it is then. -/
def call (fuel : Nat) (length prot : Nat) (s : Mmap) : Except Panic (Int × Mmap) :=
  (syscallMapMemory fuel s.sp 0 length prot s.mem).map fun r =>
    (r.1, ⟨r.2.2, s.dirs, r.2.1, if 0 ≤ r.1 then ⟨r.1.toNat, length⟩ :: s.ranges else s.ranges⟩)

/-- A call without an address that meets the condition; a call with one, `munmap`, and a fork, of which the parent or the
child goes on; or something that does not concern the heap. The region has `2 ^ 20` pages, which is what the loop needs
as fuel. -/
inductive Step (img : Image) (s : Mmap) : Mmap → Prop
  | map {fuel length prot : Nat} {r : Int} {s' : Mmap} : 2 ^ 20 < fuel → length < 2 ^ 64 → s.Meets length →
      s.call fuel length prot = .ok (r, s') → Step img s s'
  | hint {fuel addr length prot : Nat} {r : Int} {sp : Space} {m : Mem} : addr ≠ 0 → addr % PAGE_SIZE = 0 → addr < 2 ^ 64 →
      syscallMapMemory fuel s.sp addr length prot s.mem = .ok (r, sp, m) → Step img s ⟨m, s.dirs, sp, s.ranges⟩
  | unmap {fuel addr length : Nat} {r : Int} {m : Mem} : addr < 2 ^ 64 →
      syscallUnMapMemory fuel s.sp addr length s.mem = .ok (r, m) → Step img s ⟨m, s.dirs, s.sp, s.ranges⟩
  | parent {slot : Nat} {r : Int} {child : Space} {m : Mem} : forkSpace img slot s.sp s.mem = .ok (r, child, m) →
      Step img s ⟨m, insert child.pgdir s.dirs, s.sp, s.ranges⟩
  | child {slot : Nat} {r : Int} {child : Space} {m : Mem} : forkSpace img slot s.sp s.mem = .ok (r, child, m) → 0 ≤ r →
      Step img s ⟨m, insert child.pgdir s.dirs, child, s.ranges⟩
  | elsewhere {m : Mem} {dirs : Finset Ppn} : MemInv img m dirs → s.sp.pgdir ∈ dirs → Step img s ⟨m, dirs, s.sp, s.ranges⟩

/-- A process that has just been set up. -/
structure Init (img : Image) (s : Mmap) : Prop where
  mem : MemInv img s.mem s.dirs
  dir : s.sp.pgdir ∈ s.dirs
  top : s.sp.mmapHeapTop = USER_MMAP_HEAP_BOTTOM
  ranges : s.ranges = []

end Mmap

section Bounds

variable {s : Mmap} {img : Image} {length x : Nat}

theorem mmap_bottom_pos : 0 < USER_MMAP_HEAP_BOTTOM := by decide

theorem mmap_size : USER_MMAP_HEAP_TOP = USER_MMAP_HEAP_BOTTOM + 2 ^ 20 * PAGE_SIZE := by decide

theorem permOk_protPerm (prot : Nat) : PermOk (protPerm prot) := by
  have hif : ∀ (c : Prop) [Decidable c] (p : Pte), PermOk p → PermOk (if c then p else 0) := fun c _ p hp => by
    split
    · exact hp
    · decide
  exact ((hif _ _ (by decide)).or (hif _ _ (by decide))).or (hif _ _ (by decide))

/-- The pages of a range from a page boundary on. -/
theorem vpn_mem_pagesFrom {start n : Nat} (hal : start % PAGE_SIZE = 0) (hx : start ≤ x) (hx' : x < start + n * PAGE_SIZE) :
    vpn x ∈ pagesFrom start n := by
  refine mem_pagesFrom.mpr ⟨(x - start) / PAGE_SIZE, ?_, vpn_congr ?_⟩
  · exact Nat.div_lt_of_lt_mul (by rw [Nat.mul_comm]; omega)
  · unfold PAGE_SIZE at *
    omega

end Bounds

/-! ## Calls without an address -/

section Calls

variable {img : Image} {s s' : Mmap} {length prot fuel : Nat} {r : Int}

namespace Mmap

theorem Inv.right_self (hi : s.Inv img) (hr : r < 0) : Right img s length prot r s := by
  refine ⟨hi, Nat.le_refl _, fun a ha => ?_⟩
  rw [ha] at hr
  exact absurd hr (Int.not_lt.mpr (Int.natCast_nonneg a))

theorem call_zero (fuel prot : Nat) (s : Mmap) : s.call fuel 0 prot = .ok (-EINVAL, s) := rfl

theorem call_refuse (h0 : length ≠ 0) (hhigh : USER_MMAP_HEAP_TOP < alignUp (u64 (s.sp.mmapHeapTop + length))) :
    s.call fuel length prot = .ok (-1, s) := by
  unfold call syscallMapMemory
  rw [if_neg h0, if_neg (fun h => h rfl), if_pos hhigh]
  rfl

/-- The state a call leaves whose loop has ended. -/
def after (s : Mmap) (length stop : Nat) (r : Option Int × Mem) : Int × Mmap :=
  (r.1.getD s.sp.mmapHeapTop, ⟨r.2, s.dirs, { s.sp with mmapHeapTop := stop },
    if 0 ≤ r.1.getD s.sp.mmapHeapTop then ⟨(r.1.getD s.sp.mmapHeapTop).toNat, length⟩ :: s.ranges else s.ranges⟩)

theorem after_mem (s : Mmap) (length stop : Nat) (r : Option Int × Mem) : (s.after length stop r).2.mem = r.2 := rfl

theorem after_pgdir (s : Mmap) (length stop : Nat) (r : Option Int × Mem) : (s.after length stop r).2.sp.pgdir = s.sp.pgdir := rfl

theorem after_none (s : Mmap) (length stop : Nat) (m : Mem) : (s.after length stop (none, m)).1 = s.sp.mmapHeapTop := rfl

theorem call_map (h0 : length ≠ 0) {stop : Nat} (hstop : alignUp (u64 (s.sp.mmapHeapTop + length)) = stop)
    (hhigh : stop ≤ USER_MMAP_HEAP_TOP) :
    s.call fuel length prot = (whilePages (growPage .mmapRemap (-1) s.sp.pgdir (protPerm prot ||| PTE_USER_BIT)) stop fuel
      s.sp.mmapHeapTop s.mem).map (s.after length stop) := by
  unfold call syscallMapMemory
  rw [if_neg h0, if_neg (fun h => h rfl)]
  dsimp only
  rw [hstop, if_neg (Nat.not_lt.mpr hhigh)]
  cases whilePages (growPage .mmapRemap (-1) s.sp.pgdir (protPerm prot ||| PTE_USER_BIT)) stop fuel s.sp.mmapHeapTop s.mem with
  | error p => rfl
  | ok r => rfl

/-- Where the end of the range is not above its start, the loop maps nothing and the start is returned. -/
theorem call_wrapped (hi : s.Inv img) (h0 : length ≠ 0) (hstop : alignUp (u64 (s.sp.mmapHeapTop + length)) ≤ s.sp.mmapHeapTop)
    (fuel : Nat) : s.call (fuel + 1) length prot =
      .ok (s.after length (alignUp (u64 (s.sp.mmapHeapTop + length))) (none, s.mem)) := by
  rw [call_map h0 rfl (Nat.le_trans hstop hi.high)]
  unfold whilePages
  rw [if_neg (Nat.not_lt.mpr hstop)]
  rfl

theorem not_right_wrapped (h0 : length ≠ 0) (hstop : alignUp (u64 (s.sp.mmapHeapTop + length)) ≤ s.sp.mmapHeapTop)
    (hi : s.Inv img) (hfuel : 0 < fuel) : ¬ ∃ r s', s.call fuel length prot = .ok (r, s') ∧ Right img s length prot r s' := by
  intro hall
  obtain ⟨r, s', hcall, hright⟩ := hall
  obtain ⟨fuel, rfl⟩ := Nat.exists_eq_succ_of_ne_zero (Nat.ne_of_gt hfuel)
  rw [Nat.succ_eq_add_one, call_wrapped hi h0 hstop] at hcall
  cases hcall
  obtain ⟨hnone, y, hy⟩ := hright.mapped s.sp.mmapHeapTop rfl s.sp.mmapHeapTop
    ⟨Nat.le_refl _, Nat.lt_add_of_pos_right (Nat.pos_of_ne_zero h0)⟩
  have hsame : view s.mem s.sp.pgdir (vpn s.sp.mmapHeapTop) = some _ := hy
  rw [hnone] at hsame
  cases hsame

/-- A call that returns the start of its range, with all its pages mapped, is right. -/
theorem right_mapped (hi : s.Inv img) {stop n : Nat} {m' : Mem} (hstop : stop = s.sp.mmapHeapTop + n * PAGE_SIZE)
    (hlen : s.sp.mmapHeapTop + length ≤ stop) (hhigh : stop ≤ USER_MMAP_HEAP_TOP)
    (hfree : ∀ v ∈ pagesFrom s.sp.mmapHeapTop n, view s.mem s.sp.pgdir v = none)
    (hg : Grown img s.dirs s.sp.pgdir (protPerm prot ||| PTE_USER_BIT) (pagesFrom s.sp.mmapHeapTop n) s.mem m') :
    Right img s length prot (s.after length stop (none, m')).1 (s.after length stop (none, m')).2 := by
  have hranges : (s.after length stop (none, m')).2.ranges = ⟨s.sp.mmapHeapTop, length⟩ :: s.ranges := by
    unfold after
    dsimp only [Option.getD_none]
    rw [if_pos (Int.natCast_nonneg _), Int.toNat_natCast]
  have hpages : ∀ x, AddrRange.Has ⟨s.sp.mmapHeapTop, length⟩ x → vpn x ∈ pagesFrom s.sp.mmapHeapTop n := fun x hx =>
    vpn_mem_pagesFrom hi.aligned hx.1 (Nat.lt_of_lt_of_le hx.2 (hstop ▸ hlen))
  have hge : s.sp.mmapHeapTop ≤ stop := Nat.le_trans (Nat.le_add_right _ _) hlen
  refine ⟨⟨hg.inv, hi.dir, ?_, Nat.le_trans hi.low hge, hhigh, ?_, ?_⟩, hge, fun a ha x hx => ?_⟩
  · show stop % PAGE_SIZE = 0
    rw [hstop, Nat.add_mul_mod_self_right]
    exact hi.aligned
  · rw [hranges]
    exact List.forall_mem_cons.mpr ⟨hlen, fun q hq => Nat.le_trans (hi.below q hq) hge⟩
  · rw [hranges]
    refine List.pairwise_cons.mpr ⟨fun q hq x hx => ?_, hi.apart⟩
    exact absurd hx.1.1 (Nat.not_le.mpr (Nat.lt_of_lt_of_le hx.2.2 (hi.below q hq)))
  · obtain rfl : s.sp.mmapHeapTop = a := Int.ofNat_inj.mp ha
    exact ⟨hfree _ (hpages x hx), hg.on _ (hpages x hx)⟩

/-- So is one that finds no memory for some of them. -/
theorem right_short (hi : s.Inv img) {stop k : Nat} {m' : Mem} (hal : stop % PAGE_SIZE = 0) (hge : s.sp.mmapHeapTop ≤ stop)
    (hhigh : stop ≤ USER_MMAP_HEAP_TOP) {perm : Pte}
    (hg : Grown img s.dirs s.sp.pgdir perm (pagesFrom s.sp.mmapHeapTop k) s.mem m') :
    Right img s length prot (s.after length stop (some (-1), m')).1 (s.after length stop (some (-1), m')).2 := by
  refine ⟨⟨hg.inv, hi.dir, hal, Nat.le_trans hi.low hge, hhigh, fun q hq => Nat.le_trans (hi.below q hq) hge, hi.apart⟩, hge,
    fun a ha => ?_⟩
  have hneg : (-1 : Int) = a := ha
  omega

/-- A call whose range ends in the region comes to its first page that is mapped already, or that takes more memory than
there is, or to its end. -/
theorem right_iff_of_le (hi : s.Inv img) (h0 : length ≠ 0) (hwrap : s.sp.mmapHeapTop + length ≤ 2 ^ 64 - PAGE_SIZE)
    (hhigh : alignUp (s.sp.mmapHeapTop + length) ≤ USER_MMAP_HEAP_TOP) (hfuel : 2 ^ 20 < fuel) :
    (∃ r s', s.call fuel length prot = .ok (r, s') ∧ Right img s length prot r s') ↔ s.Meets length := by
  have hpos : 0 < s.sp.mmapHeapTop + length := Nat.add_pos_right _ (Nat.pos_of_ne_zero h0)
  obtain ⟨hal, hle, -⟩ := alignUp_eq hpos hwrap
  have hmod : u64 (s.sp.mmapHeapTop + length) = s.sp.mmapHeapTop + length :=
    Nat.mod_eq_of_lt (Nat.lt_of_le_of_lt hwrap (by decide))
  have hge : s.sp.mmapHeapTop ≤ alignUp (s.sp.mmapHeapTop + length) := Nat.le_trans (Nat.le_add_right _ _) hle
  have hlow := hi.low
  have haligned := hi.aligned
  have hsize := mmap_size
  have hmax := mmap_top_lt
  obtain ⟨hstop, hcount⟩ : alignUp (s.sp.mmapHeapTop + length) = s.sp.mmapHeapTop + s.asked length * PAGE_SIZE ∧
      s.asked length ≤ 2 ^ 20 := by
    unfold asked PAGE_SIZE at *
    omega
  have hperm : PermOk (protPerm prot ||| PTE_USER_BIT) := (permOk_protPerm prot).or (by decide)
  obtain ⟨k, hk, hfree, hneeded, hend⟩ := hi.mem.growLoop_exact hi.dir hperm .mmapRemap (-1)
    (Nat.lt_of_le_of_lt hcount hfuel) hstop (by omega) (nodup_pagesFrom haligned (by omega))
  rw [call_map h0 (congrArg alignUp hmod) hhigh]
  generalize whilePages (growPage .mmapRemap (-1) s.sp.pgdir (protPerm prot ||| PTE_USER_BIT))
    (alignUp (s.sp.mmapHeapTop + length)) fuel s.sp.mmapHeapTop s.mem = run at hend ⊢
  have hbefore : ∀ j < k, view s.mem s.sp.pgdir (vpn (s.sp.mmapHeapTop + j * PAGE_SIZE)) = none := fun j hj =>
    hfree _ (mem_pagesFrom.mpr ⟨j, hj, rfl⟩)
  cases hend with
  | all hkn hg =>
    subst hkn
    refine ⟨fun _ => ⟨hwrap, fun _ j hj hsome => ?_⟩, fun _ => ⟨_, _, rfl, right_mapped hi hstop hle hhigh hfree hg⟩⟩
    rw [hbefore j hj] at hsome
    cases hsome
  | short hkn hg hnone hmore =>
    refine ⟨fun _ => ⟨hwrap, fun _ j hj hsome => ?_⟩, fun _ => ⟨_, _, rfl, right_short hi hal hge hhigh hg⟩⟩
    have hlt : k < j := by
      by_contra hle
      obtain hjk | rfl := Nat.lt_or_eq_of_le (Nat.not_lt.mp hle)
      · rw [hbefore j hjk] at hsome
        cases hsome
      · rw [hnone] at hsome
        cases hsome
    exact Nat.lt_of_lt_of_le hmore (needed_mono (pagesFrom_mono hlt _))
  | mapped hkn hsome =>
    refine ⟨fun hall => ?_, fun hmeets => ?_⟩
    · obtain ⟨r, s', hcall, -⟩ := hall
      cases hcall
    · exact absurd (hmeets.2 hhigh k hkn hsome) (Nat.not_lt.mpr hneeded)

/-- **`syscallMapMemory`** without an address comes back and does what it should exactly where the call meets the
condition. -/
theorem right_iff (hi : s.Inv img) (hlength : length < 2 ^ 64) (hfuel : 2 ^ 20 < fuel) :
    (∃ r s', s.call fuel length prot = .ok (r, s') ∧ Right img s length prot r s') ↔ s.Meets length := by
  have hlow := hi.low
  have hhigh := hi.high
  have haligned := hi.aligned
  have hmax := mmap_top_lt
  have hbottom := mmap_bottom_pos
  by_cases h0 : length = 0
  · subst h0
    have hself : alignUp s.sp.mmapHeapTop = s.sp.mmapHeapTop := by
      have hpos : 0 < s.sp.mmapHeapTop := Nat.lt_of_lt_of_le hbottom hlow
      obtain ⟨hmod, hle, hlt⟩ := alignUp_eq hpos (by unfold PAGE_SIZE; omega)
      unfold PAGE_SIZE at *
      omega
    have hnone : s.asked 0 = 0 := by
      unfold asked
      rw [Nat.add_zero, hself, Nat.sub_self, Nat.zero_div]
    refine ⟨fun _ => ⟨?_, fun _ k hk => ?_⟩, fun _ => ⟨_, s, call_zero fuel prot s, hi.right_self (by decide)⟩⟩
    · unfold PAGE_SIZE
      omega
    · rw [hnone] at hk
      exact absurd hk (Nat.not_lt_zero k)
  by_cases hwrap : s.sp.mmapHeapTop + length ≤ 2 ^ 64 - PAGE_SIZE
  · by_cases hend : alignUp (s.sp.mmapHeapTop + length) ≤ USER_MMAP_HEAP_TOP
    · exact right_iff_of_le hi h0 hwrap hend hfuel
    · have hmod : u64 (s.sp.mmapHeapTop + length) = s.sp.mmapHeapTop + length :=
        Nat.mod_eq_of_lt (Nat.lt_of_le_of_lt hwrap (by decide))
      have hcall : s.call fuel length prot = .ok (-1, s) := call_refuse h0 (by rw [hmod]; exact Nat.not_le.mp hend)
      exact ⟨fun _ => ⟨hwrap, fun h => absurd h hend⟩, fun _ => ⟨_, s, hcall, hi.right_self (by decide)⟩⟩
  · refine ⟨fun hall => absurd hall ?_, fun hmeets => absurd hmeets.1 hwrap⟩
    refine not_right_wrapped h0 ?_ hi (Nat.lt_of_le_of_lt (Nat.zero_le _) hfuel)
    simp only [alignUp, alignDown, u64, PAGE_SIZE] at *
    omega

end Mmap

end Calls

/-! ## Runs -/

section Runs

variable {img : Image} {dirs : Finset Ppn} {m m' : Mem} {sp sp' : Space} {fuel addr length prot : Nat} {r : Int} {s s' : Mmap}

/-- **`munmap`** keeps memory well formed. -/
theorem MemInv.syscallUnMapMemory (h : MemInv img m dirs) (hd : sp.pgdir ∈ dirs) (haddr : addr < 2 ^ 64)
    (hok : Exaros.syscallUnMapMemory fuel sp addr length m = .ok (r, m')) : MemInv img m' dirs := by
  have hpage : ∀ va m r m', MemInv img m dirs → unmapPage sp.pgdir va m = .ok (r, m') → MemInv img m' dirs := by
    intro va m r m' h hpage
    obtain ⟨x, hrem, hx⟩ := Loop.bind_ok hpage
    cases hx
    cases hv : view m sp.pgdir (vpn va) with
    | none =>
      rw [pageRemove_none hv] at hrem
      cases hrem
      exact h
    | some e =>
      obtain ⟨m₁, hrem', hr, -⟩ := h.pageRemove_some hd hv
      rw [hrem'] at hrem
      cases hrem
      exact hr.inv
  unfold Exaros.syscallUnMapMemory at hok
  split at hok
  · cases hok
    exact h
  · dsimp only at hok
    split at hok
    · cases hok
      exact h
    · obtain ⟨⟨r₁, m₁⟩, hrun, hx⟩ := Loop.bind_ok hok
      cases hx
      exact whilePages_inv (I := fun m => MemInv img m dirs) hrun haddr h fun va m r m' _ => hpage va m r m'

/-- **A call with an address** keeps memory well formed and leaves the heap alone. -/
theorem hinted_ok (h : MemInv img m dirs) (hd : sp.pgdir ∈ dirs) (h0 : addr ≠ 0) (haddr : addr < 2 ^ 64)
    (hok : syscallMapMemory fuel sp addr length prot m = .ok (r, sp', m')) : MemInv img m' dirs ∧ sp' = sp := by
  unfold syscallMapMemory at hok
  by_cases hlength : length = 0
  · rw [if_pos hlength] at hok
    cases hok
    exact ⟨h, rfl⟩
  · rw [if_neg hlength, if_pos h0] at hok
    refine ⟨(kept_do_mmap h hd haddr (permOk_protPerm prot) hok).1.inv h, ?_⟩
    unfold do_mmap at hok
    rw [if_neg h0] at hok
    split at hok
    · cases hok
    · obtain ⟨x, -, hx⟩ := Loop.bind_ok hok
      cases hx
      rfl

namespace Mmap

theorem Init.inv (h : s.Init img) : s.Inv img := by
  refine ⟨h.mem, h.dir, ?_, Nat.le_of_eq h.top.symm, ?_, ?_, ?_⟩
  · rw [h.top]
    decide
  · rw [h.top]
    decide
  · rw [h.ranges]
    exact fun q hq => absurd hq List.not_mem_nil
  · rw [h.ranges]
    exact .nil

/-- The invariant is about the top of the heap only. -/
theorem Inv.of_top (hi : s.Inv img) (hm : MemInv img m dirs) (hd : sp.pgdir ∈ dirs)
    (htop : sp.mmapHeapTop = s.sp.mmapHeapTop) : Inv img ⟨m, dirs, sp, s.ranges⟩ :=
  ⟨hm, hd, htop ▸ hi.aligned, htop ▸ hi.low, htop ▸ hi.high, htop ▸ hi.below, hi.apart⟩

theorem inv_step (hi : s.Inv img) (hs : Step img s s') : s'.Inv img ∧ s.sp.mmapHeapTop ≤ s'.sp.mmapHeapTop := by
  cases hs with
  | map hfuel hlength hmeets hcall =>
    obtain ⟨r, s'', hcall', hright⟩ := (right_iff hi hlength hfuel).mpr hmeets
    obtain ⟨-, rfl⟩ := Prod.mk.inj (Except.ok.inj (hcall'.symm.trans hcall))
    exact ⟨hright.inv, hright.top⟩
  | hint h0 _ haddr hcall =>
    obtain ⟨hm, rfl⟩ := hinted_ok hi.mem hi.dir h0 haddr hcall
    exact ⟨hi.of_top hm hi.dir rfl, Nat.le_refl _⟩
  | unmap haddr hcall => exact ⟨hi.of_top (hi.mem.syscallUnMapMemory hi.dir haddr hcall) hi.dir rfl, Nat.le_refl _⟩
  | parent hfork =>
    obtain ⟨m₁, hf⟩ := hi.mem.forkSpace hi.dir hfork
    exact ⟨hi.of_top hf.inv (Finset.mem_insert_of_mem hi.dir) rfl, Nat.le_refl _⟩
  | @child slot r child m hfork hr =>
    obtain ⟨m₁, hf⟩ := hi.mem.forkSpace hi.dir hfork
    have htop : child.mmapHeapTop = s.sp.mmapHeapTop := by rw [hf.space]
    exact ⟨hi.of_top hf.inv (Finset.mem_insert_self ..) htop, Nat.le_of_eq htop.symm⟩
  | elsewhere hm hd => exact ⟨hi.of_top hm hd rfl, Nat.le_refl _⟩

/-- **The top of the heap** stays in its region, at a page boundary, and never falls, in every run of calls that meet the
condition; and there a call without an address comes back without a panic, and gives a range that was not mapped and now
is, exactly if it meets the condition. -/
theorem mmap_region (hr : Reach (Init img) (Step img) s) :
    s.Inv img ∧ (∀ s', Step img s s' → s.sp.mmapHeapTop ≤ s'.sp.mmapHeapTop) ∧
      ∀ length < 2 ^ 64, ∀ prot fuel, 2 ^ 20 < fuel →
        ((∃ r s', s.call fuel length prot = .ok (r, s') ∧ Right img s length prot r s') ↔ s.Meets length) := by
  have hinit : ∀ s, Init img s → s.Inv img := fun s h => h.inv
  have hi : s.Inv img := hr.invariant hinit fun s₁ s₂ h hs => (inv_step h hs).1
  exact ⟨hi, fun s' hs => (inv_step hi hs).2, fun length hlength prot fuel hfuel => right_iff hi hlength hfuel⟩

theorem exists_init : ∃ s, Init Image.sample s ∧ ∀ v, view s.mem s.sp.pgdir v = none := by
  obtain ⟨dirs, d, m, hinv, hd, -, -, hempty⟩ := exists_emptyProcess
  exact ⟨⟨m, dirs, .fresh d [], []⟩, ⟨hinv, hd, rfl, rfl⟩, hempty⟩

/-- The first page is asked for. -/
theorem mmap_region_page : ∃ s r s', Reach (Init Image.sample) (Step Image.sample) s ∧
    s.call (2 ^ 20 + 1) PAGE_SIZE PROT_READ_BIT = .ok (r, s') ∧ Right Image.sample s PAGE_SIZE PROT_READ_BIT r s' := by
  obtain ⟨s, hs, hempty⟩ := exists_init
  have hreach : Reach (Init Image.sample) (Step Image.sample) s := .init hs
  have hmeets : s.Meets PAGE_SIZE := by
    refine ⟨by rw [hs.top]; decide, fun _ k _ hsome => ?_⟩
    rw [hempty] at hsome
    cases hsome
  obtain ⟨r, s', hcall, hright⟩ := ((mmap_region hreach).2.2 PAGE_SIZE (by decide) PROT_READ_BIT _ (Nat.lt_succ_self _)).mpr hmeets
  exact ⟨s, r, s', hreach, hcall, hright⟩

/-- A length of `2 ^ 64 - 1`: the start of the heap is returned, and nothing is mapped. -/
theorem length_wraps : ∃ s s', Init Image.sample s ∧ s.call 1 (2 ^ 64 - 1) PROT_READ_BIT = .ok (USER_MMAP_HEAP_BOTTOM, s') ∧
    view s'.mem s'.sp.pgdir (vpn USER_MMAP_HEAP_BOTTOM) = none := by
  obtain ⟨s, hs, hempty⟩ := exists_init
  have hstop : alignUp (u64 (s.sp.mmapHeapTop + (2 ^ 64 - 1))) ≤ s.sp.mmapHeapTop := by
    rw [hs.top]
    decide
  have hcall : s.call 1 (2 ^ 64 - 1) PROT_READ_BIT = _ := call_wrapped hs.inv (by decide) hstop 0
  generalize 2 ^ 64 - 1 = length at hcall ⊢
  refine ⟨s, _, hs, hcall.trans (congrArg Except.ok (Prod.ext ?_ rfl)), ?_⟩
  · rw [after_none, hs.top]
  · rw [after_mem, after_pgdir]
    exact hempty _

end Mmap

end Runs

end Exaros
