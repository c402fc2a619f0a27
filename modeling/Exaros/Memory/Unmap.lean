import Exaros.Memory.Growth
import Exaros.Memory.Remapping

/-!
# munmap

`syscallUnMapMemory` gives the pages of its range back one after the other and stops at the first that is not
mapped. So it leaves a range with a hole half unmapped, unless the hole comes first; and the end of the range is
computed in 64 bits, so that a range that goes beyond them is taken for an empty one.
-/

namespace Exaros

/-- The page meets `[addr, addr + length)`. -/
def Touches (addr length : Nat) (v : Vpn) : Prop := max addr (vpnAddr v) < min (addr + length) (vpnAddr v + PAGE_SIZE)

/-- The call returned 0 and exactly the pages of the range have become unmapped, or it returned -1 and did nothing. -/
def AllOrNothing (dirs : Finset Ppn) (d : Ppn) (addr length : Nat) (m : Mem) (r : Int) (m' : Mem) : Prop :=
  (r = 0 ∧ (∀ v, ((view m d v).isSome ∧ view m' d v = none) ↔ Touches addr length v) ∧
    ∀ d' ∈ dirs, ∀ v, ¬ (d' = d ∧ Touches addr length v) → view m' d' v = view m d' v) ∨
  (r = -1 ∧ ∀ d' ∈ dirs, ∀ v, view m' d' v = view m d' v)

/-- The call refuses the range, or it lies above every page, or it ends within 64 bits and has no hole after its first
page. -/
def Whole (d : Ppn) (addr length : Nat) (m : Mem) : Prop :=
  USER_MMAP_HEAP_TOP < alignUp (u64 (addr + length)) ∨ 2 ^ 39 ≤ addr ∨
    addr + length ≤ 2 ^ 64 - PAGE_SIZE ∧ (view m d (vpn addr) = none ∨ ∀ v, Touches addr length v → (view m d v).isSome)

section Loop

variable {img : Image} {dirs : Finset Ppn} {m m₁ m' : Mem} {d : Ppn} {start n k fuel stop : Nat}

/-- The pages were mapped, and are not any more. -/
structure Removed (img : Image) (dirs : Finset Ppn) (d : Ppn) (vs : List Vpn) (m m' : Mem) : Prop where
  inv : MemInv img m' dirs
  on : ∀ v ∈ vs, (view m d v).isSome
  view : ∀ d' ∈ dirs, ∀ v, view m' d' v = if d' = d ∧ v ∈ vs then none else view m d' v

theorem Removed.refl (h : MemInv img m dirs) (d : Ppn) : Removed img dirs d [] m m where
  inv := h
  on := fun _ hv => absurd hv List.not_mem_nil
  view := fun _ _ _ => (if_neg fun hmem => List.not_mem_nil hmem.2).symm

/-- One page, and then others. -/
theorem Change.removed {v : Vpn} {vs : List Vpn} (c : Change img dirs d v none m m₁) (hd : d ∈ dirs) (hv : (Exaros.view m d v).isSome)
    (r : Removed img dirs d vs m₁ m') : Removed img dirs d (v :: vs) m m' where
  inv := r.inv
  on := fun w hw => by
    rcases List.mem_cons.mp hw with rfl | hw
    · exact hv
    · by_cases hwv : w = v
      · rw [hwv]
        exact hv
      · rw [← c.view_off hd fun hc => hwv hc.2]
        exact r.on w hw
  view := fun d' hd' w => by
    rw [r.view d' hd' w, c.view d' hd' w]
    by_cases hdd : d' = d
    · by_cases hwv : w = v
      · simp [hdd, hwv]
      · simp [hdd, hwv]
    · simp [hdd]

/-- **The loop** unmaps the pages up to the first that is not mapped. -/
theorem MemInv.unmapLoop (h : MemInv img m dirs) (hd : d ∈ dirs) (hfuel : n < fuel) (hstop : stop = start + n * PAGE_SIZE)
    (hlt : stop < 2 ^ 64) (hnodup : (pagesFrom start n).Nodup) :
    ∃ k m', k ≤ n ∧ Removed img dirs d (pagesFrom start k) m m' ∧
      ((k = n ∧ whilePages (unmapPage d) stop fuel start m = .ok (none, m')) ∨
        (k < n ∧ view m d (vpn (start + k * PAGE_SIZE)) = none ∧
          whilePages (unmapPage d) stop fuel start m = .ok (some (-1), m'))) := by
  induction n generalizing m start fuel with
  | zero =>
    exact ⟨0, m, Nat.le_refl _, Removed.refl h d, .inl ⟨rfl, whilePages_end hfuel (by omega)⟩⟩
  | succ n ih =>
    obtain ⟨fuel, rfl⟩ := Nat.exists_eq_succ_of_ne_zero (Nat.ne_of_gt (Nat.zero_lt_of_lt hfuel))
    rw [pagesFrom_succ] at hnodup
    obtain ⟨hnot, hnodup⟩ := List.nodup_cons.mp hnodup
    cases hv : view m d (vpn start) with
    | none =>
      refine ⟨0, m, Nat.zero_le _, Removed.refl h d, .inr ⟨Nat.succ_pos n, ?_, ?_⟩⟩
      · rw [Nat.zero_mul, Nat.add_zero, hv]
      · rw [whilePages_turn hstop hlt, unmapPage, pageRemove_none hv]
        rfl
    | some e =>
      obtain ⟨m₁, hrem, r, -, -⟩ := h.pageRemove_some hd hv
      have hpage : unmapPage d start m = .ok (none, m₁) := by
        unfold unmapPage
        rw [hrem]
        rfl
      have hloop : ∀ x, whilePages (unmapPage d) stop fuel (start + PAGE_SIZE) m₁ = x →
          whilePages (unmapPage d) stop (fuel + 1) start m = x := fun x hx => by
        rw [whilePages_turn hstop hlt, hpage]
        exact hx
      obtain ⟨k, m', hk, hrest, hend⟩ := ih r.inv (Nat.lt_of_succ_lt_succ hfuel) (hstop.trans (page_succ ..)) hnodup
      refine ⟨k + 1, m', Nat.succ_le_succ hk, ?_, ?_⟩
      · rw [pagesFrom_succ]
        exact r.change.removed hd (by rw [hv]; rfl) hrest
      · rcases hend with ⟨rfl, hrun⟩ | ⟨hlt, hnone, hrun⟩
        · exact .inl ⟨rfl, hloop _ hrun⟩
        · refine .inr ⟨Nat.succ_lt_succ hlt, ?_, hloop _ hrun⟩
          rw [page_succ, ← r.view_off hd fun hc => hnot ?_]
          · exact hnone
          · rw [← hc.2]
            exact mem_pagesFrom.mpr ⟨k, hlt, rfl⟩

end Loop

/-! ## Calls -/

section Calls

variable {img : Image} {dirs : Finset Ppn} {m m' : Mem} {sp : Space} {d : Ppn} {addr length n fuel : Nat} {v : Vpn}

/-- A range that ends within 64 bits, rounded up. -/
theorem alignUp_range (hwrap : addr + length ≤ 2 ^ 64 - PAGE_SIZE) :
    addr ≤ alignUp (addr + length) ∧ alignUp (addr + length) % PAGE_SIZE = 0 ∧ addr + length ≤ alignUp (addr + length) ∧
      alignUp (addr + length) < addr + length + PAGE_SIZE := by
  rcases Nat.eq_zero_or_pos (addr + length) with hzero | hpos
  · rw [hzero]
    have hup : alignUp 0 = 0 := by decide
    rw [hup]
    exact ⟨by omega, by decide, Nat.le_refl _, by decide⟩
  · obtain ⟨hmod, hle, hlt⟩ := alignUp_eq hpos hwrap
    exact ⟨by omega, hmod, hle, hlt⟩

/-- One that does not comes to its first address or below. -/
theorem alignUp_beyond (hal : addr % PAGE_SIZE = 0) (haddr : addr < 2 ^ 64) (hlen : length < 2 ^ 64)
    (hwrap : 2 ^ 64 - PAGE_SIZE < addr + length) : alignUp (u64 (addr + length)) ≤ addr := by
  rcases Nat.lt_or_ge (addr + length) (2 ^ 64) with hlt | hge
  · have heq : u64 (addr + length) = addr + length := Nat.mod_eq_of_lt hlt
    rw [heq, alignUp_wrap hwrap hlt]
    exact Nat.zero_le _
  · have heq : u64 (addr + length) = addr + length - 2 ^ 64 := by
      unfold u64
      omega
    have hlast : addr ≤ 2 ^ 64 - PAGE_SIZE := by
      unfold PAGE_SIZE at *
      omega
    rcases Nat.eq_zero_or_pos (addr + length - 2 ^ 64) with hzero | hpos
    · rw [heq, hzero]
      have hup : alignUp 0 = 0 := by decide
      rw [hup]
      exact Nat.zero_le _
    · rw [heq]
      exact alignUp_le hpos (by omega) hal (by omega)

theorem touches_first (hal : addr % PAGE_SIZE = 0) (haddr : addr < 2 ^ 39) (hlen : 0 < length) : Touches addr length (vpn addr) := by
  unfold Touches
  rw [vpnAddr_vpn haddr hal]
  unfold PAGE_SIZE
  omega

theorem not_touches (haddr : 2 ^ 39 ≤ addr) (hal : addr % PAGE_SIZE = 0) : ¬ Touches addr length v := by
  have hlt := vpnAddr_lt v
  have hmod := vpnAddr_mod v
  unfold Touches PAGE_SIZE at *
  omega

/-- The pages of a range are those the loop comes to. -/
theorem touches_iff (hal : addr % PAGE_SIZE = 0) (hwrap : addr + length ≤ 2 ^ 64 - PAGE_SIZE)
    (hstop : alignUp (addr + length) = addr + n * PAGE_SIZE) (htop : alignUp (addr + length) ≤ 2 ^ 39) :
    Touches addr length v ↔ v ∈ pagesFrom addr n := by
  obtain ⟨-, hmod, hle, hlt⟩ := alignUp_range hwrap
  have hv := vpnAddr_mod v
  rw [mem_pagesFrom_iff hal (by omega), ← hstop]
  unfold Touches PAGE_SIZE at *
  omega

/-- The loop has come to its end. -/
theorem allOrNothing_all (hd : d ∈ dirs) (htouch : ∀ v, Touches addr length v ↔ v ∈ pagesFrom addr n)
    (r : Removed img dirs d (pagesFrom addr n) m m') : AllOrNothing dirs d addr length m 0 m' := by
  refine .inl ⟨rfl, fun v => ?_, fun d' hd' v hv => ?_⟩
  · rw [htouch v, r.view d hd v]
    constructor
    · intro h
      by_contra hnot
      rw [if_neg fun hc => hnot hc.2] at h
      rw [h.2] at h
      exact absurd h.1 (by decide)
    · intro hv
      exact ⟨r.on v hv, if_pos ⟨rfl, hv⟩⟩
  · rw [r.view d' hd' v, if_neg fun hc => hv ⟨hc.1, (htouch v).mpr hc.2⟩]

/-- The loop has stopped at page `k`. -/
theorem allOrNothing_iff_zero {k : Nat} (hd : d ∈ dirs) (r : Removed img dirs d (pagesFrom addr k) m m') :
    AllOrNothing dirs d addr length m (-1) m' ↔ k = 0 := by
  constructor
  · intro h
    rcases h with ⟨hr, -⟩ | ⟨-, hsame⟩
    · exact absurd hr (by decide)
    · by_contra hk
      have hmem : vpn addr ∈ pagesFrom addr k := by
        obtain ⟨j, rfl⟩ := Nat.exists_eq_succ_of_ne_zero hk
        rw [pagesFrom_succ]
        exact List.mem_cons_self ..
      have hview := r.view d hd (vpn addr)
      have hon := r.on _ hmem
      rw [if_pos ⟨rfl, hmem⟩, hsame d hd] at hview
      rw [hview] at hon
      exact absurd hon (by decide)
  · intro hk
    refine .inr ⟨rfl, fun d' hd' v => ?_⟩
    rw [r.view d' hd' v, hk]
    exact if_neg fun hc => List.not_mem_nil hc.2

/-- **munmap is all or nothing** exactly when the call refuses the range, or the range lies above every page, or it ends
within 64 bits and its first page is not mapped or all of them are. -/
theorem unmap_all_or_nothing_iff (h : MemInv img m dirs) (hd : sp.pgdir ∈ dirs) (hal : addr % PAGE_SIZE = 0) (haddr : addr < 2 ^ 64)
    (hlen : length < 2 ^ 64) (hfuel : 2 ^ 26 < fuel) :
    ∃ r m', syscallUnMapMemory fuel sp addr length m = .ok (r, m') ∧
      (AllOrNothing dirs sp.pgdir addr length m r m' ↔ Whole sp.pgdir addr length m) := by
  have hal' : ¬ addr % PAGE_SIZE ≠ 0 := fun hne => hne hal
  rcases Nat.lt_or_ge USER_MMAP_HEAP_TOP (alignUp (u64 (addr + length))) with htop | htop
  · refine ⟨-1, m, ?_, fun _ => .inl htop, fun _ => .inr ⟨rfl, fun _ _ _ => rfl⟩⟩
    unfold syscallUnMapMemory
    rw [if_neg hal', if_pos htop]
    rfl
  have hcall : ∀ r m', whilePages (unmapPage sp.pgdir) (alignUp (u64 (addr + length))) fuel addr m = .ok (r, m') →
      syscallUnMapMemory fuel sp addr length m = .ok (r.getD 0, m') := fun r m' hrun => by
    unfold syscallUnMapMemory
    rw [if_neg hal', if_neg (Nat.not_lt.mpr htop), hrun]
    rfl
  have hmax := mmap_top_lt
  rcases Nat.lt_or_ge (2 ^ 64 - PAGE_SIZE) (addr + length) with hwrap | hwrap
  · -- the end comes out below the start
    have hle := alignUp_beyond hal haddr hlen hwrap
    refine ⟨0, m, hcall none m ?_, ?_⟩
    · exact whilePages_end (Nat.zero_lt_of_lt hfuel) (by omega)
    · constructor
      · intro hall
        rcases Nat.lt_or_ge addr (2 ^ 39) with hlow | hhigh
        · rcases hall with ⟨-, hon, -⟩ | ⟨hr, -⟩
          · have hpos : 0 < length := by
              unfold PAGE_SIZE at hwrap
              omega
            obtain ⟨hsome, hnone⟩ := (hon _).mpr (touches_first hal hlow hpos)
            rw [hnone] at hsome
            exact absurd hsome (by decide)
          · exact absurd hr (by decide)
        · exact .inr (.inl hhigh)
      · intro hw
        rcases hw with hlt | hhigh | ⟨hle, -⟩
        · omega
        · refine .inl ⟨rfl, fun v => ⟨fun hv => ?_, fun hv => absurd hv (not_touches hhigh hal)⟩, fun _ _ _ _ => rfl⟩
          rw [hv.2] at hv
          exact absurd hv.1 (by decide)
        · omega
  · have hu : u64 (addr + length) = addr + length := Nat.mod_eq_of_lt (by unfold PAGE_SIZE at hwrap; omega)
    rw [hu] at hcall htop
    obtain ⟨hge, hmod, -, -⟩ := alignUp_range hwrap
    obtain ⟨n, hstop, hn⟩ : ∃ n, alignUp (addr + length) = addr + n * PAGE_SIZE ∧ n ≤ 2 ^ 26 := by
      refine ⟨(alignUp (addr + length) - addr) / PAGE_SIZE, ?_, ?_⟩
      all_goals
        unfold PAGE_SIZE at *
        omega
    have htouch : ∀ v, Touches addr length v ↔ v ∈ pagesFrom addr n := fun v => touches_iff hal hwrap hstop (by omega)
    have hnodup : (pagesFrom addr n).Nodup := nodup_pagesFrom hal (by omega)
    obtain ⟨k, m', hk, hrem, ⟨rfl, hrun⟩ | ⟨hlt, hnone, hrun⟩⟩ :=
      h.unmapLoop hd (Nat.lt_of_le_of_lt hn hfuel) hstop (by omega) hnodup
    · refine ⟨0, m', hcall none m' hrun, fun _ => .inr (.inr ⟨hwrap, .inr fun v hv => ?_⟩), fun _ => allOrNothing_all hd htouch hrem⟩
      exact hrem.on v ((htouch v).mp hv)
    · refine ⟨-1, m', hcall (some (-1)) m' hrun, ?_⟩
      rw [allOrNothing_iff_zero hd hrem]
      constructor
      · intro hzero
        rw [hzero, Nat.zero_mul, Nat.add_zero] at hnone
        exact .inr (.inr ⟨hwrap, .inl hnone⟩)
      · intro hw
        rcases hw with hgt | hhigh | ⟨-, hfirst | hall⟩
        · rw [hu] at hgt
          omega
        · omega
        · by_contra hk0
          obtain ⟨j, rfl⟩ := Nat.exists_eq_succ_of_ne_zero hk0
          have hon := hrem.on (vpn addr) (by rw [pagesFrom_succ]; exact List.mem_cons_self ..)
          rw [hfirst] at hon
          exact absurd hon (by decide)
        · have hmapped := hall _ ((htouch _).mpr (mem_pagesFrom.mpr ⟨k, hlt, rfl⟩))
          rw [hnone] at hmapped
          exact absurd hmapped (by decide)

end Calls

/-- A page that is unmapped. -/
theorem unmap_all_or_nothing_page : ∃ dirs sp m r m', MemInv Image.sample m dirs ∧ (view m sp.pgdir (vpn 0x1000)).isSome ∧
    syscallUnMapMemory (2 ^ 26 + 1) sp 0x1000 0x1000 m = .ok (r, m') ∧ AllOrNothing dirs sp.pgdir 0x1000 0x1000 m r m' := by
  obtain ⟨dirs, d, m, y, e, hinv, hd, -, hv, -⟩ := exists_onePage
  have hsome : (view m d (vpn 0x1000)).isSome := by rw [hv]; rfl
  obtain ⟨r, m', hrun, hiff⟩ : ∃ r m', syscallUnMapMemory (2 ^ 26 + 1) (Space.fresh d []) 0x1000 0x1000 m = .ok (r, m') ∧
      (AllOrNothing dirs d 0x1000 0x1000 m r m' ↔ Whole d 0x1000 0x1000 m) :=
    unmap_all_or_nothing_iff hinv hd (by decide) (by decide) (by decide) (Nat.lt_succ_self (2 ^ 26))
  refine ⟨dirs, Space.fresh d [], m, r, m', hinv, hsome, hrun, hiff.mpr (.inr (.inr ⟨by decide, .inr fun v hv => ?_⟩))⟩
  have hmod := vpnAddr_mod v
  have haddr : vpnAddr v = 0x1000 := by
    unfold Touches PAGE_SIZE at *
    omega
  rw [← vpn_vpnAddr v, haddr]
  exact hsome

/-- Of a range of two pages only the first is mapped. -/
theorem unmap_leaves_half : ¬ ∀ dirs sp m addr length fuel r m', MemInv Image.sample m dirs → sp.pgdir ∈ dirs → addr % PAGE_SIZE = 0 →
    syscallUnMapMemory fuel sp addr length m = .ok (r, m') → AllOrNothing dirs sp.pgdir addr length m r m' := by
  intro hall
  obtain ⟨dirs, d, m, y, e, hinv, hd, -, hv, -, -, hrest⟩ := exists_onePage
  obtain ⟨r, m', hrun, hiff⟩ : ∃ r m', syscallUnMapMemory (2 ^ 26 + 1) (Space.fresh d []) 0x1000 0x2000 m = .ok (r, m') ∧
      (AllOrNothing dirs d 0x1000 0x2000 m r m' ↔ Whole d 0x1000 0x2000 m) :=
    unmap_all_or_nothing_iff hinv hd (by decide) (by decide) (by decide) (Nat.lt_succ_self (2 ^ 26))
  rcases hiff.mp (hall dirs _ m _ _ _ r m' hinv hd (by decide) hrun) with htop | hhigh | ⟨-, hfirst | hmapped⟩
  · exact absurd htop (by decide)
  · exact absurd hhigh (by decide)
  · rw [hv] at hfirst
    cases hfirst
  · have htouch : Touches 0x1000 0x2000 (vpn 0x2000) := by
      unfold Touches
      decide
    have hsome := hmapped _ htouch
    rw [hrest (vpn 0x2000) (by decide)] at hsome
    cases hsome

end Exaros
