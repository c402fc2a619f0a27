import Exaros.Memory.Loaded
import Exaros.Memory.Unmap

/-!
# mprotect

There are two of it. `syscallMprotect` brings an absent page in and then gives it the permissions asked for;
`syscallMemoryProtect` leaves a page it has brought in with those it was loaded with. They agree where these are the
same. A range with no bytes that begins inside a page is taken for that page by both.
-/

namespace Exaros

/-- The body of the loop of `syscallMprotect`. -/
def mprotectPage (segs : List SegmentMap) (data : Nat → Idx → BitVec 64) (pgdir : Ppn) (perm : Pte) (start : Nat)
    (m : Mem) : Except Panic (Option Int × Mem) := do
  let (pte, m) ←
    match ← pageLookup pgdir start m with
    | none => do
      let (_, m) ← passiveAlloc segs (data start) pgdir start m
      match ← pageLookup pgdir start m with
      | none => throw .nullDeref
      | some (_, pte) => pure (pte, m)
    | some (_, pte) => pure (pte, m)
  return (none, m.write pte (m.read pte &&& ~~~ (PTE_READ_BIT ||| PTE_WRITE_BIT ||| PTE_EXECUTE_BIT) ||| perm))

/-- `syscallMprotect` on the values of `a0`, `a1` and `a2`. -/
def syscallMprotect (fuel : Nat) (sp : Space) (data : Nat → Idx → BitVec 64) (a0 a1 a2 : Nat) (m : Mem) :
    Except Panic Mem := do
  let (_, m) ← whilePages (mprotectPage sp.segmentMap data sp.pgdir (protPerm a2)) (alignUp (u64 (a0 + a1))) fuel
    (alignDown a0) m
  return m

/-- The permission bits of an entry become `perm`. -/
def protectPte (perm e : Pte) : Pte := e &&& ~~~ (PTE_READ_BIT ||| PTE_WRITE_BIT ||| PTE_EXECUTE_BIT) ||| perm

/-! ## Entries -/

section Entries

variable {perm e : Pte} {y : Ppn}

theorem protPerm_within (prot : Nat) : protPerm prot &&& (PTE_READ_BIT ||| PTE_WRITE_BIT ||| PTE_EXECUTE_BIT) = protPerm prot := by
  unfold protPerm
  by_cases hx : prot &&& PROT_EXEC_BIT ≠ 0
  · by_cases hr : prot &&& PROT_READ_BIT ≠ 0
    · by_cases hw : prot &&& PROT_WRITE_BIT ≠ 0
      · rw [if_pos hx, if_pos hr, if_pos hw]
        decide
      · rw [if_pos hx, if_pos hr, if_neg hw]
        decide
    · by_cases hw : prot &&& PROT_WRITE_BIT ≠ 0
      · rw [if_pos hx, if_neg hr, if_pos hw]
        decide
      · rw [if_pos hx, if_neg hr, if_neg hw]
        decide
  · by_cases hr : prot &&& PROT_READ_BIT ≠ 0
    · by_cases hw : prot &&& PROT_WRITE_BIT ≠ 0
      · rw [if_neg hx, if_pos hr, if_pos hw]
        decide
      · rw [if_neg hx, if_pos hr, if_neg hw]
        decide
    · by_cases hw : prot &&& PROT_WRITE_BIT ≠ 0
      · rw [if_neg hx, if_neg hr, if_pos hw]
        decide
      · rw [if_neg hx, if_neg hr, if_neg hw]
        decide

/-- The bits of an entry that has been protected. -/
theorem getLsbD_protectPte (perm e : Pte) {i : Nat} (hi : i < 64) :
    (protectPte perm e).getLsbD i = ((e.getLsbD i && !decide (i = 1 ∨ i = 2 ∨ i = 3)) || perm.getLsbD i) := by
  unfold protectPte PTE_READ_BIT PTE_WRITE_BIT PTE_EXECUTE_BIT
  rw [BitVec.getLsbD_or, BitVec.getLsbD_and, BitVec.getLsbD_not, BitVec.getLsbD_or, BitVec.getLsbD_or, getLsbD_bit 1 i (by omega),
    getLsbD_bit 2 i (by omega), getLsbD_bit 3 i (by omega)]
  simp [hi, Bool.or_assoc]

theorem getLsbD_within (hperm : perm &&& (PTE_READ_BIT ||| PTE_WRITE_BIT ||| PTE_EXECUTE_BIT) = perm) {i : Nat}
    (hi : ¬ (i = 1 ∨ i = 2 ∨ i = 3)) : perm.getLsbD i = false := by
  have hbit := congrArg (fun x : Pte => x.getLsbD i) hperm
  unfold PTE_READ_BIT PTE_WRITE_BIT PTE_EXECUTE_BIT at hbit
  simp only [BitVec.getLsbD_and, BitVec.getLsbD_or, getLsbD_bit 1 i (by omega), getLsbD_bit 2 i (by omega),
    getLsbD_bit 3 i (by omega)] at hbit
  rw [← hbit]
  have h1 : ¬ i = 1 := fun h => hi (.inl h)
  have h2 : ¬ i = 2 := fun h => hi (.inr (.inl h))
  have h3 : ¬ i = 3 := fun h => hi (.inr (.inr h))
  simp [h1, h2, h3]

/-- All other bits stay. -/
theorem getLsbD_protectPte_other (hperm : perm &&& (PTE_READ_BIT ||| PTE_WRITE_BIT ||| PTE_EXECUTE_BIT) = perm) (e : Pte) {i : Nat}
    (hlt : i < 64) (hi : ¬ (i = 1 ∨ i = 2 ∨ i = 3)) : (protectPte perm e).getLsbD i = e.getLsbD i := by
  rw [getLsbD_protectPte perm e hlt, getLsbD_within hperm hi]
  simp [hi]

/-- An entry is as it should be exactly when its permission bits are. -/
theorem protectPte_eq_iff (hperm : perm &&& (PTE_READ_BIT ||| PTE_WRITE_BIT ||| PTE_EXECUTE_BIT) = perm) :
    protectPte perm e = e ↔ e &&& (PTE_READ_BIT ||| PTE_WRITE_BIT ||| PTE_EXECUTE_BIT) = perm := by
  unfold protectPte
  generalize PTE_READ_BIT ||| PTE_WRITE_BIT ||| PTE_EXECUTE_BIT = mask at hperm ⊢
  constructor
  · intro h
    have hnone : e &&& ~~~mask &&& mask = 0#64 := by
      rw [BitVec.and_assoc, BitVec.not_and_self]
      exact BitVec.and_zero
    rw [← h, BitVec.and_or_distrib_right, hperm, hnone, BitVec.zero_or]
  · intro h
    rw [← h, ← BitVec.and_or_distrib_left, BitVec.not_or_self, BitVec.and_allOnes]

theorem protectPte_valid (hperm : perm &&& (PTE_READ_BIT ||| PTE_WRITE_BIT ||| PTE_EXECUTE_BIT) = perm) (e : Pte) :
    pteValid (protectPte perm e) = pteValid e := by
  rw [pteValid_eq, pteValid_eq]
  exact getLsbD_protectPte_other hperm e (by omega) (by omega)

theorem pte2Ppn_protectPte (hperm : perm &&& (PTE_READ_BIT ||| PTE_WRITE_BIT ||| PTE_EXECUTE_BIT) = perm) (e : Pte) :
    pte2Ppn (protectPte perm e) = pte2Ppn e :=
  pte2Ppn_congr fun i _ _ => getLsbD_protectPte_other hperm e (by omega) (by omega)

theorem touched_protectPte (hperm : perm &&& (PTE_READ_BIT ||| PTE_WRITE_BIT ||| PTE_EXECUTE_BIT) = perm) (h : Touched e) :
    Touched (protectPte perm e) :=
  ⟨(getLsbD_protectPte_other hperm e (by omega) (by omega)).trans h.1, (getLsbD_protectPte_other hperm e (by omega) (by omega)).trans h.2⟩

end Entries

/-! ## Pages -/

section Pages

variable {img : Image} {dirs : Finset Ppn} {m : Mem} {d : Ppn} {perm : Pte} {segs : List SegmentMap} {va : Nat}

theorem write_read (m : Mem) (s : Slot) : m.write s (m.read s) = m := by
  have hram : (fun p i => if p = s.1 ∧ i = s.2 then m.read s else m.ram p i) = m.ram := by
    funext p i
    split
    · rename_i heq
      rw [heq.1, heq.2]
      rfl
    · rfl
  unfold Mem.write
  rw [hram]

/-- A page whose entry is rewritten. -/
theorem MemInv.pageStep_mapped (h : MemInv img m dirs) (hd : d ∈ dirs) {e : Pte} (hv : view m d (vpn va) = some e)
    (hperm : perm &&& (PTE_READ_BIT ||| PTE_WRITE_BIT ||| PTE_EXECUTE_BIT) = perm) (loaded : Ppn → Pte) :
    ∃ t, pageLookup d va m = .ok (some (pte2Ppn e, t)) ∧ m.read t = e ∧
      PageStep img dirs d (vpn va) (protectPte perm) loaded m (m.write t (protectPte perm e)) := by
  obtain ⟨t, ht, hread, hl⟩ := h.pageLookup_some hd hv
  obtain ⟨-, -, htouch⟩ := h.leaf d hd _ e hv
  have hvalid' : pteValid (protectPte perm e) = true := by
    rw [protectPte_valid hperm]
    obtain ⟨w, -, hve, hre⟩ := view_eq_some_iff.mp hv
    rw [← hre]
    exact hve
  have r := remap_rewrite h hd ht hv (pte2Ppn_protectPte hperm e) hvalid' (touched_protectPte hperm htouch)
  refine ⟨_, hl, hread, .mapped hv r.change rfl fun p hp => ?_⟩
  exact (sameTables_write h hd ht _ _).hasTable hd hp

/-- **A page of `syscallMemoryProtect`.** -/
theorem MemInv.protectPage_step (h : MemInv img m dirs) (hd : d ∈ dirs) (data : Nat → Idx → BitVec 64)
    (hperm : perm &&& (PTE_READ_BIT ||| PTE_WRITE_BIT ||| PTE_EXECUTE_BIT) = perm) (hlazy : view m d (vpn va) = none → Lazy segs va)
    (hmem : view m d (vpn va) = none → 1 + missing (hasTable m d) (vpn va) ≤ m.freePageList.length) :
    ∃ m', protectPage segs data d perm va m = .ok (none, m') ∧
      PageStep img dirs d (vpn va) (protectPte perm) (fun y => touchPte y (lazyPerm segs va)) m m' := by
  unfold protectPage
  cases hv : view m d (vpn va) with
  | some e =>
    obtain ⟨t, hl, hread, hs⟩ := h.pageStep_mapped hd hv hperm fun y => touchPte y (lazyPerm segs va)
    refine ⟨_, ?_, hs⟩
    rw [hl, ← hread]
    rfl
  | none =>
    obtain ⟨y, m', hrun, hb⟩ := h.passiveAlloc_exact hd hv (data va) (hlazy hv) (hmem hv)
    refine ⟨m', ?_, .absent hv hb.filled.change hb.free hb.tables⟩
    rw [pageLookup_none hv]
    show (do
      let r ← passiveAlloc segs (data va) d va m
      return (none, r.2)) = _
    rw [hrun]
    rfl

/-- **A page of `syscallMprotect`**; the two do the same where a page is loaded with the permissions asked for. -/
theorem MemInv.mprotectPage_step (h : MemInv img m dirs) (hd : d ∈ dirs) (data : Nat → Idx → BitVec 64)
    (hperm : perm &&& (PTE_READ_BIT ||| PTE_WRITE_BIT ||| PTE_EXECUTE_BIT) = perm) (hlazy : view m d (vpn va) = none → Lazy segs va)
    (hmem : view m d (vpn va) = none → 1 + missing (hasTable m d) (vpn va) ≤ m.freePageList.length) :
    ∃ m', mprotectPage segs data d perm va m = .ok (none, m') ∧
      PageStep img dirs d (vpn va) (protectPte perm) (fun y => protectPte perm (touchPte y (lazyPerm segs va))) m m' ∧
      ((view m d (vpn va) = none → ∀ y, protectPte perm (touchPte y (lazyPerm segs va)) = touchPte y (lazyPerm segs va)) →
        protectPage segs data d perm va m = .ok (none, m')) := by
  unfold mprotectPage protectPage
  cases hv : view m d (vpn va) with
  | some e =>
    obtain ⟨t, hl, hread, hs⟩ := h.pageStep_mapped hd hv hperm fun y => protectPte perm (touchPte y (lazyPerm segs va))
    refine ⟨_, ?_, hs, fun _ => ?_⟩
    · rw [hl, ← hread]
      rfl
    · rw [hl, ← hread]
      rfl
  | none =>
    obtain ⟨y, m₁, hrun, hb⟩ := h.passiveAlloc_exact hd hv (data va) (hlazy hv) (hmem hv)
    have hc := hb.filled.change
    obtain ⟨t, hl, hread, hs⟩ := hc.inv.pageStep_mapped hd (hc.view_self hd) hperm fun y => touchPte y (lazyPerm segs va)
    refine ⟨m₁.write t (protectPte perm (touchPte y (lazyPerm segs va))), ?_, ?_, fun hsame => ?_⟩
    · rw [pageLookup_none hv]
      simp only [bind, Except.bind, hrun, hl]
      rw [← hread]
      rfl
    · cases hs with
      | mapped hsome change free tables =>
        rw [hc.view_self hd] at hsome
        cases hsome
        refine .absent hv (hc.trans change) (by rw [free]; exact hb.free) fun p hp => ?_
        rw [tables p hp, hb.tables p hp]
      | absent hnone _ _ _ =>
        rw [hc.view_self hd] at hnone
        cases hnone
    · have hwrite : m₁.write t (touchPte y (lazyPerm segs va)) = m₁ := by
        rw [← hread]
        exact write_read m₁ t
      rw [pageLookup_none hv, hsame rfl, hwrite]
      show (do
        let r ← passiveAlloc segs (data va) d va m
        return (none, r.2)) = _
      rw [hrun]
      rfl

end Pages

/-! ## Calls -/

/-- Every page of the range is mapped or can be brought in, and there is memory for those that are absent. -/
structure Protectable (sp : Space) (addr length : Nat) (m : Mem) : Prop where
  page : ∀ p, p % PAGE_SIZE = 0 → alignDown addr ≤ p → p < addr + length →
    p < 2 ^ 39 ∧ (view m sp.pgdir (vpn p) = none → Lazy sp.segmentMap p)
  mem : needed (hasTable m sp.pgdir) (absentPages m sp.pgdir (pagesFrom (alignDown addr)
    ((alignUp (addr + length) - alignDown addr) / PAGE_SIZE))) ≤ m.freePageList.length

/-- The pages of the range have exactly the permissions asked for, and nothing else has changed. -/
structure Protected (dirs : Finset Ppn) (sp : Space) (addr length prot : Nat) (m m' : Mem) : Prop where
  mapped : ∀ v, Touches addr length v → ∀ e, view m sp.pgdir v = some e → view m' sp.pgdir v = some (protectPte (protPerm prot) e)
  absent : ∀ v, Touches addr length v → view m sp.pgdir v = none →
    ∃ y, view m' sp.pgdir v = some (protectPte (protPerm prot) (touchPte y (lazyPerm sp.segmentMap (vpnAddr v))))
  off : ∀ d' ∈ dirs, ∀ v, ¬ (d' = sp.pgdir ∧ Touches addr length v) → view m' d' v = view m d' v

/-- The permission bits of an entry or of permissions. -/
def protBits (e : Pte) : Pte := e &&& (PTE_READ_BIT ||| PTE_WRITE_BIT ||| PTE_EXECUTE_BIT)

/-- Absent pages of the range are loaded with the permissions asked for; and a range with no bytes begins on a page
boundary, or in a page that has them already. -/
structure Agrees (sp : Space) (addr length prot : Nat) (m : Mem) : Prop where
  absent : ∀ v, Touches addr length v → view m sp.pgdir v = none → protBits (lazyPerm sp.segmentMap (vpnAddr v)) = protPerm prot
  empty : length = 0 → addr % PAGE_SIZE ≠ 0 → ∃ e, view m sp.pgdir (vpn addr) = some e ∧ protBits e = protPerm prot

section Calls

variable {img : Image} {dirs : Finset Ppn} {m m' : Mem} {sp : Space} {addr length prot n fuel : Nat} {v : Vpn} {e perm : Pte} {y : Ppn}

theorem protBits_touchPte (y : Ppn) (perm : Pte) : protBits (touchPte y perm) = protBits perm := by
  unfold protBits PTE_READ_BIT PTE_WRITE_BIT PTE_EXECUTE_BIT
  apply BitVec.eq_of_getLsbD_eq
  intro i hi
  rw [BitVec.getLsbD_and, BitVec.getLsbD_and]
  by_cases hin : i = 1 ∨ i = 2 ∨ i = 3
  · have hhas : pteHas (touchPte y perm) (bit i) = perm.getLsbD i := pteHas_touchPte y perm (by omega) (by omega) (by omega) (by omega)
    rw [pteHas_bit _ i hi] at hhas
    rw [hhas]
  · have hmask : (bit 1 ||| bit 2 ||| bit 3).getLsbD i = false := by
      rw [BitVec.getLsbD_or, BitVec.getLsbD_or, getLsbD_bit 1 i (by omega), getLsbD_bit 2 i (by omega), getLsbD_bit 3 i (by omega)]
      simp only [Bool.or_eq_false_iff, decide_eq_false_iff_not]
      omega
    rw [hmask, Bool.and_false, Bool.and_false]

theorem protBits_protectPte (prot : Nat) (e : Pte) : protBits (protectPte (protPerm prot) e) = protPerm prot := by
  have hperm := protPerm_within prot
  unfold protBits protectPte
  generalize PTE_READ_BIT ||| PTE_WRITE_BIT ||| PTE_EXECUTE_BIT = mask at hperm ⊢
  have hnone : e &&& ~~~mask &&& mask = 0#64 := by
    rw [BitVec.and_assoc, BitVec.not_and_self]
    exact BitVec.and_zero
  rw [BitVec.and_or_distrib_right, hperm, hnone, BitVec.zero_or]

/-- The loop runs over the pages of the range, and over the page of its first address. -/
theorem Protectable.pages (hr : Protectable sp addr length m) (hover : addr + length < 2 ^ 64) :
    ∃ n ≤ 2 ^ 27, alignUp (u64 (addr + length)) = alignDown addr + n * PAGE_SIZE ∧ (n ≠ 0 → alignDown addr + n * PAGE_SIZE ≤ 2 ^ 39) ∧
      n = (alignUp (addr + length) - alignDown addr) / PAGE_SIZE ∧
      ∀ v, v ∈ pagesFrom (alignDown addr) n ↔ alignDown addr ≤ vpnAddr v ∧ vpnAddr v < addr + length := by
  have hu : u64 (addr + length) = addr + length := Nat.mod_eq_of_lt hover
  have hdown : alignDown addr % PAGE_SIZE = 0 ∧ alignDown addr ≤ addr ∧ addr < alignDown addr + PAGE_SIZE := by
    unfold alignDown PAGE_SIZE
    omega
  obtain ⟨hmod, hle, hlt⟩ := hdown
  rw [hu]
  rcases Nat.eq_zero_or_pos (addr + length) with hzero | hpos
  · have haddr : addr = 0 := by omega
    have hup : alignUp 0 = 0 := by decide
    have hlow : alignDown 0 = 0 := by decide
    refine ⟨0, Nat.zero_le _, ?_, fun h => absurd rfl h, ?_, fun v => ?_⟩
    · rw [hzero, haddr, hup, hlow]
      rfl
    · rw [hzero, haddr, hup, hlow]
      rfl
    · rw [hzero]
      exact ⟨fun h => absurd h List.not_mem_nil, fun h => absurd h.2 (Nat.not_lt_zero _)⟩
  · have hwrap : addr + length ≤ 2 ^ 64 - PAGE_SIZE := by
      by_contra hgt
      obtain ⟨p, hp, hge, hin, hhigh⟩ : ∃ p, p % PAGE_SIZE = 0 ∧ alignDown addr ≤ p ∧ p < addr + length ∧ 2 ^ 39 ≤ p := by
        refine ⟨alignDown (2 ^ 64 - PAGE_SIZE) ⊔ alignDown addr, ?_⟩
        unfold alignDown PAGE_SIZE at *
        omega
      exact absurd (hr.page p hp hge hin).1 (Nat.not_lt.mpr hhigh)
    obtain ⟨hmod', hle', hlt'⟩ := alignUp_eq hpos hwrap
    have hge : alignDown addr ≤ alignUp (addr + length) := by omega
    obtain ⟨n, hn⟩ : ∃ n, n = (alignUp (addr + length) - alignDown addr) / PAGE_SIZE := ⟨_, rfl⟩
    have hstop : alignUp (addr + length) = alignDown addr + n * PAGE_SIZE := by
      unfold PAGE_SIZE at *
      omega
    have hmax : n ≠ 0 → alignDown addr + n * PAGE_SIZE ≤ 2 ^ 39 := fun hne => by
      have hpage := (hr.page (alignUp (addr + length) - PAGE_SIZE) (by unfold PAGE_SIZE at *; omega) (by unfold PAGE_SIZE at *; omega)
        (by unfold PAGE_SIZE at *; omega)).1
      unfold PAGE_SIZE at *
      omega
    refine ⟨n, ?_, hstop, hmax, hn, fun v => ?_⟩
    · rcases Nat.eq_zero_or_pos n with hn0 | hn0
      · omega
      · have hbound := hmax (Nat.ne_of_gt hn0)
        unfold PAGE_SIZE at hbound
        omega
    · have hv := vpnAddr_mod v
      rcases Nat.eq_zero_or_pos n with hn0 | hn0
      · have hempty : pagesFrom (alignDown addr) n = [] := by rw [hn0]; rfl
        rw [hempty]
        refine ⟨fun h => absurd h List.not_mem_nil, fun h => ?_⟩
        rw [hn0, Nat.zero_mul] at hstop
        omega
      · rw [mem_pagesFrom_iff hmod (hmax (Nat.ne_of_gt hn0)), ← hstop]
        unfold PAGE_SIZE at *
        omega

/-- The pages of the range are among them, and all of them are unless it is empty. -/
theorem touches_range (addr length : Nat) (v : Vpn) :
    Touches addr length v ↔ 0 < length ∧ alignDown addr ≤ vpnAddr v ∧ vpnAddr v < addr + length := by
  have hv := vpnAddr_mod v
  unfold Touches alignDown PAGE_SIZE at *
  omega

/-- The first page of an empty range. -/
theorem vpn_of_range {p : Nat} (hlow : alignDown addr ≤ vpnAddr v) (hhigh : vpnAddr v < addr + p) (hp : p = 0) :
    addr % PAGE_SIZE ≠ 0 ∧ v = vpn addr := by
  have hdiv : vpnAddr v / PAGE_SIZE = addr / PAGE_SIZE ∧ addr % PAGE_SIZE ≠ 0 := by
    unfold alignDown PAGE_SIZE at *
    omega
  exact ⟨hdiv.2, by rw [← vpn_vpnAddr v]; exact vpn_congr hdiv.1⟩

/-- **Both calls** reset the pages of the loop, and they end in the same state when what is loaded has the permissions. -/
theorem Protectable.runs (hr : Protectable sp addr length m) (h : MemInv img m dirs) (hd : sp.pgdir ∈ dirs) (data : Nat → Idx → BitVec 64)
    (hover : addr + length < 2 ^ 64) (hfuel : 2 ^ 27 < fuel) (prot : Nat) :
    ∃ vs m₁ m₂, (∀ v, v ∈ vs ↔ alignDown addr ≤ vpnAddr v ∧ vpnAddr v < addr + length) ∧
      syscallMemoryProtect fuel sp data addr length prot m = .ok m₁ ∧
      Reset img dirs sp.pgdir vs (protectPte (protPerm prot)) (fun v y => touchPte y (lazyPerm sp.segmentMap (vpnAddr v))) m m₁ ∧
      syscallMprotect fuel sp data addr length prot m = .ok m₂ ∧
      Reset img dirs sp.pgdir vs (protectPte (protPerm prot))
        (fun v y => protectPte (protPerm prot) (touchPte y (lazyPerm sp.segmentMap (vpnAddr v)))) m m₂ ∧
      ((∀ v ∈ vs, view m sp.pgdir v = none → protBits (lazyPerm sp.segmentMap (vpnAddr v)) = protPerm prot) → m₁ = m₂) := by
  obtain ⟨n, hn, hstop, hmax, hcount, hvs⟩ := hr.pages hover
  have hperm := protPerm_within prot
  have hal : alignDown addr % PAGE_SIZE = 0 := by
    unfold alignDown PAGE_SIZE
    omega
  have hlt : alignUp (u64 (addr + length)) < 2 ^ 64 := alignUp_lt _
  have hmem := hr.mem
  rw [← hcount] at hmem
  have hpage : ∀ k < n, (alignDown addr + k * PAGE_SIZE) % PAGE_SIZE = 0 ∧ alignDown addr + k * PAGE_SIZE < 2 ^ 39 := fun k hk => by
    have hle : (k + 1) * PAGE_SIZE ≤ n * PAGE_SIZE := Nat.mul_le_mul_right _ hk
    have hpos : 0 < PAGE_SIZE := by decide
    rw [Nat.succ_mul] at hle
    exact ⟨by rw [Nat.add_mul_mod_self_right]; exact hal, by omega⟩
  have hin : ∀ k < n, vpn (alignDown addr + k * PAGE_SIZE) ∈ pagesFrom (alignDown addr) n := fun k hk => mem_pagesFrom.mpr ⟨k, hk, rfl⟩
  have hlazy : ∀ k < n, view m sp.pgdir (vpn (alignDown addr + k * PAGE_SIZE)) = none →
      Lazy sp.segmentMap (alignDown addr + k * PAGE_SIZE) := fun k hk => by
    obtain ⟨hal', hlt'⟩ := hpage k hk
    have hrange := ((hvs _).mp (hin k hk)).2
    rw [vpnAddr_vpn hlt' hal'] at hrange
    exact (hr.page _ hal' (Nat.le_add_right _ _) hrange).2
  have hloop₁ : ∃ m', whilePages (protectPage sp.segmentMap data sp.pgdir (protPerm prot)) (alignUp (u64 (addr + length))) fuel
        (alignDown addr) m = .ok (none, m') ∧
      Reset img dirs sp.pgdir (pagesFrom (alignDown addr) n) (protectPte (protPerm prot))
        (fun v y => touchPte y (lazyPerm sp.segmentMap (vpnAddr v))) m m' ∧
      ((∀ k < n, view m sp.pgdir (vpn (alignDown addr + k * PAGE_SIZE)) = none → True) →
        whilePages (protectPage sp.segmentMap data sp.pgdir (protPerm prot)) (alignUp (u64 (addr + length))) fuel
          (alignDown addr) m = .ok (none, m')) := by
    refine MemInv.resetLoop _ _ (fun _ => True) _ (fun va m hinv hal hlt hl hmem => ?_) h hd (Nat.lt_of_le_of_lt hn hfuel) hal hstop
      (fun hne => hstop ▸ hmax hne) hlt hlazy hmem
    obtain ⟨m', hrun, hs⟩ := hinv.protectPage_step hd data hperm hl hmem
    rw [vpnAddr_vpn hlt hal]
    exact ⟨m', hrun, hs, fun _ => hrun⟩
  have hloop₂ : ∃ m', whilePages (mprotectPage sp.segmentMap data sp.pgdir (protPerm prot)) (alignUp (u64 (addr + length))) fuel
        (alignDown addr) m = .ok (none, m') ∧
      Reset img dirs sp.pgdir (pagesFrom (alignDown addr) n) (protectPte (protPerm prot))
        (fun v y => protectPte (protPerm prot) (touchPte y (lazyPerm sp.segmentMap (vpnAddr v)))) m m' ∧
      ((∀ k < n, view m sp.pgdir (vpn (alignDown addr + k * PAGE_SIZE)) = none →
          ∀ y, protectPte (protPerm prot) (touchPte y (lazyPerm sp.segmentMap (alignDown addr + k * PAGE_SIZE))) =
            touchPte y (lazyPerm sp.segmentMap (alignDown addr + k * PAGE_SIZE))) →
        whilePages (protectPage sp.segmentMap data sp.pgdir (protPerm prot)) (alignUp (u64 (addr + length))) fuel
          (alignDown addr) m = .ok (none, m')) := by
    refine MemInv.resetLoop _ _
      (fun va => ∀ y, protectPte (protPerm prot) (touchPte y (lazyPerm sp.segmentMap va)) = touchPte y (lazyPerm sp.segmentMap va)) _
      (fun va m hinv hal hlt hl hmem => ?_) h hd (Nat.lt_of_le_of_lt hn hfuel) hal hstop (fun hne => hstop ▸ hmax hne) hlt hlazy hmem
    obtain ⟨m', hrun, hs, hsame⟩ := hinv.mprotectPage_step hd data hperm hl hmem
    rw [vpnAddr_vpn hlt hal]
    exact ⟨m', hrun, hs, hsame⟩
  obtain ⟨m₁, hrun₁, hreset₁, -⟩ := hloop₁
  obtain ⟨m₂, hrun₂, hreset₂, hsame⟩ := hloop₂
  refine ⟨pagesFrom (alignDown addr) n, m₁, m₂, hvs, ?_, hreset₁, ?_, hreset₂, fun hall => ?_⟩
  · unfold syscallMemoryProtect
    rw [hrun₁]
    rfl
  · unfold syscallMprotect
    rw [hrun₂]
    rfl
  · have hrun := hsame fun k hk hv y => by
      obtain ⟨hal', hlt'⟩ := hpage k hk
      have hbits := hall _ (hin k hk) hv
      rw [vpnAddr_vpn hlt' hal'] at hbits
      exact (protectPte_eq_iff hperm).mpr ((protBits_touchPte y _).trans hbits)
    rw [hrun₁] at hrun
    cases hrun
    rfl

/-- **mprotect** gives every page of the range the permissions asked for, nothing else changes and the two calls agree, exactly
when the absent pages of the range are loaded with these permissions, and a range with no bytes begins on a page boundary
or in a page that has them. -/
theorem protect_iff (h : MemInv img m dirs) (hd : sp.pgdir ∈ dirs) (data : Nat → Idx → BitVec 64) (hr : Protectable sp addr length m)
    (hover : addr + length < 2 ^ 64) (hfuel : 2 ^ 27 < fuel) (prot : Nat) :
    ∃ m₁ m₂, syscallMemoryProtect fuel sp data addr length prot m = .ok m₁ ∧ syscallMprotect fuel sp data addr length prot m = .ok m₂ ∧
      (Protected dirs sp addr length prot m m₁ ∧ (∀ d ∈ dirs, ∀ v, view m₁ d v = view m₂ d v) ↔ Agrees sp addr length prot m) := by
  obtain ⟨vs, m₁, m₂, hvs, hrun₁, hreset₁, hrun₂, hreset₂, hsame⟩ := hr.runs h hd data hover hfuel prot
  refine ⟨m₁, m₂, hrun₁, hrun₂, ?_⟩
  have hperm := protPerm_within prot
  have htouch : ∀ v, Touches addr length v ↔ 0 < length ∧ v ∈ vs := fun v => by rw [touches_range, hvs]
  have hempty : length = 0 → ∀ v ∈ vs, addr % PAGE_SIZE ≠ 0 ∧ v = vpn addr := fun hzero v hv =>
    vpn_of_range ((hvs v).mp hv).1 ((hvs v).mp hv).2 hzero
  constructor
  · intro hp
    obtain ⟨hp, -⟩ := hp
    refine ⟨fun v hv hnone => ?_, fun hzero hal => ?_⟩
    · obtain ⟨y, hy⟩ := hp.absent v hv hnone
      obtain ⟨y', hy'⟩ := hreset₁.absent v ((htouch v).mp hv).2 hnone
      rw [hy'] at hy
      have hbits := congrArg protBits (Option.some.inj hy)
      rw [protBits_touchPte, protBits_protectPte] at hbits
      exact hbits
    · have hlow : alignDown addr < addr + length ∧ alignDown addr % PAGE_SIZE = 0 ∧ addr / PAGE_SIZE = alignDown addr / PAGE_SIZE := by
        unfold alignDown PAGE_SIZE at *
        omega
      have hmem : vpn addr ∈ vs := by
        rw [hvs, vpn_congr hlow.2.2, vpnAddr_vpn (hr.page _ hlow.2.1 (Nat.le_refl _) hlow.1).1 hlow.2.1]
        exact ⟨Nat.le_refl _, hlow.1⟩
      have hoff := hp.off sp.pgdir hd (vpn addr) fun hc => by
        have hpos := ((htouch _).mp hc.2).1
        omega
      cases hv : view m sp.pgdir (vpn addr) with
      | none =>
        obtain ⟨y, hy⟩ := hreset₁.absent _ hmem hv
        rw [hoff, hv] at hy
        cases hy
      | some e =>
        have hnew := hreset₁.mapped _ hmem e hv
        rw [hoff, hv] at hnew
        exact ⟨e, rfl, (protectPte_eq_iff hperm).mp (Option.some.inj hnew).symm⟩
  · intro ha
    have heq : m₁ = m₂ := hsame fun v hv hnone => by
      rcases Nat.eq_zero_or_pos length with hzero | hpos
      · obtain ⟨hal, rfl⟩ := hempty hzero v hv
        obtain ⟨e, he, -⟩ := ha.empty hzero hal
        rw [hnone] at he
        cases he
      · exact ha.absent v ((htouch v).mpr ⟨hpos, hv⟩) hnone
    refine ⟨⟨fun v hv e he => hreset₁.mapped v ((htouch v).mp hv).2 e he, fun v hv hnone => ?_, fun d' hd' v hv => ?_⟩, fun _ _ _ => by rw [heq]⟩
    · rw [heq]
      exact hreset₂.absent v ((htouch v).mp hv).2 hnone
    · by_cases hin : d' = sp.pgdir ∧ v ∈ vs
      · obtain ⟨rfl, hmem⟩ := hin
        have hzero : length = 0 := by
          by_contra hne
          exact hv ⟨rfl, (htouch v).mpr ⟨Nat.pos_of_ne_zero hne, hmem⟩⟩
        obtain ⟨hal, rfl⟩ := hempty hzero v hmem
        obtain ⟨e, he, hbits⟩ := ha.empty hzero hal
        rw [hreset₁.mapped _ hmem e he, he, (protectPte_eq_iff hperm).mpr hbits]
      · exact hreset₁.off d' hd' v hin

end Calls

/-- A page made read-only. -/
theorem protect_page : ∃ dirs sp m m₁ m₂, MemInv Image.sample m dirs ∧ (view m sp.pgdir (vpn 0x1000)).isSome ∧
    syscallMemoryProtect (2 ^ 27 + 1) sp (fun _ _ => 0) 0x1000 0x1000 PROT_READ_BIT m = .ok m₁ ∧
    syscallMprotect (2 ^ 27 + 1) sp (fun _ _ => 0) 0x1000 0x1000 PROT_READ_BIT m = .ok m₂ ∧
    Protected dirs sp 0x1000 0x1000 PROT_READ_BIT m m₁ ∧ ∀ d ∈ dirs, ∀ v, view m₁ d v = view m₂ d v := by
  obtain ⟨dirs, d, m, y, e, hinv, hd, -, hv, -⟩ := exists_onePage
  have hsome : (view m d (vpn 0x1000)).isSome := by rw [hv]; rfl
  have hpage : ∀ v, 0x1000 ≤ vpnAddr v → vpnAddr v < 0x2000 → v = vpn 0x1000 := fun v hlow hhigh => by
    have hmod := vpnAddr_mod v
    have haddr : vpnAddr v = 0x1000 := by
      unfold PAGE_SIZE at hmod
      omega
    rw [← vpn_vpnAddr v, haddr]
  have hready : Protectable (Space.fresh d []) 0x1000 0x1000 m := by
    constructor
    · intro p hp hlow hhigh
      have hone : p = 0x1000 := by
        unfold alignDown PAGE_SIZE at *
        omega
      refine ⟨by omega, fun hnone => ?_⟩
      rw [hone, show (Space.fresh d []).pgdir = d from rfl, hv] at hnone
      cases hnone
    · have hnil : absentPages m d [vpn 0x1000] = [] := List.filter_cons_of_neg (by rw [hv]; exact Bool.false_ne_true)
      show needed (hasTable m d) (absentPages m d [vpn 0x1000]) ≤ _
      rw [hnil]
      exact Nat.zero_le _
  obtain ⟨m₁, m₂, hrun₁, hrun₂, hiff⟩ :=
    protect_iff hinv hd (fun _ _ => 0) hready (by decide) (Nat.lt_succ_self (2 ^ 27)) PROT_READ_BIT
  have hp := hiff.mpr ⟨fun v hv' hnone => ?_, fun hzero => absurd hzero (by decide)⟩
  · exact ⟨dirs, Space.fresh d [], m, m₁, m₂, hinv, hsome, hrun₁, hrun₂, hp.1, hp.2⟩
  · obtain ⟨-, hlow, hhigh⟩ := (touches_range 0x1000 0x1000 v).mp hv'
    rw [hpage v hlow hhigh, show (Space.fresh d []).pgdir = d from rfl, hv] at hnone
    cases hnone

/-- A stack page that has not been touched stays writable. -/
theorem protect_forgets_absent : ¬ ∀ dirs sp data addr length fuel prot m m₁ m₂, MemInv Image.sample m dirs → sp.pgdir ∈ dirs →
    Protectable sp addr length m → addr + length < 2 ^ 64 → syscallMemoryProtect fuel sp data addr length prot m = .ok m₁ →
    syscallMprotect fuel sp data addr length prot m = .ok m₂ →
    Protected dirs sp addr length prot m m₁ ∧ ∀ d ∈ dirs, ∀ v, view m₁ d v = view m₂ d v := by
  intro hall
  obtain ⟨dirs, d, m, hinv, hd, -, hlen, hempty⟩ := exists_emptyProcess
  have hready : Protectable (Space.fresh d []) (USER_STACK_TOP - PAGE_SIZE) PAGE_SIZE m := by
    constructor
    · intro p hp hlow hhigh
      have hone : p = USER_STACK_TOP - PAGE_SIZE := by
        have hdown : alignDown (USER_STACK_TOP - PAGE_SIZE) = USER_STACK_TOP - PAGE_SIZE := by decide
        have hval : USER_STACK_TOP - PAGE_SIZE = 0x3FFFFFC000 := by decide
        rw [hdown, hval] at hlow
        rw [hval] at hhigh ⊢
        unfold PAGE_SIZE at hp hhigh
        omega
      rw [hone]
      exact ⟨by decide, fun _ => .inl (by decide)⟩
    · show needed (hasTable m d) (absentPages m d [vpn (USER_STACK_TOP - PAGE_SIZE)]) ≤ _
      have hcons : absentPages m d [vpn (USER_STACK_TOP - PAGE_SIZE)] = [vpn (USER_STACK_TOP - PAGE_SIZE)] :=
        List.filter_cons_of_pos (by rw [hempty]; rfl)
      have htwo := missing_le (hasTable m d) (vpn (USER_STACK_TOP - PAGE_SIZE))
      rw [hcons]
      unfold needed needed
      omega
  obtain ⟨m₁, m₂, hrun₁, hrun₂, hiff⟩ :=
    protect_iff hinv hd (fun _ _ => 0) hready (by decide) (Nat.lt_succ_self (2 ^ 27)) PROT_READ_BIT
  have hbits := (hiff.mp (hall dirs _ _ _ _ _ _ m m₁ m₂ hinv hd hready (by decide) hrun₁ hrun₂)).absent
    (vpn (USER_STACK_TOP - PAGE_SIZE)) (by unfold Touches; decide) (hempty _)
  have hsegs : (Space.fresh d []).segmentMap = [] := rfl
  rw [hsegs] at hbits
  exact absurd hbits (by decide)

end Exaros
