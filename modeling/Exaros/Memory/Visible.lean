import Exaros.Memory.Loads

/-!
# What a process can read

`userByte` is the memory of a process as the process sees it: the bytes of the pages its directory maps for
user mode with read permission. The page functions are described by what they do to it: a page that was free
appears at one virtual page (`Filled`), and everything else any process sees stays (`userByte_off`).

The exceptions of `userHandler` other than a system call bring a page in or copy one. Whether that loses
what was there depends on one thing: only the load and store faults look whether the page is mapped.
-/

namespace Exaros

/-- An address and the page it lies in. -/
theorem page_add_div {p off : Nat} (h : off < PAGE_SIZE) : (p <<< PAGE_SHIFT + off) / PAGE_SIZE = p := by
  have hpow : PAGE_SIZE = 2 ^ PAGE_SHIFT := by decide
  rw [Nat.shiftLeft_eq, ← hpow, Nat.mul_comm, Nat.mul_add_div (by decide), Nat.div_eq_of_lt h]
  rfl

theorem loadByte_eq (m : Mem) (pa : Nat) : loadByte m pa = pageByte (m.ram (pa / PAGE_SIZE)) pa := rfl

theorem pageByte_start (f : Idx → BitVec 64) (p : Ppn) : pageByte f (p * PAGE_SIZE) = pageByte f 0 := by
  unfold pageByte
  have h₁ : p * PAGE_SIZE % PAGE_SIZE = 0 := Nat.mul_mod_left ..
  have h₂ : p * PAGE_SIZE % 8 = 0 := by
    rw [show PAGE_SIZE = 512 * 8 from rfl, ← Nat.mul_assoc]
    exact Nat.mul_mod_left ..
  rw [h₁, h₂]
  rfl

/-- An entry user mode may read through. -/
def UserReadable (e : Pte) : Prop := pteHas e PTE_USER_BIT = true ∧ pteHas e PTE_READ_BIT = true

instance (e : Pte) : Decidable (UserReadable e) := inferInstanceAs (Decidable (_ ∧ _))

/-- The byte a process reads at an offset of a virtual page, if it may. -/
def userByte (m : Mem) (d : Ppn) (v : Vpn) (off : Nat) : Option UInt8 :=
  (view m d v).bind fun e => if UserReadable e then some (pageByte (m.ram (pte2Ppn e)) off) else none

section UserByte

variable {img : Image} {dirs : Finset Ppn} {m m' : Mem} {d d' y : Ppn} {v v' : Vpn} {e : Pte} {data : Idx → BitVec 64}
  {off : Nat}

theorem userByte_of_view (hv : view m d v = some e) :
    userByte m d v off = if UserReadable e then some (pageByte (m.ram (pte2Ppn e)) off) else none := by
  unfold userByte
  rw [hv]
  rfl

theorem userByte_none (hv : view m d v = none) : userByte m d v off = none := by
  unfold userByte
  rw [hv]
  rfl

/-- Two memories whose entries at a page agree, with the page it maps. -/
theorem userByte_congr (hv : view m' d v = view m d v)
    (hram : ∀ e, view m d v = some e → m'.ram (pte2Ppn e) = m.ram (pte2Ppn e)) :
    userByte m' d v off = userByte m d v off := by
  cases h : view m d v with
  | none => rw [userByte_none h, userByte_none (hv.trans h)]
  | some e => rw [userByte_of_view h, userByte_of_view (hv.trans h), hram e h]

theorem Unseen.userByte (u : Unseen img dirs m m') (hd : d ∈ dirs) (v : Vpn) (off : Nat) :
    userByte m' d v off = userByte m d v off :=
  userByte_congr (u.quiet.view d hd v) fun e he => u.data d hd v e he

/-- A page filled at one virtual page changes what is read there and nowhere else. -/
theorem Filled.userByte_off (f : Filled img dirs d v e data m m') (h : MemInv img m dirs) (hd' : d' ∈ dirs)
    (hne : ¬ (d' = d ∧ v' = v)) (off : Nat) : userByte m' d' v' off = userByte m d' v' off :=
  userByte_congr (f.change.view_off hd' hne) fun _ he => f.ram_eq h hd' hne he

theorem Filled.userByte_self (f : Filled img dirs d v e data m m') (hd : d ∈ dirs) (he : UserReadable e) (off : Nat) :
    userByte m' d v off = some (pageByte data off) := by
  rw [userByte_of_view (f.change.view_self hd), if_pos he, f.page]

end UserByte

/-! ## Page faults -/

section Faults

variable {img : Image} {dirs : Finset Ppn} {m m' : Mem} {d d' y : Ppn} {v : Vpn} {e : Pte} {va pa : Nat}

/-- A copy-on-write entry and its copy differ in the write and copy-on-write bits only. -/
theorem getLsbD_copy (y : Ppn) (e : Pte) {i : Nat} (hi : i < 10) (h0 : i ≠ 0) (h2 : i ≠ 2) (h6 : i ≠ 6) (h7 : i ≠ 7)
    (h8 : i ≠ 8) : (touchPte y (cowPerm e)).getLsbD i = e.getLsbD i := by
  unfold touchPte
  rw [getLsbD_mkPte_low y _ hi]
  unfold cowPerm PTE_ACCESSED_BIT PTE_DIRTY_BIT PTE_WRITE_BIT PTE_COW_BIT
  simp only [BitVec.getLsbD_or, BitVec.getLsbD_and, BitVec.getLsbD_not, getLsbD_pte2Perm]
  rw [getLsbD_bit 6 i (by omega), getLsbD_bit 7 i (by omega), getLsbD_bit 2 i (by omega), getLsbD_bit 8 i (by omega)]
  have h10 : ¬ (10 ≤ i ∧ i < 54) := by omega
  have h64 : i < 64 := by omega
  simp [h0, h2, h6, h7, h8, h10, h64]

theorem userReadable_copy (y : Ppn) (e : Pte) : UserReadable (touchPte y (cowPerm e)) ↔ UserReadable e := by
  unfold UserReadable PTE_USER_BIT PTE_READ_BIT
  rw [pteHas_bit _ 4 (by omega), pteHas_bit _ 1 (by omega), pteHas_bit _ 4 (by omega), pteHas_bit _ 1 (by omega),
    getLsbD_copy y e (by omega) (by omega) (by omega) (by omega) (by omega) (by omega),
    getLsbD_copy y e (by omega) (by omega) (by omega) (by omega) (by omega) (by omega)]

theorem Copied.filled (c : Copied img dirs d v e y m m') (h : MemInv img m dirs) :
    Filled img dirs d v (touchPte y (cowPerm e)) (m.ram (pte2Ppn e)) m m' := by
  have hppn := pte2Ppn_touchPte (h.free y c.mem).1.managed (permOk_cowPerm e)
  refine ⟨⟨c.inv, c.view⟩, ?_, ?_, ?_⟩
  · rw [hppn]
    exact c.mem
  · rw [hppn]
    exact c.copy
  · rw [hppn]
    exact c.data

/-- **`cowHandler`** changes nothing that any process reads. -/
theorem Copied.userByte (c : Copied img dirs d v e y m m') (h : MemInv img m dirs) (hd : d ∈ dirs) (hd' : d' ∈ dirs)
    (v' : Vpn) (off : Nat) : userByte m' d' v' off = userByte m d' v' off := by
  have f := c.filled h
  by_cases heq : d' = d ∧ v' = v
  · obtain ⟨rfl, rfl⟩ := heq
    rw [userByte_of_view (f.change.view_self hd), userByte_of_view c.old, f.page]
    simp only [userReadable_copy]
  · exact f.userByte_off h hd' heq off

/-- What `passiveAlloc` puts in the page it brings in: zeros on the stack, the contents of the segments elsewhere. -/
def faultData (badAddr : Nat) (data : Idx → BitVec 64) : Idx → BitVec 64 :=
  if USER_STACK_BOTTOM ≤ badAddr ∧ badAddr < USER_STACK_TOP then fun _ => 0 else data

theorem getLsbD_segments (l : List SegmentMap) (perm : Pte) (i : Nat) :
    (l.foldl (fun perm s => perm ||| (s.flag &&& ~~~ MAP_ZERO)) perm).getLsbD i =
      (perm.getLsbD i || l.any fun s => (s.flag &&& ~~~ MAP_ZERO).getLsbD i) := by
  induction l generalizing perm with
  | nil => simp
  | cons s l ih => rw [List.foldl_cons, ih, List.any_cons, BitVec.getLsbD_or, Bool.or_assoc]

/-- The entry of a page brought in on demand: user, readable, writable and not copy-on-write. -/
structure LazyEntry (e : Pte) : Prop where
  readable : UserReadable e
  write : pteHas e PTE_WRITE_BIT = true
  cow : pteHas e PTE_COW_BIT = false

/-- The bits of an entry other than valid, accessed and dirty are those of the permission. -/
theorem pteHas_touchPte (y : Ppn) (perm : Pte) {i : Nat} (hi : i < 10) (h0 : i ≠ 0) (h6 : i ≠ 6) (h7 : i ≠ 7) :
    pteHas (touchPte y perm) (bit i) = perm.getLsbD i := by
  rw [pteHas_bit _ i (by omega)]
  unfold touchPte PTE_ACCESSED_BIT PTE_DIRTY_BIT
  rw [getLsbD_mkPte_low y _ hi, BitVec.getLsbD_or, BitVec.getLsbD_or, getLsbD_bit 6 i (by omega),
    getLsbD_bit 7 i (by omega)]
  simp [h0, h6, h7]

theorem lazyEntry_of_bits (y : Ppn) {perm : Pte} (hu : perm.getLsbD 4 = true) (hr : perm.getLsbD 1 = true)
    (hw : perm.getLsbD 2 = true) (hc : perm.getLsbD 8 = false) : LazyEntry (touchPte y perm) := by
  refine ⟨⟨?_, ?_⟩, ?_, ?_⟩
  · rw [PTE_USER_BIT, pteHas_touchPte y perm (by omega) (by omega) (by omega) (by omega), hu]
  · rw [PTE_READ_BIT, pteHas_touchPte y perm (by omega) (by omega) (by omega) (by omega), hr]
  · rw [PTE_WRITE_BIT, pteHas_touchPte y perm (by omega) (by omega) (by omega) (by omega), hw]
  · rw [PTE_COW_BIT, pteHas_touchPte y perm (by omega) (by omega) (by omega) (by omega), hc]

/-- What a page loaded on demand may be used for, if it lies in segments. -/
theorem lazyEntry_segments (y : Ppn) (s : SegmentMap) (rest : List SegmentMap) :
    LazyEntry (touchPte y (PTE_USER_BIT |||
      (s :: rest).foldl (fun perm s => perm ||| (s.flag &&& ~~~ MAP_ZERO)) 0)) := by
  have hflag : ∀ s : SegmentMap, (s.flag &&& ~~~ MAP_ZERO).getLsbD 1 = true ∧
      (s.flag &&& ~~~ MAP_ZERO).getLsbD 2 = true ∧ (s.flag &&& ~~~ MAP_ZERO).getLsbD 8 = false := by
    intro s
    rcases s.flag_mem with hf | hf
    · rw [hf]
      decide
    · rw [hf]
      decide
  apply lazyEntry_of_bits
  · rw [BitVec.getLsbD_or, PTE_USER_BIT, getLsbD_bit 4 4 (by omega)]
    rfl
  · rw [BitVec.getLsbD_or, getLsbD_segments, List.any_cons, (hflag s).1]
    simp
  · rw [BitVec.getLsbD_or, getLsbD_segments, List.any_cons, (hflag s).2.1]
    simp
  · have hany : ((s :: rest).any fun s => (s.flag &&& ~~~ MAP_ZERO).getLsbD 8) = false :=
      List.any_eq_false.mpr fun x _ hx => by
        rw [(hflag x).2.2] at hx
        cases hx
    rw [BitVec.getLsbD_or, getLsbD_segments, hany, PTE_USER_BIT, getLsbD_bit 4 8 (by omega)]
    rfl

/-- **`passiveAlloc`** fills a page that was free, or it found no page for a table and the slot stays empty. -/
theorem MemInv.passiveAlloc_spec (h : MemInv img m dirs) (hd : d ∈ dirs) {segs : List SegmentMap}
    {data : Idx → BitVec 64} (hok : Exaros.passiveAlloc segs data d va m = .ok (pa, m')) :
    (∃ e, Filled img dirs d (vpn va) e (faultData va data) m m' ∧ LazyEntry e ∧
      pa = pte2Ppn e <<< PAGE_SHIFT + vaOffset va ∧ m.freePageList.length ≤ m'.freePageList.length + 3) ∨
    (Unseen img dirs m m' ∧ view m d (vpn va) = none ∧ ¬ IsTable m' dirs (pa / PAGE_SIZE)) := by
  unfold Exaros.passiveAlloc at hok
  split at hok
  · next hstack =>
    cases ha : pageAlloc m with
    | none =>
      rw [ha] at hok
      cases hok
    | some x =>
      obtain ⟨y, m₁⟩ := x
      rw [ha] at hok
      obtain ⟨⟨r, m₂⟩, hi, hx⟩ := Loop.bind_ok hok
      have tk := h.taken ha
      have hperm : PermOk (PTE_READ_BIT ||| PTE_WRITE_BIT ||| PTE_USER_BIT) := by decide
      rcases h.insertFresh hd va ha (m₁.ram y) hperm with ⟨m₃, hi₃, hf, hlen⟩ | ⟨m₃, hi₃, -⟩
      · rw [setPage_self] at hi₃
        obtain ⟨rfl, rfl⟩ := Prod.mk.inj (Except.ok.inj (hi.symm.trans hi₃))
        cases hx
        have hdata : faultData va data = m₁.ram y := by
          unfold faultData
          rw [if_pos hstack]
          funext i
          exact (tk.cleared i).symm
        rw [hdata]
        refine .inl ⟨_, hf, lazyEntry_of_bits y (by decide) (by decide) (by decide) (by decide), ?_, hlen⟩
        rw [pte2Ppn_touchPte tk.usable.1 hperm]
      · rw [setPage_self] at hi₃
        obtain ⟨rfl, rfl⟩ := Prod.mk.inj (Except.ok.inj (hi.symm.trans hi₃))
        cases hx
  · next hstack =>
    split at hok
    · cases hok
    · next s rest _ =>
      cases ha : pageAlloc m with
      | none =>
        rw [ha] at hok
        cases hok
      | some x =>
        obtain ⟨y, m₁⟩ := x
        rw [ha] at hok
        obtain ⟨⟨r, m₂⟩, hi, hx⟩ := Loop.bind_ok hok
        cases hx
        have hdata : faultData va data = data := if_neg hstack
        rw [hdata]
        rcases h.insertFresh hd va ha data (permOk_lazy (s :: rest)) with
          ⟨m₃, hi₃, hf, hlen⟩ | ⟨m₃, hi₃, hu, ⟨hno, hnt⟩, -⟩
        · obtain ⟨-, rfl⟩ := Prod.mk.inj (Except.ok.inj (hi.symm.trans hi₃))
          refine .inl ⟨_, hf, lazyEntry_segments y s rest, ?_, hlen⟩
          rw [pte2Ppn_touchPte (h.taken ha).usable.1 (permOk_lazy (s :: rest))]
        · obtain ⟨-, rfl⟩ := Prod.mk.inj (Except.ok.inj (hi.symm.trans hi₃))
          refine .inr ⟨hu, leafTable_none_view hno, ?_⟩
          have hoff : vaOffset va < PAGE_SIZE := Nat.mod_lt _ (by decide)
          rw [page_add_div hoff]
          exact hnt

end Faults

/-! ## Exceptions -/

def EXCEPTION_ECALL : Nat := 8
def EXCEPTION_LOAD_FAULT : Nat := 13
def EXCEPTION_STORE_FAULT : Nat := 15

/-- `userHandler` for an exception that is no system call, up to `userTrapReturn`. -/
def userHandler (segs : List SegmentMap) (data : Idx → BitVec 64) (exceptionCode : Nat) (pgdir : Ppn) (stval : Nat)
    (m : Mem) : Except Panic Mem :=
  pageFault segs data (exceptionCode = EXCEPTION_LOAD_FAULT ∨ exceptionCode = EXCEPTION_STORE_FAULT) pgdir stval m

/-- What the process could read it reads as before, and the other processes see what they saw. -/
structure Preserved (dirs : Finset Ppn) (d : Ppn) (m m' : Mem) : Prop where
  own : ∀ v off b, userByte m d v off = some b → userByte m' d v off = some b
  others : ∀ d' ∈ dirs, d' ≠ d → ∀ v off, userByte m' d' v off = userByte m d' v off

/-- The exception is a load or store fault, or the process cannot read the page of `stval`, or the page holds what
`passiveAlloc` would put there. -/
def Harmless (data : Idx → BitVec 64) (exceptionCode : Nat) (d : Ppn) (stval : Nat) (m : Mem) : Prop :=
  exceptionCode = EXCEPTION_LOAD_FAULT ∨ exceptionCode = EXCEPTION_STORE_FAULT ∨
    ∀ off b, userByte m d (vpn stval) off = some b → b = pageByte (faultData stval data) off

section Exceptions

variable {img : Image} {dirs : Finset Ppn} {segs : List SegmentMap} {data : Idx → BitVec 64} {m m' : Mem} {d : Ppn}
  {code stval pa : Nat}

theorem preserved_of_eq (h : ∀ d' ∈ dirs, ∀ v off, userByte m' d' v off = userByte m d' v off) (hd : d ∈ dirs) :
    Preserved dirs d m m' :=
  ⟨fun v off _ hb => (h d hd v off).trans hb, fun d' hd' _ v off => h d' hd' v off⟩

/-- `passiveAlloc` preserves what was there exactly when it puts the same bytes again. -/
theorem preserved_passiveAlloc (h : MemInv img m dirs) (hd : d ∈ dirs)
    (hok : passiveAlloc segs data d stval m = .ok (pa, m')) :
    Preserved dirs d m m' ↔ ∀ off b, userByte m d (vpn stval) off = some b → b = pageByte (faultData stval data) off := by
  rcases h.passiveAlloc_spec hd hok with ⟨e, hf, he, -⟩ | ⟨hu, hv, -⟩
  · constructor
    · intro hp off b hb
      have hafter := hp.own _ off b hb
      rw [hf.userByte_self hd he.readable off] at hafter
      exact (Option.some.inj hafter).symm
    · intro hsame
      refine ⟨fun v off b hb => ?_, fun d' hd' hne v off => hf.userByte_off h hd' (fun heq => hne heq.1) off⟩
      by_cases hv : v = vpn stval
      · subst hv
        rw [hf.userByte_self hd he.readable off, hsame off b hb]
      · rw [hf.userByte_off h hd (fun heq => hv heq.2) off, hb]
  · constructor
    · intro _ off _ hb
      rw [userByte_none hv] at hb
      cases hb
    · intro _
      exact preserved_of_eq (fun d' hd' v off => hu.userByte hd' v off) hd

/-- A load or store fault finds out whether the page is there. -/
theorem preserved_access (h : MemInv img m dirs) (hd : d ∈ dirs) (hok : pageFault segs data true d stval m = .ok m') :
    Preserved dirs d m m' := by
  unfold pageFault at hok
  simp only [if_true] at hok
  obtain ⟨x, hl, hok⟩ := Loop.bind_ok hok
  cases x with
  | none =>
    obtain ⟨⟨pa, m₁⟩, hp, hx⟩ := Loop.bind_ok hok
    cases hx
    refine (preserved_passiveAlloc h hd hp).mpr fun off b hb => ?_
    have hv : view m d (vpn stval) = none := by
      obtain ⟨r, hr, hread, -⟩ := h.pageLookup_eq hd stval
      rw [hl] at hr
      cases hr
      exact hread.symm
    rw [userByte_none hv] at hb
    cases hb
  | some x =>
    obtain ⟨page, pte⟩ := x
    simp only at hok
    split at hok
    · obtain ⟨⟨pa, m₁⟩, hc, hx⟩ := Loop.bind_ok hok
      cases hx
      obtain ⟨e, y, c⟩ := h.cowHandler hd hc
      exact preserved_of_eq (fun d' hd' v off => c.userByte h hd hd' v off) hd
    · cases hok

/-- An exception that is no system call and returns to user mode loses nothing exactly when it is a load or store
fault, or when no other contents were readable at the page of `stval`: the other exceptions replace the page there,
mapped or not. -/
theorem userHandler_preserves_iff (h : MemInv img m dirs) (hd : d ∈ dirs) (_hcode : code ≠ EXCEPTION_ECALL)
    (hok : userHandler segs data code d stval m = .ok m') : Preserved dirs d m m' ↔ Harmless data code d stval m := by
  unfold userHandler at hok
  by_cases haccess : code = EXCEPTION_LOAD_FAULT ∨ code = EXCEPTION_STORE_FAULT
  · rw [decide_eq_true haccess] at hok
    constructor
    · intro _
      exact haccess.elim .inl fun h' => .inr (.inl h')
    · intro _
      exact preserved_access h hd hok
  · rw [decide_eq_false haccess] at hok
    obtain ⟨⟨pa, m₁⟩, hp, hx⟩ := Loop.bind_ok hok
    cases hx
    rw [preserved_passiveAlloc h hd hp]
    constructor
    · exact fun hsame => .inr (.inr hsame)
    · rintro (hl | hs | hsame)
      · exact absurd (.inl hl) haccess
      · exact absurd (.inr hs) haccess
      · exact hsame

end Exceptions

/-- The entry `initUserMemory` makes for the top page of the stack. -/
def stackEntry (y : Ppn) : Pte := touchPte y (PTE_USER_BIT ||| PTE_READ_BIT ||| PTE_WRITE_BIT ||| PTE_EXECUTE_BIT)

theorem lazyEntry_stackEntry (y : Ppn) : LazyEntry (stackEntry y) :=
  lazyEntry_of_bits y (by decide) (by decide) (by decide) (by decide)

/-- A process that has stored a one at the start of the top page of its stack. -/
theorem exists_stored : ∃ dirs d m, MemInv Image.sample m dirs ∧ d ∈ dirs ∧ 3 ≤ m.freePageList.length ∧
    userByte m d (vpn (USER_STACK_TOP - PAGE_SIZE)) 0 = some 1 := by
  obtain ⟨dirs, d, m₀, h₀, hd, -, hlen⟩ := exists_process
  obtain ⟨m, y, hinit, hv, hl⟩ := h₀.initUserMemory_ok hd (by omega)
  have h := (kept_initUserMemory h₀ hd hinit).inv h₀
  have hv' : view m d (vpn (USER_STACK_TOP - PAGE_SIZE)) = some (stackEntry y) := hv
  obtain ⟨p, hp⟩ : ∃ p, p = pte2Ppn (stackEntry y) := ⟨_, rfl⟩
  have hpage : p * PAGE_SIZE / PAGE_SIZE = p := Nat.mul_div_cancel p (by decide)
  have hnt : ¬ IsTable m dirs (p * PAGE_SIZE / PAGE_SIZE) := by
    rw [hpage, hp]
    exact (h.leaf d hd _ _ hv').2.1
  have hk : Kept Image.sample dirs m (storeByte m (p * PAGE_SIZE) 1) := kept_storeByte 1 hnt
  have hoff : ∀ q, q ≠ p * PAGE_SIZE / PAGE_SIZE → (storeByte m (p * PAGE_SIZE) 1).ram q = m.ram q := fun q hq => by
    exact ram_write_off m _ _ hq
  have hv₁ := (view_fill hnt hoff hd (vpn (USER_STACK_TOP - PAGE_SIZE))).trans hv'
  refine ⟨dirs, d, storeByte m (p * PAGE_SIZE) 1, hk.inv h, hd, ?_, ?_⟩
  · have hlen' : 3 ≤ m.freePageList.length := by omega
    exact hlen'
  · rw [userByte_of_view hv₁, if_pos (lazyEntry_stackEntry y).readable, ← hp]
    have hload := loadByte_storeByte_self m (p * PAGE_SIZE) 1
    rw [loadByte_eq, hpage, pageByte_start] at hload
    rw [hload]

/-- The process fetches an instruction from its stack, which it may not execute (code 12). -/
theorem exists_fetchFault : ∃ dirs d m m', MemInv Image.sample m dirs ∧ d ∈ dirs ∧
    userByte m d (vpn (USER_STACK_TOP - PAGE_SIZE)) 0 = some 1 ∧
    userHandler [] (fun _ => 0) 12 d (USER_STACK_TOP - PAGE_SIZE) m = .ok m' := by
  obtain ⟨dirs, d, m, h, hd, hlen, hb⟩ := exists_stored
  obtain ⟨pa, m', hok, -⟩ := h.passiveAlloc_ok hd (fun _ => 0)
    (show Lazy [] (USER_STACK_TOP - PAGE_SIZE) from .inl (by decide)) hlen
  refine ⟨dirs, d, m, m', h, hd, hb, ?_⟩
  unfold userHandler
  rw [decide_eq_false (by decide)]
  unfold pageFault
  rw [if_neg (by decide), hok]
  rfl

/-- The fetch from the stack. -/
theorem userHandler_preserves_iff_fetch : ∃ dirs d m m', MemInv Image.sample m dirs ∧ d ∈ dirs ∧
    userHandler [] (fun _ => 0) 12 d (USER_STACK_TOP - PAGE_SIZE) m = .ok m' ∧
    (Preserved dirs d m m' ↔ Harmless (fun _ => 0) 12 d (USER_STACK_TOP - PAGE_SIZE) m) := by
  obtain ⟨dirs, d, m, m', h, hd, -, hok⟩ := exists_fetchFault
  exact ⟨dirs, d, m, m', h, hd, hok, userHandler_preserves_iff h hd (by decide) hok⟩

/-- The page of the stack is replaced by an empty one. -/
theorem userHandler_loses_contents : ∃ dirs d m m', MemInv Image.sample m dirs ∧ d ∈ dirs ∧
    userHandler [] (fun _ => 0) 12 d (USER_STACK_TOP - PAGE_SIZE) m = .ok m' ∧ ¬ Preserved dirs d m m' := by
  obtain ⟨dirs, d, m, m', h, hd, hb, hok⟩ := exists_fetchFault
  refine ⟨dirs, d, m, m', h, hd, hok, fun hp => ?_⟩
  unfold userHandler at hok
  rw [decide_eq_false (by decide)] at hok
  obtain ⟨⟨pa, m₁⟩, hpass, hx⟩ := Loop.bind_ok hok
  cases hx
  have hsame := (preserved_passiveAlloc h hd hpass).mp hp 0 1 hb
  exact absurd hsame (by decide)

end Exaros
