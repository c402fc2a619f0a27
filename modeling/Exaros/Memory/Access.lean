import Exaros.Memory.Visible

/-!
# Reaching user memory

`copyin`, `copyout` and `memsetOut` go through a range of a process page by page: they translate the address,
bring the page in or copy it where they must, and move the bytes that lie in it. `spaceByte` is the memory of a
process with what is still to be loaded. Making a page accessible shows nowhere in it (`Ready`); a store shows
where the page is mapped (`spaceByte_storeBytes`).
-/

namespace Exaros

/-! ## Addresses -/

section Translation

variable {img : Image} {dirs : Finset Ppn} {m m' : Mem} {d : Ppn} {va pa : Nat} {c : Bool} {e : Pte}

/-- What `va2PA` finds. -/
theorem va2PA_eq_some (h : va2PA d va m = some (pa, c)) :
    va < VA_MAX ∧ ∃ e, view m d (vpn va) = some e ∧ pteHas e PTE_USER_BIT = true ∧
      pa = pte2Ppn e <<< PAGE_SHIFT + vaOffset va ∧ c = pteHas e PTE_COW_BIT := by
  unfold va2PA at h
  split at h
  · cases h
  · rename_i hva
    rw [pageWalk_false] at h
    cases ht : leafTable m d (vpn va) with
    | none =>
      simp only [ht, Option.map_none] at h
      cases h
    | some t =>
      simp only [ht, Option.map_some] at h
      split at h
      · rename_i hvalid
        obtain ⟨hv, hu⟩ := Bool.and_eq_true_iff.mp hvalid
        obtain ⟨rfl, rfl⟩ := Prod.mk.inj (Option.some.inj h)
        exact ⟨Nat.not_le.mp hva, _, (view_of_leafTable ht).trans (if_pos hv), hu, rfl, rfl⟩
      · cases h

theorem va2PA_eq_none (hv : view m d (vpn va) = none) : va2PA d va m = none := by
  cases hx : va2PA d va m with
  | none => rfl
  | some x =>
    obtain ⟨-, e, hv', -⟩ := va2PA_eq_some hx
    rw [hv] at hv'
    cases hv'

theorem page_add_mod {p off : Nat} (h : off < PAGE_SIZE) : (p <<< PAGE_SHIFT + off) % PAGE_SIZE = off := by
  have hpow : PAGE_SIZE = 2 ^ PAGE_SHIFT := by decide
  rw [Nat.shiftLeft_eq, ← hpow, Nat.mul_comm, Nat.mul_add_mod, Nat.mod_eq_of_lt h]

/-- The byte at an offset of a page. -/
theorem loadByte_page (m : Mem) {p off : Nat} (h : off < PAGE_SIZE) :
    loadByte m (p <<< PAGE_SHIFT + off) = pageByte (m.ram p) off := by
  rw [loadByte_eq, page_add_div h]
  unfold pageByte
  rw [page_add_mod h, Nat.mod_eq_of_lt h]
  have h8 : (p <<< PAGE_SHIFT + off) % 8 = off % 8 := by
    rw [Nat.shiftLeft_eq]
    unfold PAGE_SHIFT
    omega
  rw [h8]

/-- `cowHandler` returns an address in the page that was mapped. -/
theorem cowHandler_result (h : MemInv img m dirs) (hd : d ∈ dirs) (hv : view m d (vpn va) = some e)
    (hok : cowHandler d va m = .ok (pa, m')) : pa = pte2Ppn e <<< PAGE_SHIFT + vaOffset va := by
  obtain ⟨t, ht, hread, hl⟩ := h.pageLookup_some hd hv
  unfold cowHandler at hok
  rw [hl] at hok
  simp only [bind, Except.bind] at hok
  split at hok
  · cases hok
  · rename_i hx
    split at hok
    · cases hok
    · obtain ⟨x, -, hx⟩ := Loop.bind_ok hok
      cases hx
      rfl

theorem not_cow_copy (y : Ppn) (e : Pte) : pteHas (touchPte y (cowPerm e)) PTE_COW_BIT = false := by
  unfold PTE_COW_BIT
  rw [pteHas_bit _ 8 (by omega)]
  unfold touchPte
  rw [getLsbD_mkPte_low y _ (by omega)]
  unfold cowPerm PTE_ACCESSED_BIT PTE_DIRTY_BIT PTE_WRITE_BIT PTE_COW_BIT
  simp only [BitVec.getLsbD_or, BitVec.getLsbD_and, BitVec.getLsbD_not]
  rw [getLsbD_bit 6 8 (by omega), getLsbD_bit 7 8 (by omega), getLsbD_bit 8 8 (by omega)]
  simp

end Translation

/-! ## The memory of a process -/

/-- The byte a process has at an address: of the page mapped there for user mode, or of the one that would be
brought in. Each directory comes with the segments of its process and the contents of their pages. -/
def spaceByte (segs : Ppn → List SegmentMap) (pages : Ppn → Nat → Idx → BitVec 64) (m : Mem) (d : Ppn) (va : Nat) :
    Option UInt8 :=
  match view m d (vpn va) with
  | some e => if pteHas e PTE_USER_BIT then some (pageByte (m.ram (pte2Ppn e)) va) else none
  | none => if Lazy (segs d) va then some (pageByte (faultData va (pages d (alignDown va))) va) else none

/-- There is a user page at `va`, or none where one is brought in on demand. -/
def Accessible (segs : List SegmentMap) (m : Mem) (d : Ppn) (va : Nat) : Prop :=
  (∃ e, view m d (vpn va) = some e ∧ pteHas e PTE_USER_BIT = true) ∨ (view m d (vpn va) = none ∧ Lazy segs va)

/-- The page of `va` is there for user mode as the entry `e`, no copy-on-write page, and no process has another byte
anywhere than it had in `m`. If the entry is new, so is the page. -/
structure Ready (img : Image) (dirs : Finset Ppn) (segs : Ppn → List SegmentMap) (pages : Ppn → Nat → Idx → BitVec 64)
    (d : Ppn) (va : Nat) (e : Pte) (m m₁ : Mem) : Prop where
  inv : MemInv img m₁ dirs
  self : view m₁ d (vpn va) = some e
  user : pteHas e PTE_USER_BIT = true
  plain : pteHas e PTE_COW_BIT = false
  off : ∀ d' ∈ dirs, ∀ v, ¬ (d' = d ∧ v = vpn va) → view m₁ d' v = view m d' v
  byte : ∀ d' ∈ dirs, ∀ a < VA_MAX, spaceByte segs pages m₁ d' a = spaceByte segs pages m d' a
  own : m₁ = m ∨ (∀ d' ∈ dirs, ∀ v e', ¬ (d' = d ∧ v = vpn va) → view m₁ d' v = some e' → pte2Ppn e' ≠ pte2Ppn e) ∧
    m.freePageList.length ≤ m₁.freePageList.length + 3

section Space

variable {img : Image} {dirs : Finset Ppn} {segs : Ppn → List SegmentMap} {pages : Ppn → Nat → Idx → BitVec 64}
  {data : Idx → BitVec 64} {m m₁ m' : Mem} {d d' : Ppn} {va a pa : Nat} {e : Pte}

theorem spaceByte_of_view (hv : view m d (vpn va) = some e) (hu : pteHas e PTE_USER_BIT = true) :
    spaceByte segs pages m d va = some (pageByte (m.ram (pte2Ppn e)) va) := by
  unfold spaceByte
  rw [hv]
  exact if_pos hu

theorem spaceByte_of_lazy (hv : view m d (vpn va) = none) (hl : Lazy (segs d) va) :
    spaceByte segs pages m d va = some (pageByte (faultData va (pages d (alignDown va))) va) := by
  unfold spaceByte
  rw [hv]
  exact if_pos hl

/-- Memories whose entries at a page agree, with the page it maps. -/
theorem spaceByte_congr (hv : view m' d (vpn va) = view m d (vpn va))
    (hram : ∀ e, view m d (vpn va) = some e → m'.ram (pte2Ppn e) = m.ram (pte2Ppn e)) :
    spaceByte segs pages m' d va = spaceByte segs pages m d va := by
  unfold spaceByte
  rw [hv]
  cases h : view m d (vpn va) with
  | none => rfl
  | some e =>
    dsimp only
    rw [hram e h]

/-! ### Within a page -/

theorem alignDown_congr (h : a / PAGE_SIZE = va / PAGE_SIZE) : alignDown a = alignDown va := by
  unfold alignDown PAGE_SIZE at *
  omega

theorem stack_congr (h : a / PAGE_SIZE = va / PAGE_SIZE) :
    (USER_STACK_BOTTOM ≤ a ∧ a < USER_STACK_TOP) ↔ (USER_STACK_BOTTOM ≤ va ∧ va < USER_STACK_TOP) := by
  have hbottom : USER_STACK_BOTTOM = 0x3EFFFFD * PAGE_SIZE := by decide
  have htop : USER_STACK_TOP = 0x3FFFFFD * PAGE_SIZE := by decide
  rw [hbottom, htop]
  unfold PAGE_SIZE at *
  omega

theorem lazy_congr {segs : List SegmentMap} (h : a / PAGE_SIZE = va / PAGE_SIZE) : Lazy segs a ↔ Lazy segs va := by
  unfold Lazy
  rw [stack_congr h, alignDown_congr h]

theorem faultData_congr (h : a / PAGE_SIZE = va / PAGE_SIZE) : faultData a data = faultData va data := by
  unfold faultData
  simp only [stack_congr h]

theorem accessible_congr {segs : List SegmentMap} (h : a / PAGE_SIZE = va / PAGE_SIZE) :
    Accessible segs m d a ↔ Accessible segs m d va := by
  unfold Accessible
  rw [vpn_congr h, lazy_congr h]

/-! ### Making a page accessible -/

/-- A page filled with what the process has there already. -/
theorem Filled.ready (f : Filled img dirs d (vpn va) e data m m₁) (h : MemInv img m dirs) (hd : d ∈ dirs)
    (hu : pteHas e PTE_USER_BIT = true) (hp : pteHas e PTE_COW_BIT = false)
    (hdata : ∀ a < VA_MAX, vpn a = vpn va → spaceByte segs pages m d a = some (pageByte data a))
    (hlen : m.freePageList.length ≤ m₁.freePageList.length + 3) : Ready img dirs segs pages d va e m m₁ where
  inv := f.change.inv
  self := f.change.view_self hd
  user := hu
  plain := hp
  off := fun d' hd' v hne => f.change.view_off hd' hne
  byte := fun d' hd' a ha => by
    by_cases heq : d' = d ∧ vpn a = vpn va
    · obtain ⟨rfl, hpage⟩ := heq
      have hself : view m₁ d' (vpn a) = some e := hpage ▸ f.change.view_self hd
      rw [spaceByte_of_view hself hu, hdata a ha hpage, f.page]
    · exact spaceByte_congr (f.change.view_off hd' heq) fun e' he' => f.ram_eq h hd' heq he'
  own := .inr ⟨fun d' hd' v e' hne hv heq => by
    rw [f.change.view_off hd' hne] at hv
    exact h.not_free_of_view hd' hv (heq ▸ f.mem), hlen⟩

theorem MemInv.ready_refl (h : MemInv img m dirs) (hv : view m d (vpn va) = some e) (hu : pteHas e PTE_USER_BIT = true)
    (hp : pteHas e PTE_COW_BIT = false) : Ready img dirs segs pages d va e m m where
  inv := h
  self := hv
  user := hu
  plain := hp
  off := fun _ _ _ _ => rfl
  byte := fun _ _ _ _ => rfl
  own := .inl rfl

variable (segs pages) in
/-- When `passiveAlloc` returns, it has brought in what the process has there, or it has mapped nothing. -/
theorem MemInv.ready_of_passiveAlloc (h : MemInv img m dirs) (hd : d ∈ dirs) (hva : va < VA_MAX)
    (hv : view m d (vpn va) = none) (hl : Lazy (segs d) va)
    (hok : passiveAlloc (segs d) (pages d (alignDown va)) d va m = .ok (pa, m₁)) :
    (∃ e, Ready img dirs segs pages d va e m m₁ ∧ pa = pte2Ppn e <<< PAGE_SHIFT + vaOffset va) ∨
      view m₁ d (vpn va) = none := by
  rcases h.passiveAlloc_spec hd hok with ⟨e, hf, he, hpa, hlen⟩ | ⟨hu, -⟩
  · refine .inl ⟨e, hf.ready h hd he.readable.1 he.cow (fun a ha hpage => ?_) hlen, hpa⟩
    have hsame := (vpn_eq_iff ha hva).mp hpage
    rw [spaceByte_of_lazy (hpage ▸ hv) ((lazy_congr hsame).mpr hl), faultData_congr hsame, alignDown_congr hsame]
  · exact .inr ((hu.quiet.view d hd (vpn va)).trans hv)

variable (segs pages) in
/-- **`passiveAlloc`** brings in what the process has there. -/
theorem MemInv.ready_passiveAlloc (h : MemInv img m dirs) (hd : d ∈ dirs) (hva : va < VA_MAX)
    (hv : view m d (vpn va) = none) (hl : Lazy (segs d) va) (hmem : 3 ≤ m.freePageList.length) :
    ∃ pa m₁ e, passiveAlloc (segs d) (pages d (alignDown va)) d va m = .ok (pa, m₁) ∧
      Ready img dirs segs pages d va e m m₁ ∧ pa = pte2Ppn e <<< PAGE_SHIFT + vaOffset va := by
  obtain ⟨pa, m₁, hok, e₀, -, hchange⟩ := h.passiveAlloc_ok hd (pages d (alignDown va)) hl hmem
  rcases h.ready_of_passiveAlloc segs pages hd hva hv hl hok with ⟨e, hr, hpa⟩ | hnone
  · exact ⟨pa, m₁, e, hok, hr, hpa⟩
  · rw [hchange.view_self hd] at hnone
    cases hnone

variable (segs pages) in
/-- **`cowHandler`** copies what the process has there. -/
theorem MemInv.ready_cowHandler (h : MemInv img m dirs) (hd : d ∈ dirs) (hv : view m d (vpn va) = some e)
    (hu : pteHas e PTE_USER_BIT = true) (hcow : pteHas e PTE_COW_BIT = true) (hmem : 0 < m.freePageList.length) :
    ∃ m₁ y, Exaros.cowHandler d va m = .ok (pte2Ppn e <<< PAGE_SHIFT + vaOffset va, m₁) ∧ Copied img dirs d (vpn va) e y m m₁ ∧
      Ready img dirs segs pages d va (touchPte y (cowPerm e)) m m₁ := by
  obtain ⟨pa, m₁, hok, ⟨e', y, hc⟩, hlen⟩ := h.cowHandler_ok hd hv hcow hmem
  obtain rfl : e = e' := Option.some.inj (hv.symm.trans hc.old)
  obtain rfl := cowHandler_result h hd hv hok
  refine ⟨m₁, y, hok, hc, (hc.filled h).ready h hd ?_ (not_cow_copy y e) (fun a _ hpage => ?_) hlen⟩
  · unfold PTE_USER_BIT at hu ⊢
    rw [pteHas_bit _ 4 (by omega)] at hu ⊢
    rw [getLsbD_copy y e (by omega) (by omega) (by omega) (by omega) (by omega) (by omega), hu]
  · rw [spaceByte_of_view (hpage ▸ hv) hu]

variable (segs pages) in
/-- **`copyPage`** makes an accessible page ready. -/
theorem MemInv.ready_copyPage (h : MemInv img m dirs) (hd : d ∈ dirs) (hva : va < VA_MAX) (hacc : Accessible (segs d) m d va)
    (hmem : (∃ e, view m d (vpn va) = some e ∧ pteHas e PTE_COW_BIT = false) ∨ 3 ≤ m.freePageList.length) :
    ∃ m₁ e, copyPage (segs d) (pages d (alignDown va)) d va m = .ok m₁ ∧ Ready img dirs segs pages d va e m m₁ := by
  unfold copyPage
  rcases hacc with ⟨e, hv, hu⟩ | ⟨hv, hl⟩
  · have hva2PA := va2PA_of_view hva hv hu
    cases hcow : pteHas e PTE_COW_BIT with
    | false =>
      rw [hcow] at hva2PA
      refine ⟨m, e, ?_, h.ready_refl hv hu hcow⟩
      simp only [hva2PA, pure, Except.pure, bind, Except.bind]
    | true =>
      rw [hcow] at hva2PA
      have hmem' : 3 ≤ m.freePageList.length := hmem.resolve_left fun ⟨e', hv', hp⟩ => by
        obtain rfl := Option.some.inj (hv.symm.trans hv')
        rw [hcow] at hp
        cases hp
      obtain ⟨m₁, y, hok, -, hr⟩ := h.ready_cowHandler segs pages hd hv hu hcow (by omega)
      refine ⟨m₁, _, ?_, hr⟩
      simp only [hva2PA, hok, pure, Except.pure, bind, Except.bind]
  · have hmem' : 3 ≤ m.freePageList.length := hmem.resolve_left fun ⟨e', hv', hp⟩ => by
      rw [hv] at hv'
      cases hv'
    have hnone := va2PA_eq_none hv
    obtain ⟨pa, m₁, e, hok, hr, -⟩ := h.ready_passiveAlloc segs pages hd hva hv hl hmem'
    have hva2PA := va2PA_of_view hva hr.self hr.user
    rw [hr.plain] at hva2PA
    refine ⟨m₁, e, ?_, hr⟩
    simp only [hnone, hok, hva2PA, pure, Except.pure, bind, Except.bind]

variable (segs pages) in
/-- When `copyPage` returns with a page at an accessible address, the page is ready. -/
theorem MemInv.ready_of_copyPage {x : Nat × Bool} (h : MemInv img m dirs) (hd : d ∈ dirs) (hva : va < VA_MAX)
    (hacc : Accessible (segs d) m d va) (hok : copyPage (segs d) (pages d (alignDown va)) d va m = .ok m₁)
    (hpa : va2PA d va m₁ = some x) : ∃ e, Ready img dirs segs pages d va e m m₁ := by
  unfold copyPage at hok
  rcases hacc with ⟨e, hv, hu⟩ | ⟨hv, hl⟩
  · have hva2PA := va2PA_of_view hva hv hu
    simp only [hva2PA, pure, Except.pure, Loop.ok_bind] at hok
    cases hcow : pteHas e PTE_COW_BIT with
    | false =>
      rw [hcow] at hok
      cases hok
      exact ⟨e, h.ready_refl hv hu hcow⟩
    | true =>
      rw [hcow] at hok
      obtain ⟨⟨pa, m₂⟩, hcopy, hx⟩ := Loop.bind_ok hok
      cases hx
      obtain ⟨e', y, hc⟩ := h.cowHandler hd hcopy
      obtain ⟨m₂, y, hcopy', -, hr⟩ := h.ready_cowHandler segs pages hd hv hu hcow (List.length_pos_of_mem hc.mem)
      obtain ⟨-, rfl⟩ := Prod.mk.inj (Except.ok.inj (hcopy.symm.trans hcopy'))
      exact ⟨_, hr⟩
  · simp only [va2PA_eq_none hv] at hok
    obtain ⟨⟨pa, m₂⟩, halloc, hok⟩ := Loop.bind_ok hok
    obtain ⟨m₃, hx, hok⟩ := Loop.bind_ok hok
    cases hx
    rcases h.ready_of_passiveAlloc segs pages hd hva hv hl halloc with ⟨e, hr, -⟩ | hnone
    · have hva2PA := va2PA_of_view hva hr.self hr.user
      rw [hr.plain] at hva2PA
      simp only [hva2PA] at hok
      cases hok
      exact ⟨e, hr⟩
    · simp only [va2PA_eq_none hnone] at hok
      cases hok
      rw [va2PA_eq_none hnone] at hpa
      cases hpa

/-! ### Storing -/

theorem loadByte_storeBytes_off (src : List UInt8) (m : Mem) (ha : a < pa ∨ pa + src.length ≤ a) :
    loadByte (storeBytes pa src m) a = loadByte m a := by
  induction src generalizing pa m with
  | nil => rfl
  | cons ch src ih =>
    rw [List.length_cons] at ha
    unfold storeBytes
    rw [ih _ (by omega), loadByte_storeByte_ne m ch (by omega)]

theorem loadByte_storeBytes_at (src : List UInt8) (m : Mem) {i : Nat} (hi : i < src.length) :
    loadByte (storeBytes pa src m) (pa + i) = src[i] := by
  induction src generalizing pa m i with
  | nil => cases hi
  | cons ch src ih =>
    unfold storeBytes
    cases i with
    | zero =>
      rw [loadByte_storeBytes_off _ _ (.inl (by omega))]
      exact loadByte_storeByte_self m pa ch
    | succ i =>
      rw [show pa + (i + 1) = pa + 1 + i by omega]
      exact ih _ (by simpa using hi)

theorem freePageList_storeBytes (src : List UInt8) (m : Mem) :
    (storeBytes pa src m).freePageList = m.freePageList := by
  induction src generalizing pa m with
  | nil => rfl
  | cons ch src ih => exact ih _

/-- The byte at an address, at its place in physical memory. -/
theorem spaceByte_eq_load (hv : view m d (vpn va) = some e) (hu : pteHas e PTE_USER_BIT = true) :
    spaceByte segs pages m d va = some (loadByte m (pte2Ppn e <<< PAGE_SHIFT + vaOffset va)) := by
  have hoff : vaOffset va < PAGE_SIZE := Nat.mod_lt _ (by decide)
  rw [spaceByte_of_view hv hu, loadByte_page m hoff]
  unfold pageByte vaOffset
  rw [Nat.mod_mod, Nat.mod_mod_of_dvd va (by decide : 8 ∣ PAGE_SIZE)]

/-- A store shows where its page is mapped, at the offsets stored to. -/
theorem spaceByte_storeBytes_at {src : List UInt8} {p : Ppn} {off i : Nat} (hi : i < src.length)
    (hv : view (storeBytes (p <<< PAGE_SHIFT + off) src m) d (vpn a) = some e) (hu : pteHas e PTE_USER_BIT = true)
    (hp : pte2Ppn e = p) (ha : vaOffset a = off + i) :
    spaceByte segs pages (storeBytes (p <<< PAGE_SHIFT + off) src m) d a = some src[i] := by
  rw [spaceByte_eq_load hv hu, hp, ha, ← Nat.add_assoc, loadByte_storeBytes_at src m hi]

/-- It shows nowhere else. -/
theorem spaceByte_storeBytes_off {src : List UInt8} {p : Ppn} {off : Nat} (hfit : off + src.length ≤ PAGE_SIZE)
    (hv : view (storeBytes (p <<< PAGE_SHIFT + off) src m) d (vpn a) = view m d (vpn a))
    (hoff : ∀ e, view m d (vpn a) = some e → pteHas e PTE_USER_BIT = true → pte2Ppn e = p →
      ¬ (off ≤ vaOffset a ∧ vaOffset a < off + src.length)) :
    spaceByte segs pages (storeBytes (p <<< PAGE_SHIFT + off) src m) d a = spaceByte segs pages m d a := by
  cases hview : view m d (vpn a) with
  | none =>
    unfold spaceByte
    rw [hv, hview]
  | some e =>
    cases hu : pteHas e PTE_USER_BIT with
    | false =>
      unfold spaceByte
      simp only [hv, hview, hu, Bool.false_eq_true, if_false]
    | true =>
      rw [spaceByte_eq_load (hv.trans hview) hu, spaceByte_eq_load hview hu, loadByte_storeBytes_off]
      have ha : vaOffset a < PAGE_SIZE := Nat.mod_lt _ (by decide)
      have hmul : ∀ q : Nat, q <<< PAGE_SHIFT = q * 4096 := fun q => Nat.shiftLeft_eq q PAGE_SHIFT
      have hno := hoff e hview hu
      rw [hmul, hmul]
      unfold PAGE_SIZE at ha hfit
      by_contra hin
      have hpage : @Eq Nat (pte2Ppn e) p := by omega
      have := hno hpage
      subst hpage
      omega

end Space

end Exaros
