import Exaros.Memory.Access

/-!
# Copies to and from a process

`copyout` and `copyin` against the memory of the processes (`spaceByte`). A turn of either loop makes one page
ready, which shows nowhere, and moves the bytes that lie in it. What a store of `copyout` shows elsewhere is what
maps the same page of physical memory (`Hit`); under the isolation of private pages that is shared memory only.
-/

namespace Exaros

/-! ## Ranges of pages -/

/-- What one turn moves of `len` bytes at `va`. -/
def chunk (va len : Nat) : Nat := min (PAGE_SIZE - va % PAGE_SIZE) len

/-- How many pages meet `[va, va + len)`. -/
def pagesMet (va len : Nat) : Nat := if len = 0 then 0 else (va + len - 1) / PAGE_SIZE - va / PAGE_SIZE + 1

section Range

variable {va len a i : Nat}

theorem chunk_pos (va : Nat) (h : 0 < len) : 0 < chunk va len := by
  unfold chunk PAGE_SIZE
  omega

theorem chunk_le (va len : Nat) : chunk va len ≤ len := Nat.min_le_right ..

theorem vaOffset_chunk (va len : Nat) : vaOffset va + chunk va len ≤ PAGE_SIZE := by
  unfold vaOffset chunk PAGE_SIZE
  omega

theorem chunk_page (hi : i < chunk va len) : (va + i) / PAGE_SIZE = va / PAGE_SIZE := by
  unfold chunk PAGE_SIZE at *
  omega

theorem vaOffset_add (hi : i < chunk va len) : vaOffset (va + i) = vaOffset va + i := by
  unfold vaOffset chunk PAGE_SIZE at *
  omega

/-- After a turn the next page begins. -/
theorem page_lt_of_chunk (ha : va + chunk va len ≤ a) (hlt : a < va + len) : va / PAGE_SIZE < a / PAGE_SIZE := by
  unfold chunk PAGE_SIZE at *
  omega

/-- An address of the page of `va`, at the offset of a byte moved, is where that byte is. -/
theorem eq_of_chunk (hpage : a / PAGE_SIZE = va / PAGE_SIZE) (hlo : vaOffset va ≤ vaOffset a)
    (hhi : vaOffset a < vaOffset va + chunk va len) : va ≤ a ∧ a < va + chunk va len := by
  unfold vaOffset chunk PAGE_SIZE at *
  omega

theorem pagesMet_chunk (h : 0 < len) : pagesMet va len = pagesMet (va + chunk va len) (len - chunk va len) + 1 := by
  unfold pagesMet chunk PAGE_SIZE
  rw [if_neg (by omega)]
  split <;> omega

end Range

/-! ## What a turn needs and leaves -/

/-- No page of the range has to be made, or there are pages for all of them and their tables. -/
def Enough (m : Mem) (d : Ppn) (va len : Nat) : Prop :=
  (∀ a, va ≤ a → a < va + len → ∃ e, view m d (vpn a) = some e ∧ pteHas e PTE_COW_BIT = false) ∨
    3 * pagesMet va len ≤ m.freePageList.length

/-- A store through `[va, va + len)`, which leaves out the copy-on-write pages, lands on the byte that `d'` has at `a`. -/
def Hit (m : Mem) (d : Ppn) (va len : Nat) (d' : Ppn) (a : Nat) : Prop :=
  ∃ b, va ≤ b ∧ b < va + len ∧ ∃ e e', view m d (vpn b) = some e ∧ pteHas e PTE_COW_BIT = false ∧
    view m d' (vpn a) = some e' ∧ pteHas e' PTE_USER_BIT = true ∧ pte2Ppn e' = pte2Ppn e ∧ vaOffset a = vaOffset b

section Turn

variable {img : Image} {dirs : Finset Ppn} {segs : Ppn → List SegmentMap} {pages : Ppn → Nat → Idx → BitVec 64}
  {m m₁ m₂ m' : Mem} {d d' : Ppn} {va len a fuel : Nat} {e : Pte}

/-- The pages after a turn are those of before. -/
theorem Ready.view_rest (r : Ready img dirs segs pages d va e m m₁) (hd : d ∈ dirs)
    (hrange : va + len ≤ VA_MAX) (hlo : va + chunk va len ≤ a) (hhi : a < va + len) :
    vpn a ≠ vpn va ∧ view m₁ d (vpn a) = view m d (vpn a) := by
  have hpage := page_lt_of_chunk hlo hhi
  have hne : vpn a ≠ vpn va := fun heq => by
    have := (vpn_eq_iff (by omega) (by omega)).mp heq
    omega
  exact ⟨hne, r.off d hd _ fun hc => hne hc.2⟩

theorem Ready.enough (r : Ready img dirs segs pages d va e m m₁) (hd : d ∈ dirs) (hrange : va + len ≤ VA_MAX)
    (hpos : 0 < len) (h : Enough m d va len) (hview : ∀ v, view m₂ d v = view m₁ d v)
    (hfree : m₂.freePageList = m₁.freePageList) : Enough m₂ d (va + chunk va len) (len - chunk va len) := by
  rcases h with hplain | hmem
  · refine .inl fun a hlo hhi => ?_
    obtain ⟨e', hv, hp⟩ := hplain a (by omega) (by omega)
    exact ⟨e', by rw [hview, (r.view_rest hd hrange hlo (by omega)).2, hv], hp⟩
  · rw [pagesMet_chunk hpos] at hmem
    refine .inr ?_
    rw [hfree]
    rcases r.own with heq | ⟨-, hlen⟩
    · rw [heq]
      omega
    · omega

theorem Enough.first (h : Enough m d va len) (hpos : 0 < len) :
    (∃ e, view m d (vpn va) = some e ∧ pteHas e PTE_COW_BIT = false) ∨ 3 ≤ m.freePageList.length := by
  rcases h with hplain | hmem
  · exact .inl (hplain va (Nat.le_refl _) (by omega))
  · rw [pagesMet_chunk hpos] at hmem
    exact .inr (by omega)

theorem Ready.accessible (r : Ready img dirs segs pages d va e m m₁) (hd : d ∈ dirs) (hrange : va + len ≤ VA_MAX)
    {segs' : List SegmentMap} (h : ∀ a, va ≤ a → a < va + len → Accessible segs' m d a)
    (hview : ∀ v, view m₂ d v = view m₁ d v) (hlo : va + chunk va len ≤ a)
    (hhi : a < va + chunk va len + (len - chunk va len)) : Accessible segs' m₂ d a := by
  have hacc := h a (by omega) (by omega)
  unfold Accessible at hacc ⊢
  rwa [hview, (r.view_rest hd hrange hlo (by omega)).2]

end Turn

/-! ## `copyin` -/

section Copyin

variable {img : Image} {dirs : Finset Ppn} {segs : Ppn → List SegmentMap} {pages : Ppn → Nat → Idx → BitVec 64}
  {m m₁ : Mem} {d : Ppn} {va len fuel : Nat} {e : Pte}

theorem u64_of_le_max {x : Nat} (h : x ≤ VA_MAX) : u64 x = x :=
  Nat.mod_eq_of_lt (Nat.lt_of_le_of_lt h (by decide))

/-- A page is one piece of physical memory. -/
theorem chunk_of_ready (va len : Nat) (e : Pte) :
    min (PAGE_SIZE - (pte2Ppn e <<< PAGE_SHIFT + vaOffset va) % PAGE_SIZE) len = chunk va len := by
  have hoff : vaOffset va < PAGE_SIZE := Nat.mod_lt _ (by decide)
  rw [page_add_mod hoff]
  rfl

/-- One turn of `copyin`. -/
theorem copyinLoop_turn (r : Ready img dirs segs pages d va e m m₁) (hpos : 0 < len) (hrange : va + len ≤ VA_MAX)
    (hcopy : copyPage (segs d) (pages d (alignDown va)) d va m = .ok m₁) :
    copyinLoop (segs d) (pages d) d (fuel + 1) va len m = do
      let (rest, m') ← copyinLoop (segs d) (pages d) d fuel (va + chunk va len) (len - chunk va len) m₁
      return (loadBytes m₁ (pte2Ppn e <<< PAGE_SHIFT + vaOffset va) (chunk va len) ++ rest, m') := by
  have hle := chunk_le va len
  have hva2PA := va2PA_of_view (by omega) r.self r.user
  cases len with
  | zero => cases hpos
  | succ len =>
    rw [copyinLoop, hcopy, Loop.ok_bind, hva2PA]
    dsimp only
    rw [chunk_of_ready, u64_of_le_max (by omega)]

/-- The bytes moved in one turn are those of the process. -/
theorem Ready.loadBytes (r : Ready img dirs segs pages d va e m m₁) (hd : d ∈ dirs) (hrange : va + len ≤ VA_MAX) :
    (Exaros.loadBytes m₁ (pte2Ppn e <<< PAGE_SHIFT + vaOffset va) (chunk va len)).map some =
      (List.range (chunk va len)).map fun i => spaceByte segs pages m d (va + i) := by
  have hle := chunk_le va len
  unfold Exaros.loadBytes
  rw [List.map_map]
  refine List.map_congr_left fun i hi => ?_
  have hi := List.mem_range.mp hi
  have hpage : vpn (va + i) = vpn va := vpn_congr (chunk_page hi)
  rw [← r.byte d hd (va + i) (by omega), spaceByte_eq_load (hpage ▸ r.self) r.user, vaOffset_add hi, ← Nat.add_assoc]
  rfl

variable (segs pages) in
/-- **`copyin`** delivers the bytes of the process and shows nowhere. -/
theorem MemInv.copyinLoop (h : MemInv img m dirs) (hd : d ∈ dirs) (hrange : va + len ≤ VA_MAX)
    (hacc : ∀ a, va ≤ a → a < va + len → Accessible (segs d) m d a) (hmem : Enough m d va len) (hfuel : len ≤ fuel) :
    ∃ bytes m', Exaros.copyinLoop (segs d) (pages d) d fuel va len m = .ok (bytes, m') ∧ MemInv img m' dirs ∧
      bytes.map some = (List.range len).map (fun i => spaceByte segs pages m d (va + i)) ∧
      ∀ d' ∈ dirs, ∀ a < VA_MAX, spaceByte segs pages m' d' a = spaceByte segs pages m d' a := by
  induction fuel generalizing va len m with
  | zero =>
    obtain rfl : len = 0 := by omega
    exact ⟨[], m, by rw [Exaros.copyinLoop], h, rfl, fun _ _ _ _ => rfl⟩
  | succ fuel ih =>
    rcases Nat.eq_zero_or_pos len with rfl | hpos
    · exact ⟨[], m, by rw [Exaros.copyinLoop], h, rfl, fun _ _ _ _ => rfl⟩
    have hle := chunk_le va len
    have hchunk := chunk_pos va hpos
    obtain ⟨m₁, e, hcopy, r⟩ := h.ready_copyPage segs pages hd (by omega : va < VA_MAX)
      (hacc va (Nat.le_refl _) (by omega)) (hmem.first hpos)
    have hacc₁ : ∀ a, va + chunk va len ≤ a → a < va + chunk va len + (len - chunk va len) →
        Accessible (segs d) m₁ d a := fun a hlo hhi => r.accessible hd hrange hacc (fun _ => rfl) hlo hhi
    have hmem₁ : Enough m₁ d (va + chunk va len) (len - chunk va len) :=
      r.enough hd hrange hpos hmem (fun _ => rfl) rfl
    obtain ⟨rest, m', hrun, hinv, hbytes, hsame⟩ := ih r.inv (by omega) hacc₁ hmem₁ (by omega)
    refine ⟨Exaros.loadBytes m₁ (pte2Ppn e <<< PAGE_SHIFT + vaOffset va) (chunk va len) ++ rest, m', ?_, hinv, ?_, fun d' hd' a ha => (hsame d' hd' a ha).trans (r.byte d' hd' a ha)⟩
    · rw [copyinLoop_turn r hpos hrange hcopy, hrun]
      rfl
    · have hrest : (List.range (len - chunk va len)).map (fun i => spaceByte segs pages m₁ d (va + chunk va len + i)) =
          (List.range (len - chunk va len)).map fun i => spaceByte segs pages m d (va + (chunk va len + i)) := by
        refine List.map_congr_left fun i hi => ?_
        have hi := List.mem_range.mp hi
        rw [Nat.add_assoc, r.byte d hd _ (by omega)]
      obtain ⟨n, hn⟩ : ∃ n, len = chunk va len + n := ⟨len - chunk va len, by omega⟩
      rw [List.map_append, r.loadBytes hd hrange, hbytes, hrest]
      generalize chunk va len = k at *
      subst hn
      rw [Nat.add_sub_cancel_left, List.range_add, List.map_append, List.map_map]
      rfl

end Copyin

/-! ## `copyout` -/

section Copyout

variable {img : Image} {dirs : Finset Ppn} {segs : Ppn → List SegmentMap} {pages : Ppn → Nat → Idx → BitVec 64}
  {m m₁ m₂ : Mem} {d d' : Ppn} {va len a lo n fuel : Nat} {e : Pte} {src : List UInt8}

theorem Hit.mono {lo' n' : Nat} (h : Hit m d lo n d' a) (hlo : lo' ≤ lo) (hhi : lo + n ≤ lo' + n') : Hit m d lo' n' d' a := by
  obtain ⟨b, hb, hlt, hrest⟩ := h
  exact ⟨b, by omega, by omega, hrest⟩

/-- Pages after a turn hit nothing that they did not hit before it. -/
theorem Ready.hit (r : Ready img dirs segs pages d va e m m₁) (hd : d ∈ dirs) (hd' : d' ∈ dirs) (hrange : va + len ≤ VA_MAX)
    (hview : ∀ d' ∈ dirs, ∀ v, view m₂ d' v = view m₁ d' v) (hlo : va + chunk va len ≤ lo) (hhi : lo + n ≤ va + len)
    (hit : Hit m₂ d lo n d' a) : Hit m d lo n d' a := by
  obtain ⟨b, hb, hlt, e₁, e₂, hv₁, hp₁, hv₂, hu₂, hsame, hoff⟩ := hit
  obtain ⟨hne, hrest⟩ := r.view_rest hd hrange (by omega : va + chunk va len ≤ b) (by omega)
  rw [hview d hd] at hv₁
  rw [hview d' hd'] at hv₂
  refine ⟨b, hb, hlt, e₁, e₂, hrest ▸ hv₁, hp₁, ?_, hu₂, hsame, hoff⟩
  by_cases heq : d' = d ∧ vpn a = vpn va
  · rcases r.own with hm | ⟨hown, -⟩
    · rwa [hm] at hv₂
    · obtain ⟨rfl, hpage⟩ := heq
      rw [hpage, r.self] at hv₂
      cases hv₂
      exact absurd hsame.symm (hown d' hd' (vpn b) e₁ (fun hc => hne hc.2) hv₁)
  · rwa [← r.off d' hd' _ heq]

/-- What one turn stores, in the page made ready. -/
def stored (m₁ : Mem) (e : Pte) (va : Nat) (src : List UInt8) : Mem :=
  storeBytes (pte2Ppn e <<< PAGE_SHIFT + vaOffset va) (src.take (chunk va src.length)) m₁

theorem length_take_chunk (va : Nat) (src : List UInt8) :
    (src.take (chunk va src.length)).length = chunk va src.length := by
  rw [List.length_take]
  exact Nat.min_eq_left (chunk_le ..)

/-- One turn of `copyout`. -/
theorem copyoutLoop_turn (r : Ready img dirs segs pages d va e m m₁) (hpos : 0 < src.length)
    (hrange : va + src.length ≤ VA_MAX) (hcopy : copyPage (segs d) (pages d (alignDown va)) d va m = .ok m₁) :
    copyoutLoop (segs d) (pages d) d (fuel + 1) va src m =
      copyoutLoop (segs d) (pages d) d fuel (va + chunk va src.length) (src.drop (chunk va src.length))
        (stored m₁ e va src) := by
  have hle := chunk_le va src.length
  have hva2PA := va2PA_of_view (by omega) r.self r.user
  cases src with
  | nil => cases hpos
  | cons ch src =>
    rw [copyoutLoop, hcopy, Loop.ok_bind, hva2PA]
    dsimp only
    rw [chunk_of_ready, u64_of_le_max (by omega)]
    rfl

/-- The pages stored to are no tables. -/
theorem Ready.stored (r : Ready img dirs segs pages d va e m m₁) (hd : d ∈ dirs) (src : List UInt8) :
    MemInv img (Exaros.stored m₁ e va src) dirs ∧ ∀ d' ∈ dirs, ∀ v, view (Exaros.stored m₁ e va src) d' v = view m₁ d' v := by
  have hoff : vaOffset va < PAGE_SIZE := Nat.mod_lt _ (by decide)
  have hnt : ¬ IsTable m₁ dirs ((pte2Ppn e <<< PAGE_SHIFT + vaOffset va) / PAGE_SIZE) := by
    rw [page_add_div hoff]
    exact (r.inv.leaf d hd _ e r.self).2.1
  have hfit : (pte2Ppn e <<< PAGE_SHIFT + vaOffset va) % PAGE_SIZE + (src.take (chunk va src.length)).length ≤ PAGE_SIZE := by
    rw [page_add_mod hoff, length_take_chunk]
    exact vaOffset_chunk ..
  have hkept : Kept img dirs m₁ (Exaros.stored m₁ e va src) := kept_storeBytes hnt hfit
  exact ⟨hkept.inv r.inv, fun d' hd' v => view_storeBytes hnt hfit hd' v⟩

/-- The bytes moved arrive. -/
theorem Ready.stored_at (r : Ready img dirs segs pages d va e m m₁) (hd : d ∈ dirs) {i : Nat} (hi : i < chunk va src.length)
    (hlt : i < src.length) : spaceByte segs pages (Exaros.stored m₁ e va src) d (va + i) = some src[i] := by
  have hview := (r.stored hd src).2 d hd (vpn (va + i))
  rw [vpn_congr (chunk_page hi), r.self] at hview
  have hlen : i < (src.take (chunk va src.length)).length := by rwa [length_take_chunk]
  have hat : spaceByte segs pages (Exaros.stored m₁ e va src) d (va + i) = some (src.take (chunk va src.length))[i] :=
    spaceByte_storeBytes_at hlen ((vpn_congr (chunk_page hi)).symm ▸ hview) r.user rfl (vaOffset_add hi)
  exact hat.trans (congrArg some List.getElem_take)

/-- They show where the byte of physical memory does. -/
theorem Ready.stored_off (r : Ready img dirs segs pages d va e m m₁) (hd : d ∈ dirs) (hd' : d' ∈ dirs)
    (hva : va < VA_MAX) (ha : a < VA_MAX) (hout : ¬ (d' = d ∧ va ≤ a ∧ a < va + chunk va src.length))
    (hhit : ¬ Hit m d va (chunk va src.length) d' a) :
    spaceByte segs pages (Exaros.stored m₁ e va src) d' a = spaceByte segs pages m d' a := by
  rw [← r.byte d' hd' a ha]
  refine spaceByte_storeBytes_off ?_ ((r.stored hd src).2 d' hd' _) fun e' hv' hu' hp hin => ?_
  · rw [length_take_chunk]
    exact vaOffset_chunk ..
  rw [length_take_chunk] at hin
  by_cases heq : d' = d ∧ vpn a = vpn va
  · exact hout ⟨heq.1, eq_of_chunk ((vpn_eq_iff ha hva).mp heq.2) hin.1 hin.2⟩
  · rcases r.own with hm | ⟨hown, -⟩
    · subst hm
      obtain ⟨i, hi⟩ : ∃ i, vaOffset a = vaOffset va + i := ⟨vaOffset a - vaOffset va, by omega⟩
      have hi' : i < chunk va src.length := by omega
      refine hhit ⟨va + i, by omega, by omega, e, e', ?_, r.plain, hv', hu', hp, ?_⟩
      · rw [vpn_congr (chunk_page hi'), r.self]
      · rw [hi, vaOffset_add hi']
    · exact hown d' hd' _ e' heq hv' hp

variable (segs pages) in
/-- **`copyout`** stores the bytes, unless a later page of the range is the same page of memory, and shows only where
such a page is mapped. -/
theorem MemInv.copyoutLoop (h : MemInv img m dirs) (hd : d ∈ dirs) (hrange : va + src.length ≤ VA_MAX)
    (hacc : ∀ a, va ≤ a → a < va + src.length → Accessible (segs d) m d a) (hmem : Enough m d va src.length)
    (hfuel : src.length ≤ fuel) :
    ∃ m', Exaros.copyoutLoop (segs d) (pages d) d fuel va src m = .ok m' ∧ MemInv img m' dirs ∧
      (∀ a, va ≤ a → a < va + src.length →
        ∃ e, view m' d (vpn a) = some e ∧ pteHas e PTE_USER_BIT = true ∧ pteHas e PTE_COW_BIT = false) ∧
      (∀ i < src.length, ¬ Hit m d (va + (i + 1)) (src.length - (i + 1)) d (va + i) →
        spaceByte segs pages m' d (va + i) = src[i]?) ∧
      (∀ d' ∈ dirs, ∀ v, (∀ a, va ≤ a → a < va + src.length → ¬ (d' = d ∧ v = vpn a)) → view m' d' v = view m d' v) ∧
      ∀ d' ∈ dirs, ∀ a < VA_MAX, ¬ (d' = d ∧ va ≤ a ∧ a < va + src.length) → ¬ Hit m d va src.length d' a →
        spaceByte segs pages m' d' a = spaceByte segs pages m d' a := by
  induction fuel generalizing va src m with
  | zero =>
    obtain rfl : src = [] := List.eq_nil_of_length_eq_zero (by omega)
    refine ⟨m, by rw [Exaros.copyoutLoop], h, fun a hlo hhi => ?_, fun i hi => (by cases hi), fun _ _ _ _ => rfl,
      fun _ _ _ _ _ _ => rfl⟩
    rw [List.length_nil] at hhi
    omega
  | succ fuel ih =>
    rcases Nat.eq_zero_or_pos src.length with hnil | hpos
    · obtain rfl := List.eq_nil_of_length_eq_zero hnil
      refine ⟨m, by rw [Exaros.copyoutLoop], h, fun a hlo hhi => ?_, fun i hi => (by cases hi), fun _ _ _ _ => rfl,
        fun _ _ _ _ _ _ => rfl⟩
      rw [List.length_nil] at hhi
      omega
    have hle := chunk_le va src.length
    have hchunk := chunk_pos va hpos
    obtain ⟨m₁, e, hcopy, r⟩ := h.ready_copyPage segs pages hd (by omega : va < VA_MAX)
      (hacc va (Nat.le_refl _) (by omega)) (hmem.first hpos)
    obtain ⟨hinv₂, hview₂⟩ := r.stored hd src
    have hlen : (src.drop (chunk va src.length)).length = src.length - chunk va src.length := List.length_drop
    have hacc₂ : ∀ a, va + chunk va src.length ≤ a →
        a < va + chunk va src.length + (src.drop (chunk va src.length)).length →
        Accessible (segs d) (stored m₁ e va src) d a := fun a hlo hhi =>
      r.accessible hd hrange hacc (hview₂ d hd) hlo (hlen ▸ hhi)
    have hmem₂ : Enough (stored m₁ e va src) d (va + chunk va src.length) (src.drop (chunk va src.length)).length := by
      rw [hlen]
      exact r.enough hd hrange hpos hmem (hview₂ d hd) (freePageList_storeBytes _ _)
    obtain ⟨m', hrun, hinv, hplain, hset, hviews, hoff⟩ := ih hinv₂ (by omega) hacc₂ hmem₂ (by omega)
    rw [hlen] at hplain hset hviews hoff
    refine ⟨m', (copyoutLoop_turn r hpos hrange hcopy).trans hrun, hinv, fun a hlo hhi => ?_, fun i hi hhit => ?_,
      fun d' hd' v hv => ?_, fun d' hd' a ha hout hhit => ?_⟩
    · by_cases hrest : va + chunk va src.length ≤ a
      · exact hplain a hrest (by omega)
      · -- the page of this turn is met by none of the later ones
        obtain ⟨i, rfl⟩ : ∃ i, a = va + i := ⟨a - va, by omega⟩
        have hin : i < chunk va src.length := by omega
        have hpage : vpn (va + i) = vpn va := vpn_congr (chunk_page hin)
        refine ⟨e, ?_, r.user, r.plain⟩
        rw [hpage, hviews d hd, hview₂ d hd, r.self]
        intro b hb hlt hc
        exact (r.view_rest hd hrange hb (by omega)).1 hc.2.symm
    · by_cases hrest : chunk va src.length ≤ i
      · have hi₂ : i - chunk va src.length < src.length - chunk va src.length := by omega
        have hidx : va + chunk va src.length + (i - chunk va src.length) = va + i := by omega
        have hset₂ := hset (i - chunk va src.length) hi₂
        rw [hidx, List.getElem?_drop, Nat.add_sub_cancel' hrest] at hset₂
        refine hset₂ fun hh => hhit ?_
        exact (r.hit hd hd hrange hview₂ (by omega) (by omega) hh).mono (by omega) (by omega)
      · rw [hoff d hd (va + i) (by omega) (fun hc => by omega) fun hh => hhit ?_]
        · rw [List.getElem?_eq_getElem hi]
          exact r.stored_at hd (by omega) hi
        · exact (r.hit hd hd hrange hview₂ (Nat.le_refl _) (by omega) hh).mono (by omega) (by omega)
    · rw [hviews d' hd' v fun a hlo hhi => hv a (by omega) (by omega), hview₂ d' hd', r.off d' hd']
      exact hv va (Nat.le_refl _) (by omega)
    · rw [hoff d' hd' a ha (fun hc => hout ⟨hc.1, by omega, by omega⟩) fun hh => hhit ?_]
      · refine r.stored_off hd hd' (by omega) ha (fun hc => hout ⟨hc.1, hc.2.1, by omega⟩) fun hh => hhit ?_
        exact hh.mono (Nat.le_refl _) (by omega)
      · exact (r.hit hd hd' hrange hview₂ (Nat.le_refl _) (by omega) hh).mono (by omega) (by omega)

end Copyout

/-! ## Isolation -/

/-- A page above the kernel image that a user entry maps writable, and not as shared memory, is mapped by no other
user entry. -/
def Isolated (img : Image) (dirs : Finset Ppn) (m : Mem) : Prop :=
  ∀ d ∈ dirs, ∀ v e, view m d v = some e → pteHas e PTE_USER_BIT = true → pteHas e PTE_WRITE_BIT = true →
    pteHas e PTE_SHM_BIT = false → img.Above (pte2Ppn e) →
    ∀ d' ∈ dirs, ∀ v' e', view m d' v' = some e' → pteHas e' PTE_USER_BIT = true → pte2Ppn e' = pte2Ppn e → d' = d ∧ v' = v

/-- The page of `va` is mapped user-writable, mapped copy-on-write, or absent and brought in on demand. -/
def WritableAt (segs : List SegmentMap) (m : Mem) (d : Ppn) (va : Nat) : Prop :=
  (∃ e, view m d (vpn va) = some e ∧ pteHas e PTE_USER_BIT = true ∧
    (pteHas e PTE_WRITE_BIT = true ∨ pteHas e PTE_COW_BIT = true)) ∨
  (view m d (vpn va) = none ∧ Lazy segs va)

/-- What a range maps and is no copy-on-write page is above the kernel image, and no two pages of the range map one
page of shared memory. -/
structure Separate (img : Image) (m : Mem) (d : Ppn) (va len : Nat) : Prop where
  above : ∀ a, va ≤ a → a < va + len → ∀ e, view m d (vpn a) = some e → pteHas e PTE_COW_BIT = false → img.Above (pte2Ppn e)
  shm : ∀ a b, va ≤ a → a < va + len → va ≤ b → b < va + len → ∀ e e', view m d (vpn a) = some e →
    view m d (vpn b) = some e' → pteHas e PTE_SHM_BIT = true → pte2Ppn e' = pte2Ppn e → vpn b = vpn a

/-- The byte that `d'` has at `a` is one of shared memory that the range maps. -/
def SharedAt (m : Mem) (d : Ppn) (va len : Nat) (d' : Ppn) (a : Nat) : Prop :=
  ∃ b, va ≤ b ∧ b < va + len ∧ ∃ e e', view m d (vpn b) = some e ∧ pteHas e PTE_SHM_BIT = true ∧
    view m d' (vpn a) = some e' ∧ pte2Ppn e' = pte2Ppn e ∧ vaOffset a = vaOffset b

section Isolation

variable {img : Image} {dirs : Finset Ppn} {segs : Ppn → List SegmentMap} {pages : Ppn → Nat → Idx → BitVec 64}
  {m m' : Mem} {d d' : Ppn} {va len a : Nat} {e : Pte} {src : List UInt8}

theorem WritableAt.accessible {segs : List SegmentMap} (h : WritableAt segs m d va) : Accessible segs m d va := by
  rcases h with ⟨e, hv, hu, -⟩ | hlazy
  · exact .inl ⟨e, hv, hu⟩
  · exact .inr hlazy

theorem eq_of_vpn {b : Nat} (ha : a < VA_MAX) (hb : b < VA_MAX) (hpage : vpn a = vpn b) (hoff : vaOffset a = vaOffset b) :
    a = b := by
  have hdiv := (vpn_eq_iff ha hb).mp hpage
  unfold vaOffset PAGE_SIZE at *
  omega

/-- Under isolation a store lands elsewhere through shared memory only. -/
theorem Isolated.sharedAt_of_hit (iso : Isolated img dirs m) (hd : d ∈ dirs) (hd' : d' ∈ dirs) (hrange : va + len ≤ VA_MAX)
    (hpages : ∀ a, va ≤ a → a < va + len → WritableAt (segs d) m d a)
    (habove : ∀ a, va ≤ a → a < va + len → ∀ e, view m d (vpn a) = some e → pteHas e PTE_COW_BIT = false →
      img.Above (pte2Ppn e)) (ha : a < VA_MAX) (hit : Hit m d va len d' a) :
    SharedAt m d va len d' a ∨ (d' = d ∧ va ≤ a ∧ a < va + len) := by
  obtain ⟨b, hb, hlt, e, e', hv, hp, hv', hu', hsame, hoff⟩ := hit
  cases hshm : pteHas e PTE_SHM_BIT with
  | true => exact .inl ⟨b, hb, hlt, e, e', hv, hshm, hv', hsame, hoff⟩
  | false =>
    obtain ⟨hu, hw⟩ : pteHas e PTE_USER_BIT = true ∧ pteHas e PTE_WRITE_BIT = true := by
      rcases hpages b hb hlt with ⟨e₁, hv₁, hu, hw⟩ | ⟨hnone, -⟩
      · obtain rfl := Option.some.inj (hv.symm.trans hv₁)
        rw [hp] at hw
        exact ⟨hu, hw.resolve_right nofun⟩
      · rw [hv] at hnone
        cases hnone
    obtain ⟨rfl, hpage⟩ := iso d hd _ e hv hu hw hshm (habove b hb hlt e hv hp) d' hd' _ e' hv' hu' hsame
    obtain rfl := eq_of_vpn ha (by omega) hpage hoff
    exact .inr ⟨rfl, hb, hlt⟩

variable (segs pages) in
/-- With memory for the pages a range of writable, copy-on-write and lazily loaded pages needs, `copyin` delivers the
bytes of the process and changes no one's. `copyout` returns, and if the pages are separate the range has the bytes
given, no other byte of any process has changed but in shared memory that the range maps, and `copyin` brings the same
bytes back. -/
theorem copyout_copyin (h : MemInv img m dirs) (iso : Isolated img dirs m) (hd : d ∈ dirs)
    (hrange : va + src.length ≤ VA_MAX) (hpages : ∀ a, va ≤ a → a < va + src.length → WritableAt (segs d) m d a)
    (hmem : 3 * pagesMet va src.length ≤ m.freePageList.length) :
    (∃ bytes m', copyin (segs d) (pages d) d va src.length m = .ok (bytes, m') ∧
      bytes.map some = (List.range src.length).map (fun i => spaceByte segs pages m d (va + i)) ∧
      ∀ d' ∈ dirs, ∀ a < VA_MAX, spaceByte segs pages m' d' a = spaceByte segs pages m d' a) ∧
    ∃ m', copyout (segs d) (pages d) d va src m = .ok m' ∧
      (Separate img m d va src.length →
        (∀ i < src.length, spaceByte segs pages m' d (va + i) = src[i]?) ∧
        (∀ d' ∈ dirs, ∀ a < VA_MAX, ¬ (d' = d ∧ va ≤ a ∧ a < va + src.length) →
          ¬ SharedAt m d va src.length d' a → spaceByte segs pages m' d' a = spaceByte segs pages m d' a) ∧
        ∃ m'', copyin (segs d) (pages d) d va src.length m' = .ok (src, m'')) := by
  have hacc : ∀ a, va ≤ a → a < va + src.length → Accessible (segs d) m d a := fun a hlo hhi =>
    (hpages a hlo hhi).accessible
  have henough : Enough m d va src.length := .inr hmem
  constructor
  · obtain ⟨bytes, m', hrun, -, hbytes, hsame⟩ := h.copyinLoop segs pages hd hrange hacc henough (Nat.le_refl _)
    exact ⟨bytes, m', hrun, hbytes, hsame⟩
  · obtain ⟨m', hrun, hinv, hplain, hset, -, hoff⟩ := h.copyoutLoop segs pages hd hrange hacc henough (Nat.le_refl _)
    refine ⟨m', hrun, fun hsep => ?_⟩
    have hbytes : ∀ i < src.length, spaceByte segs pages m' d (va + i) = src[i]? := fun i hi => by
      refine hset i hi fun hit => ?_
      have hpages' : ∀ a, va + (i + 1) ≤ a → a < va + (i + 1) + (src.length - (i + 1)) → WritableAt (segs d) m d a :=
        fun a hlo hhi => hpages a (by omega) (by omega)
      rcases iso.sharedAt_of_hit hd hd (by omega) hpages' (fun a hlo hhi => hsep.above a (by omega) (by omega)) (by omega)
        hit with ⟨b, hb, hlt, e, e', hv, hshm, hv', hsame, heq⟩ | ⟨-, hlo, -⟩
      · have hpage := hsep.shm b (va + i) (by omega) (by omega) (by omega) (by omega) e e' hv hv' hshm hsame
        have := eq_of_vpn (by omega) (by omega) hpage heq
        omega
      · omega
    refine ⟨hbytes, fun d' hd' a ha hout hshared => hoff d' hd' a ha hout fun hit => ?_, ?_⟩
    · exact (iso.sharedAt_of_hit hd hd' hrange hpages hsep.above ha hit).elim hshared hout
    · have hacc' : ∀ a, va ≤ a → a < va + src.length → Accessible (segs d) m' d a := fun a hlo hhi => by
        obtain ⟨e, hv, hu, -⟩ := hplain a hlo hhi
        exact .inl ⟨e, hv, hu⟩
      have henough' : Enough m' d va src.length := .inl fun a hlo hhi => by
        obtain ⟨e, hv, -, hp⟩ := hplain a hlo hhi
        exact ⟨e, hv, hp⟩
      obtain ⟨bytes, m'', hrun', -, hread, -⟩ := hinv.copyinLoop segs pages hd hrange hacc' henough' (Nat.le_refl _)
      have hsrc : src.map some = (List.range src.length).map fun i => spaceByte segs pages m' d (va + i) := by
        refine List.ext_getElem (by rw [List.length_map, List.length_map, List.length_range]) fun i hi _ => ?_
        rw [List.length_map] at hi
        rw [List.getElem_map, List.getElem_map, List.getElem_range, hbytes i hi, List.getElem?_eq_getElem hi]
      obtain rfl := List.map_injective_iff.mpr (Option.some_injective _) (hread.trans hsrc.symm)
      exact ⟨m'', hrun'⟩

variable (segs pages) in
/-- A byte stored through one entry shows through every other entry of the page. -/
theorem MemInv.copyout_alias (h : MemInv img m dirs) (hd : d ∈ dirs) (hd' : d' ∈ dirs) (hva : va < VA_MAX)
    (hv : view m d (vpn va) = some e) (he : LazyEntry e) (hv' : view m d' (vpn a) = some e) (hoff : vaOffset a = vaOffset va)
    (hne : ¬ (d' = d ∧ vpn a = vpn va)) :
    ∃ ch m', copyout (segs d) (pages d) d va [ch] m = .ok m' ∧
      spaceByte segs pages m' d' a ≠ spaceByte segs pages m d' a := by
  obtain ⟨ch, hch⟩ : ∃ ch, ch ≠ loadByte m (pte2Ppn e <<< PAGE_SHIFT + vaOffset va) := by
    by_cases hzero : loadByte m (pte2Ppn e <<< PAGE_SHIFT + vaOffset va) = 0
    · exact ⟨1, fun heq => absurd (heq.trans hzero) (by decide)⟩
    · exact ⟨0, fun heq => hzero heq.symm⟩
  have hrange : va + [ch].length ≤ VA_MAX := hva
  have hone : ∀ b, va ≤ b → b < va + [ch].length → b = va := fun b hlo hhi => by
    rw [List.length_singleton] at hhi
    omega
  have hu := he.readable.1
  have hacc : ∀ b, va ≤ b → b < va + [ch].length → Accessible (segs d) m d b := fun b hlo hhi => by
    rw [hone b hlo hhi]
    exact .inl ⟨e, hv, hu⟩
  have henough : Enough m d va [ch].length := .inl fun b hlo hhi => by
    rw [hone b hlo hhi]
    exact ⟨e, hv, he.cow⟩
  obtain ⟨m', hrun, -, -, hset, hviews, -⟩ := h.copyoutLoop segs pages hd hrange hacc henough (Nat.le_refl _)
  have hfit : va % PAGE_SIZE + [ch].length ≤ PAGE_SIZE := Nat.mod_lt _ (by decide)
  obtain ⟨m'', hrun', hkeep⟩ := h.copyout_mapped (segs d) (pages d) hd hva hv hu he.cow hfit
  obtain rfl : m' = m'' := Except.ok.inj (hrun.symm.trans hrun')
  have hset₀ := hset 0 Nat.zero_lt_one fun hit => by
    obtain ⟨b, hlo, hhi, -⟩ := hit
    rw [List.length_singleton] at hhi
    omega
  rw [Nat.add_zero, spaceByte_eq_load ((hkeep _).trans hv) hu] at hset₀
  have hview' : view m' d' (vpn a) = some e := by
    rw [hviews d' hd' (vpn a) fun b hlo hhi hc => hne ?_, hv']
    rwa [hone b hlo hhi] at hc
  refine ⟨ch, m', hrun, ?_⟩
  rw [spaceByte_eq_load hview' hu, spaceByte_eq_load hv' hu, hoff, hset₀]
  exact fun hc => hch (Option.some.inj hc)

end Isolation

/-! ## Processes -/

/-- Two bytes across a page boundary of a stack that is not there yet. -/
theorem copyout_copyin_stack : ∃ dirs d m m', MemInv Image.sample m dirs ∧ (∀ v, view m d v = none) ∧
    copyout [] (fun _ _ => 0) d (USER_STACK_TOP - PAGE_SIZE - 1) [1, 2] m = .ok m' ∧
    spaceByte (fun _ => []) (fun _ _ _ => 0) m' d (USER_STACK_TOP - PAGE_SIZE - 1 + 1) = some 2 ∧
    ∃ m'', copyin [] (fun _ _ => 0) d (USER_STACK_TOP - PAGE_SIZE - 1) 2 m' = .ok ([1, 2], m'') := by
  obtain ⟨dirs, d, -, m, h, hd, -, -, hlen, hempty⟩ := exists_emptyProcesses
  have hno : ∀ {x v e} {P : Prop}, x ∈ dirs → view m x v = some e → P := fun hx hv => by
    rw [hempty _ hx] at hv
    cases hv
  have iso : Isolated Image.sample dirs m := fun x hx v e hv => hno hx hv
  have hbottom : USER_STACK_BOTTOM ≤ USER_STACK_TOP - PAGE_SIZE - 1 := by decide
  have htop : USER_STACK_TOP - PAGE_SIZE - 1 + 2 ≤ USER_STACK_TOP := by decide
  have hpages : ∀ a, USER_STACK_TOP - PAGE_SIZE - 1 ≤ a → a < USER_STACK_TOP - PAGE_SIZE - 1 + ([1, 2] : List UInt8).length →
      WritableAt [] m d a := fun a hlo hhi => .inr ⟨hempty d hd _, .inl ⟨by omega, Nat.lt_of_lt_of_le hhi htop⟩⟩
  have hmet : pagesMet (USER_STACK_TOP - PAGE_SIZE - 1) 2 = 2 := by decide
  have hmem : 3 * pagesMet (USER_STACK_TOP - PAGE_SIZE - 1) ([1, 2] : List UInt8).length ≤ m.freePageList.length := by
    show 3 * pagesMet (USER_STACK_TOP - PAGE_SIZE - 1) 2 ≤ _
    rw [hmet]
    omega
  obtain ⟨-, m', hrun, hout⟩ := copyout_copyin (fun _ => []) (fun _ _ _ => 0) h iso hd (by decide) hpages hmem
  obtain ⟨hset, -, m'', hin⟩ := hout ⟨fun a _ _ e hv => hno hd hv, fun a _ _ _ _ _ e _ hv => hno hd hv⟩
  exact ⟨dirs, d, m, m', h, hempty d hd, hrun, hset 1 (by decide), m'', hin⟩

theorem pteHas_shm {y : Ppn} {perm : Pte} : pteHas (touchPte y perm) PTE_SHM_BIT = perm.getLsbD 9 :=
  pteHas_touchPte y perm (by omega) (by omega) (by omega) (by omega)

/-- Two new processes, as `setupProcess` leaves them: both map the signal trampoline of the kernel writable. -/
theorem exists_imageMapped : ∃ dirs d d' m e, MemInv Image.sample m dirs ∧ d ∈ dirs ∧ d' ∈ dirs ∧ d' ≠ d ∧
    3 ≤ m.freePageList.length ∧ view m d (vpn SIGNAL_TRAMPOLINE) = some e ∧ view m d' (vpn SIGNAL_TRAMPOLINE) = some e ∧
    LazyEntry e ∧ pteHas e PTE_SHM_BIT = false ∧ Isolated Image.sample dirs m := by
  obtain ⟨dirs, d, d', m₀, h₀, hd, hd', hne, hlen, hempty⟩ := exists_emptyProcesses
  have hperm : PermOk (PTE_READ_BIT ||| PTE_WRITE_BIT ||| PTE_EXECUTE_BIT ||| PTE_USER_BIT) := by decide
  have hnone : ∀ x ∈ dirs, ∀ v, target m₀ (x, v) = none := fun x hx v => by rw [target, hempty x hx v, Option.map_none]
  have hus₀ := h₀.usable_kernel Image.sample.signalTrampoline_mem Image.sample.pgdir_ne.2.2
  rcases h₀.pageMap hd SIGNAL_TRAMPOLINE hus₀ hperm (fun ht => by rw [hnone d hd] at ht; cases ht) with
    ⟨m₁, -, r₁, hl₁⟩ | ⟨m₁, -, -, -, hlt⟩
  swap
  · omega
  have hus₁ := r₁.inv.usable_kernel Image.sample.signalTrampoline_mem Image.sample.pgdir_ne.2.2
  have hnone₁ : target m₁ (d', vpn SIGNAL_TRAMPOLINE) = none := by
    rw [target, r₁.view d' hd', if_neg fun hc => hne hc.1, hempty d' hd', Option.map_none]
  rcases r₁.inv.pageMap hd' SIGNAL_TRAMPOLINE hus₁ hperm (fun ht => by rw [hnone₁] at ht; cases ht) with
    ⟨m₂, -, r₂, hl₂⟩ | ⟨m₂, -, -, -, hlt⟩
  swap
  · omega
  refine ⟨dirs, d, d', m₂, _, r₂.inv, hd, hd', hne, by omega, ?_, r₂.view_self hd', ?_, pteHas_shm.trans (by decide), ?_⟩
  · rw [r₂.view d hd, if_neg fun hc => hne hc.1.symm, r₁.view_self hd]
  · exact lazyEntry_of_bits _ (by decide) (by decide) (by decide) (by decide)
  · intro x hx v e hv _ _ _ habove
    refine absurd habove (Image.not_above_of_kernel ?_)
    have heq : e = touchPte Image.sample.signalTrampoline
        (PTE_READ_BIT ||| PTE_WRITE_BIT ||| PTE_EXECUTE_BIT ||| PTE_USER_BIT) := by
      rw [r₂.view x hx, r₁.view x hx, hempty x hx] at hv
      split at hv
      · exact (Option.some.inj hv).symm
      · split at hv
        · exact (Option.some.inj hv).symm
        · cases hv
    rw [heq, pte2Ppn_touchPte hus₀.1 hperm]
    exact Image.sample.signalTrampoline_mem

/-- A page that was free, mapped at two places of processes that have nothing else. -/
theorem MemInv.map_twice {img : Image} {dirs : Finset Ppn} {m₀ : Mem} {d d' : Ppn} {va va' : Nat} {perm : Pte}
    (h₀ : MemInv img m₀ dirs) (hempty : ∀ x ∈ dirs, ∀ v, view m₀ x v = none) (hlen : 100 ≤ m₀.freePageList.length)
    (hd : d ∈ dirs) (hd' : d' ∈ dirs) (hne : ¬ (d' = d ∧ vpn va' = vpn va)) (hperm : PermOk perm) :
    ∃ m y, MemInv img m dirs ∧ 3 ≤ m.freePageList.length ∧ view m d (vpn va) = some (touchPte y perm) ∧
      view m d' (vpn va') = some (touchPte y perm) ∧
      ∀ x ∈ dirs, ∀ v e, view m x v = some e → e = touchPte y perm := by
  obtain ⟨y, rest, hf⟩ := List.exists_cons_of_length_pos (Nat.lt_of_lt_of_le (by decide : 0 < 100) hlen)
  rcases h₀.insertFresh hd va (pageAlloc_cons hf) (fun _ => 0) hperm with ⟨m₁, -, f, hl₁⟩ | ⟨m₁, -, -, -, hlt⟩
  swap
  · omega
  have hinv₁ := f.change.inv
  have hself := f.change.view_self hd
  have hman : Managed y := (h₀.free y (hf ▸ List.mem_cons_self)).1.managed
  have hppn := pte2Ppn_touchPte hman hperm
  have hus : Usable m₁ dirs y := by
    refine ⟨hman, fun hfree => ?_, fun ht => ?_⟩
    · exact hinv₁.not_free_of_view hd hself (hppn.symm ▸ hfree)
    · exact (hinv₁.leaf d hd _ _ hself).2.1 (hppn.symm ▸ ht)
  have hnone : target m₁ (d', vpn va') = none := by
    rw [target, f.change.view_off hd' hne, hempty d' hd', Option.map_none]
  rcases hinv₁.pageMap hd' va' hus hperm (fun ht => by rw [hnone] at ht; cases ht) with
    ⟨m₂, -, r₂, hl₂⟩ | ⟨m₂, -, -, -, hlt⟩
  swap
  · omega
  refine ⟨m₂, y, r₂.inv, by omega, ?_, r₂.view_self hd', fun x hx v e hv => ?_⟩
  · rw [r₂.view d hd, if_neg fun hc => hne ⟨hc.1.symm, hc.2.symm⟩, hself]
  · rw [r₂.view x hx, f.change.view x hx, hempty x hx] at hv
    split at hv
    · exact (Option.some.inj hv).symm
    · split at hv
      · exact (Option.some.inj hv).symm
      · cases hv

/-- A process that has one page of shared memory twice. -/
theorem exists_sharedTwice : ∃ dirs d m e, MemInv Image.sample m dirs ∧ d ∈ dirs ∧ 3 ≤ m.freePageList.length ∧
    view m d (vpn 0x1000) = some e ∧ view m d (vpn 0x2000) = some e ∧ LazyEntry e ∧ Isolated Image.sample dirs m := by
  obtain ⟨dirs, d, -, m₀, h₀, hd, -, -, hlen, hempty⟩ := exists_emptyProcesses
  have hperm : PermOk (PTE_READ_BIT ||| PTE_WRITE_BIT ||| PTE_EXECUTE_BIT ||| PTE_USER_BIT ||| PTE_SHM_BIT) := by decide
  have hdiff : vpn 0x2000 ≠ vpn 0x1000 := by decide
  obtain ⟨m, y, h, hlen', hv, hv', honly⟩ := h₀.map_twice hempty hlen hd hd (fun hc => hdiff hc.2) hperm
  refine ⟨dirs, d, m, _, h, hd, hlen', hv, hv', ?_, fun x hx v e he _ _ hshm => ?_⟩
  · exact lazyEntry_of_bits _ (by decide) (by decide) (by decide) (by decide)
  · rw [honly x hx v e he, pteHas_shm] at hshm
    exact absurd hshm (by decide)

/-- A process that has mapped a page beyond the last address. -/
theorem exists_beyondMax : ∃ dirs d m e, MemInv Image.sample m dirs ∧ d ∈ dirs ∧ 3 ≤ m.freePageList.length ∧
    view m d (vpn VA_MAX) = some e ∧ LazyEntry e ∧ Isolated Image.sample dirs m := by
  obtain ⟨dirs, d, -, m₀, h₀, hd, -, -, hlen, hempty⟩ := exists_emptyProcesses
  obtain ⟨y, rest, hf⟩ := List.exists_cons_of_length_pos (Nat.lt_of_lt_of_le (by decide : 0 < 100) hlen)
  have hperm : PermOk (PTE_READ_BIT ||| PTE_WRITE_BIT ||| PTE_USER_BIT) := by decide
  rcases h₀.insertFresh hd VA_MAX (pageAlloc_cons hf) (fun _ => 0) hperm with ⟨m₁, -, f, hl₁⟩ | ⟨m₁, -, -, -, hlt⟩
  swap
  · omega
  refine ⟨dirs, d, m₁, _, f.change.inv, hd, by omega, f.change.view_self hd, ?_, ?_⟩
  · exact lazyEntry_of_bits _ (by decide) (by decide) (by decide) (by decide)
  · have hslot : ∀ x ∈ dirs, ∀ v e, view m₁ x v = some e → x = d ∧ v = vpn VA_MAX := fun x hx v e hv => by
      rw [f.change.view x hx, hempty x hx] at hv
      split at hv
      · assumption
      · cases hv
    intro x hx v e hv _ _ _ _ x' hx' v' e' hv' _ _
    obtain ⟨rfl, rfl⟩ := hslot x hx v e hv
    exact hslot x' hx' v' e' hv'

/-- A range of writable pages may lie in the kernel image, which other processes map too; it may be shared memory that
the process maps elsewhere; and `copyout` takes no address from `VA_MAX` on. -/
theorem copyout_not_separate :
    (∃ dirs d d' m ch m', MemInv Image.sample m dirs ∧ Isolated Image.sample dirs m ∧ d ∈ dirs ∧ d' ∈ dirs ∧ d' ≠ d ∧
      3 ≤ m.freePageList.length ∧ WritableAt [] m d SIGNAL_TRAMPOLINE ∧
      (∀ e, view m d' (vpn SIGNAL_TRAMPOLINE) = some e → pteHas e PTE_SHM_BIT = false) ∧
      copyout [] (fun _ _ => 0) d SIGNAL_TRAMPOLINE [ch] m = .ok m' ∧
      spaceByte (fun _ => []) (fun _ _ _ => 0) m' d' SIGNAL_TRAMPOLINE ≠
        spaceByte (fun _ => []) (fun _ _ _ => 0) m d' SIGNAL_TRAMPOLINE) ∧
    (∃ dirs d m ch m', MemInv Image.sample m dirs ∧ Isolated Image.sample dirs m ∧ d ∈ dirs ∧
      3 ≤ m.freePageList.length ∧ WritableAt [] m d 0x1000 ∧ copyout [] (fun _ _ => 0) d 0x1000 [ch] m = .ok m' ∧
      spaceByte (fun _ => []) (fun _ _ _ => 0) m' d 0x2000 ≠ spaceByte (fun _ => []) (fun _ _ _ => 0) m d 0x2000) ∧
    ∃ dirs d m, MemInv Image.sample m dirs ∧ Isolated Image.sample dirs m ∧ d ∈ dirs ∧ 3 ≤ m.freePageList.length ∧
      WritableAt [] m d VA_MAX ∧ copyout [] (fun _ _ => 0) d VA_MAX [1] m = .error .lazySegment := by
  refine ⟨?_, ?_, ?_⟩
  · obtain ⟨dirs, d, d', m, e, h, hd, hd', hne, hlen, hv, hv', he, hshm, iso⟩ := exists_imageMapped
    obtain ⟨ch, m', hrun, hdiff⟩ := h.copyout_alias (fun _ => []) (fun _ _ _ => 0) hd hd' (by decide) hv he
      hv' rfl fun hc => hne hc.1
    refine ⟨dirs, d, d', m, ch, m', h, iso, hd, hd', hne, hlen, .inl ⟨e, hv, he.readable.1, .inl he.write⟩, ?_, hrun, hdiff⟩
    intro e' he'
    obtain rfl := Option.some.inj (hv'.symm.trans he')
    exact hshm
  · obtain ⟨dirs, d, m, e, h, hd, hlen, hv, hv', he, iso⟩ := exists_sharedTwice
    have hdiff : vpn 0x2000 ≠ vpn 0x1000 := by decide
    obtain ⟨ch, m', hrun, hne⟩ := h.copyout_alias (fun _ => []) (fun _ _ _ => 0) hd hd (by decide) hv he
      hv' (by decide) fun hc => hdiff hc.2
    exact ⟨dirs, d, m, ch, m', h, iso, hd, hlen, .inl ⟨e, hv, he.readable.1, .inl he.write⟩, hrun, hne⟩
  · obtain ⟨dirs, d, m, e, h, hd, hlen, hv, he, iso⟩ := exists_beyondMax
    refine ⟨dirs, d, m, h, iso, hd, hlen, .inl ⟨e, hv, he.readable.1, .inl he.write⟩, ?_⟩
    have hnone : va2PA d VA_MAX m = none := if_pos (Nat.le_refl _)
    have hlazy : passiveAlloc [] (fun _ => 0) d VA_MAX m = .error .lazySegment := by
      unfold passiveAlloc
      rw [if_neg (by decide)]
      rfl
    have hpage : copyPage [] (fun _ => 0) d VA_MAX m = .error .lazySegment := by
      unfold copyPage
      rw [hnone, hlazy]
      rfl
    unfold copyout
    rw [List.length_singleton, copyoutLoop, hpage]
    rfl

end Exaros
