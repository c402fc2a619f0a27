import Exaros.Memory.Transfer

/-!
# A region of one's own

The pages of a `Region` are mapped by no other entry, so what `copyout` stores there shows nowhere else, and a later
copy to other addresses leaves it as it is. A copy that returns keeps the region.
-/

namespace Exaros

/-- Each page between `lo` and `hi` is mapped user or brought in on demand, and one that is mapped is mapped by one
entry only. -/
structure Region (img : Image) (dirs : Finset Ppn) (segs : List SegmentMap) (m : Mem) (d : Ppn) (lo hi : Nat) : Prop where
  inv : MemInv img m dirs
  accessible : ∀ a, lo ≤ a → a < hi → Accessible segs m d a
  sole : ∀ a, lo ≤ a → a < hi → ∀ e, view m d (vpn a) = some e →
    ∀ d' ∈ dirs, ∀ v e', view m d' v = some e' → pte2Ppn e' = pte2Ppn e → d' = d ∧ v = vpn a

section Region

variable {img : Image} {dirs : Finset Ppn} {segs : Ppn → List SegmentMap} {pages : Ppn → Nat → Idx → BitVec 64}
  {m m₁ m' : Mem} {d d' : Ppn} {lo hi va len a fuel : Nat} {e : Pte} {src : List UInt8}

/-- The entries are what matters. -/
theorem Region.congr {list : List SegmentMap} (R : Region img dirs list m d lo hi) (hd : d ∈ dirs) (h : MemInv img m' dirs)
    (hview : ∀ d' ∈ dirs, ∀ v, view m' d' v = view m d' v) : Region img dirs list m' d lo hi := by
  refine ⟨h, fun a hlo hhi => ?_, fun a hlo hhi e hv d' hd' v e' hv' hsame => ?_⟩
  · have hacc := R.accessible a hlo hhi
    unfold Accessible at hacc ⊢
    rwa [hview d hd]
  · rw [hview d hd] at hv
    rw [hview d' hd'] at hv'
    exact R.sole a hlo hhi e hv d' hd' v e' hv' hsame

/-- A page made ready is a page of its own, or the one there was. -/
theorem Region.ready (R : Region img dirs (segs d) m d lo hi) (hd : d ∈ dirs)
    (r : Ready img dirs segs pages d va e m m₁) : Region img dirs (segs d) m₁ d lo hi := by
  refine ⟨r.inv, fun a hlo hhi => ?_, fun a hlo hhi e₁ hv d' hd' v e' hv' hsame => ?_⟩
  · by_cases hpage : vpn a = vpn va
    · exact .inl ⟨e, hpage ▸ r.self, r.user⟩
    · have hacc := R.accessible a hlo hhi
      unfold Accessible at hacc ⊢
      rwa [r.off d hd _ fun hc => hpage hc.2]
  · rcases r.own with rfl | ⟨hown, -⟩
    · exact R.sole a hlo hhi e₁ hv d' hd' v e' hv' hsame
    by_cases hpage : vpn a = vpn va
    · obtain rfl := Option.some.inj (r.self.symm.trans (hpage ▸ hv))
      by_contra hne
      exact hown d' hd' v e' (fun hc => hne ⟨hc.1, hc.2.trans hpage.symm⟩) hv' hsame
    · have hne : ¬ (d' = d ∧ v = vpn va) := fun hc => by
        rw [hc.1, hc.2, r.self] at hv'
        obtain rfl := Option.some.inj hv'
        exact hown d hd _ e₁ (fun hc => hpage hc.2) hv hsame.symm
      rw [r.off d hd _ fun hc => hpage hc.2] at hv
      rw [r.off d' hd' _ hne] at hv'
      exact R.sole a hlo hhi e₁ hv d' hd' v e' hv' hsame

/-- So is a page that was free, mapped user anywhere in the directory. -/
theorem Region.filled {list : List SegmentMap} {v : Vpn} {data : Idx → BitVec 64} (R : Region img dirs list m d lo hi)
    (hd : d ∈ dirs) (f : Filled img dirs d v e data m m₁) (hu : pteHas e PTE_USER_BIT = true) :
    Region img dirs list m₁ d lo hi := by
  have hself := f.change.view_self hd
  have hfree : ∀ d' ∈ dirs, ∀ w e', ¬ (d' = d ∧ w = v) → view m₁ d' w = some e' → pte2Ppn e' ≠ pte2Ppn e :=
    fun d' hd' w e' hne hv heq => by
      rw [f.change.view_off hd' hne] at hv
      exact R.inv.not_free_of_view hd' hv (heq ▸ f.mem)
  refine ⟨f.change.inv, fun a hlo hhi => ?_, fun a hlo hhi e₁ hv d' hd' w e' hv' hsame => ?_⟩
  · by_cases hpage : vpn a = v
    · exact .inl ⟨e, hpage ▸ hself, hu⟩
    · have hacc := R.accessible a hlo hhi
      unfold Accessible at hacc ⊢
      rwa [f.change.view_off hd fun hc => hpage hc.2]
  · by_cases hpage : vpn a = v
    · obtain rfl := Option.some.inj (hself.symm.trans (hpage ▸ hv))
      by_contra hne
      exact hfree d' hd' w e' (fun hc => hne ⟨hc.1, hc.2.trans hpage.symm⟩) hv' hsame
    · have hne : ¬ (d' = d ∧ w = v) := fun hc => by
        rw [hc.1, hc.2, hself] at hv'
        obtain rfl := Option.some.inj hv'
        exact hfree d hd _ e₁ (fun hc => hpage hc.2) hv hsame.symm
      rw [f.change.view_off hd fun hc => hpage hc.2] at hv
      rw [f.change.view_off hd' hne] at hv'
      exact R.sole a hlo hhi e₁ hv d' hd' w e' hv' hsame

/-- A stack with nothing on it is a region. -/
theorem Region.of_unmapped (h : MemInv img m dirs) (segs : List SegmentMap)
    (hnone : ∀ a, USER_STACK_BOTTOM ≤ a → a < USER_STACK_TOP → view m d (vpn a) = none) :
    Region img dirs segs m d USER_STACK_BOTTOM USER_STACK_TOP := by
  refine ⟨h, fun a hlo hhi => .inr ⟨hnone a hlo hhi, .inl ⟨hlo, hhi⟩⟩, fun a hlo hhi e hv => ?_⟩
  rw [hnone a hlo hhi] at hv
  cases hv

/-- A store into the region shows nowhere else. -/
theorem Region.not_hit (R : Region img dirs (segs d) m d lo hi) (hd' : d' ∈ dirs) (hmax : hi ≤ VA_MAX) (hlo : lo ≤ va)
    (hhi : va + len ≤ hi) (ha : a < VA_MAX) (hout : ¬ (d' = d ∧ va ≤ a ∧ a < va + len)) : ¬ Hit m d va len d' a := by
  intro hit
  obtain ⟨b, hb, hlt, e, e', hv, -, hv', -, hsame, hoff⟩ := hit
  obtain ⟨rfl, hpage⟩ := R.sole b (by omega) (by omega) e hv d' hd' _ e' hv' hsame
  obtain rfl := eq_of_vpn ha (by omega) hpage hoff
  exact hout ⟨rfl, hb, hlt⟩

/-- What a turn of `copyout` that goes on has done. -/
theorem copyoutLoop_cases (hpos : 0 < src.length) (hok : copyoutLoop (segs d) (pages d) d fuel va src m = .ok m') :
    ∃ n m₁ x, fuel = n + 1 ∧ copyPage (segs d) (pages d (alignDown va)) d va m = .ok m₁ ∧ va2PA d va m₁ = some x := by
  cases src with
  | nil => cases hpos
  | cons ch src =>
    cases fuel with
    | zero =>
      rw [copyoutLoop] at hok
      cases hok
    | succ n =>
      rw [copyoutLoop] at hok
      obtain ⟨m₁, hcopy, hok⟩ := Loop.bind_ok hok
      cases hx : va2PA d va m₁ with
      | none =>
        rw [hx] at hok
        cases hok
      | some x => exact ⟨n, m₁, x, rfl, hcopy, hx⟩

variable (segs pages) in
/-- A copy that returns leaves its bytes in the region, and every other byte of every process as it was. -/
theorem Region.copyoutLoop (R : Region img dirs (segs d) m d lo hi) (hd : d ∈ dirs) (hmax : hi ≤ VA_MAX) (hlo : lo ≤ va)
    (hhi : va + src.length ≤ hi) (hok : Exaros.copyoutLoop (segs d) (pages d) d fuel va src m = .ok m') :
    Region img dirs (segs d) m' d lo hi ∧
      (∀ i < src.length, spaceByte segs pages m' d (va + i) = src[i]?) ∧
      (∀ d' ∈ dirs, ∀ a < VA_MAX, ¬ (d' = d ∧ va ≤ a ∧ a < va + src.length) →
        spaceByte segs pages m' d' a = spaceByte segs pages m d' a) ∧
      m.freePageList.length ≤ m'.freePageList.length + 3 * pagesMet va src.length := by
  induction fuel generalizing va src m with
  | zero =>
    rcases Nat.eq_zero_or_pos src.length with hnil | hpos
    · obtain rfl := List.eq_nil_of_length_eq_zero hnil
      rw [Exaros.copyoutLoop] at hok
      cases hok
      exact ⟨R, fun i hi => (by cases hi), fun _ _ _ _ _ => rfl, Nat.le_add_right ..⟩
    · obtain ⟨n, -, -, hfuel, -⟩ := copyoutLoop_cases hpos hok
      cases hfuel
  | succ fuel ih =>
    rcases Nat.eq_zero_or_pos src.length with hnil | hpos
    · obtain rfl := List.eq_nil_of_length_eq_zero hnil
      rw [Exaros.copyoutLoop] at hok
      cases hok
      exact ⟨R, fun i hi => (by cases hi), fun _ _ _ _ _ => rfl, Nat.le_add_right ..⟩
    obtain ⟨n, m₁, x, -, hcopy, hx⟩ := copyoutLoop_cases hpos hok
    have hle := chunk_le va src.length
    obtain ⟨e, r⟩ := R.inv.ready_of_copyPage segs pages hd (by omega) (R.accessible va hlo (by omega)) hcopy hx
    rw [copyoutLoop_turn r hpos (by omega) hcopy] at hok
    have hlen : (src.drop (chunk va src.length)).length = src.length - chunk va src.length := List.length_drop
    obtain ⟨hinv₂, hview₂⟩ := r.stored hd src
    have R₂ : Region img dirs (segs d) (stored m₁ e va src) d lo hi := (R.ready hd r).congr hd hinv₂ hview₂
    obtain ⟨R', hset, hoff, hfree⟩ := ih R₂ (by omega) (by omega) hok
    rw [hlen] at hset hoff hfree
    refine ⟨R', fun i hi => ?_, fun d' hd' a ha hout => ?_, ?_⟩
    · by_cases hrest : chunk va src.length ≤ i
      · have hset₂ := hset (i - chunk va src.length) (by omega)
        rwa [List.getElem?_drop, Nat.add_sub_cancel' hrest, Nat.add_assoc, Nat.add_sub_cancel' hrest] at hset₂
      · rw [hoff d hd (va + i) (by omega) fun hc => by omega, List.getElem?_eq_getElem hi]
        exact r.stored_at hd (by omega) hi
    · rw [hoff d' hd' a ha fun hc => hout ⟨hc.1, by omega, by omega⟩]
      have hout₁ : ¬ (d' = d ∧ va ≤ a ∧ a < va + chunk va src.length) := fun hc => hout ⟨hc.1, hc.2.1, by omega⟩
      exact r.stored_off hd hd' (by omega) ha hout₁ (R.not_hit hd' hmax hlo (by omega) ha hout₁)
    · rw [pagesMet_chunk hpos]
      have hstored : (stored m₁ e va src).freePageList = m₁.freePageList := freePageList_storeBytes _ _
      rw [hstored] at hfree
      rcases r.own with rfl | ⟨-, hown⟩
      · omega
      · omega

end Region

end Exaros
