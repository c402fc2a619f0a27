import Exaros.Memory.Edits

/-!
# Growing a range of pages

`syscallBrk` and `syscallMapMemory` map fresh pages one after the other until there is no page left, for the page
itself or for a table on the way to it. `needed` counts the pages a list of pages takes, and the loop stops at the
first page that would take more than there are.
-/

namespace Exaros

/-- The free pages it takes to map pages one after the other, given the tables there are. -/
def needed (has : List Idx → Bool) : List Vpn → Nat
  | [] => 0
  | v :: vs => 1 + missing has v + needed (withPath has v) vs

/-- `n` pages from an address on. -/
def pagesFrom (start n : Nat) : List Vpn := (List.range n).map fun k => vpn (start + k * PAGE_SIZE)

/-- Fresh pages have been mapped. -/
structure Grown (img : Image) (dirs : Finset Ppn) (d : Ppn) (perm : Pte) (vs : List Vpn) (m m' : Mem) : Prop where
  inv : MemInv img m' dirs
  on : ∀ v ∈ vs, ∃ y, view m' d v = some (touchPte y perm)
  off : ∀ d' ∈ dirs, ∀ v, ¬ (d' = d ∧ v ∈ vs) → view m' d' v = view m d' v

theorem mmap_top_lt : USER_MMAP_HEAP_TOP < 2 ^ 38 := by decide

section Needed

variable {has has' : List Idx → Bool} {v : Vpn} {vs : List Vpn}

theorem needed_congr (h : ∀ p, p.length ≤ 2 → has p = has' p) : needed has vs = needed has' vs := by
  induction vs generalizing has has' with
  | nil => rfl
  | cons v vs ih =>
    unfold needed
    rw [missing_congr h, ih fun p hp => ?_]
    unfold withPath
    rw [h p hp]

/-- More pages take more. -/
theorem needed_append (has : List Idx → Bool) (vs ws : List Vpn) : needed has vs ≤ needed has (vs ++ ws) := by
  induction vs generalizing has with
  | nil => exact Nat.zero_le _
  | cons v vs ih => exact Nat.add_le_add_left (ih _) _

theorem needed_mono {ws : List Vpn} (h : vs <+: ws) : needed has vs ≤ needed has ws := by
  obtain ⟨rest, rfl⟩ := h
  exact needed_append has vs rest

end Needed

section Pages

variable {start n k : Nat}

theorem pagesFrom_succ (start n : Nat) : pagesFrom start (n + 1) = vpn start :: pagesFrom (start + PAGE_SIZE) n := by
  unfold pagesFrom
  rw [List.range_succ_eq_map, List.map_cons, List.map_map]
  refine congrArg₂ _ (by rw [Nat.zero_mul, Nat.add_zero]) (List.map_congr_left fun j _ => ?_)
  show vpn (start + (j + 1) * PAGE_SIZE) = vpn (start + PAGE_SIZE + j * PAGE_SIZE)
  rw [Nat.succ_mul, Nat.add_assoc, Nat.add_comm PAGE_SIZE]

theorem mem_pagesFrom {v : Vpn} : v ∈ pagesFrom start n ↔ ∃ k < n, vpn (start + k * PAGE_SIZE) = v := by
  unfold pagesFrom
  rw [List.mem_map]
  simp only [List.mem_range]

theorem pagesFrom_mono (h : k ≤ n) (start : Nat) : pagesFrom start k <+: pagesFrom start n := by
  obtain ⟨j, rfl⟩ := Nat.exists_eq_add_of_le h
  unfold pagesFrom
  rw [List.range_add, List.map_append]
  exact List.prefix_append _ _

theorem take_pagesFrom (h : k ≤ n) (start : Nat) : (pagesFrom start n).take k = pagesFrom start k := by
  unfold pagesFrom
  rw [← List.map_take, List.take_range, Nat.min_eq_left h]

/-- The pages between two page boundaries. -/
theorem mem_pagesFrom_iff {v : Vpn} (hal : start % PAGE_SIZE = 0) (hmax : start + n * PAGE_SIZE ≤ 2 ^ 39) :
    v ∈ pagesFrom start n ↔ start ≤ vpnAddr v ∧ vpnAddr v < start + n * PAGE_SIZE := by
  rw [mem_pagesFrom]
  have hmod := vpnAddr_mod v
  constructor
  · intro h
    obtain ⟨k, hk, rfl⟩ := h
    have hle : (k + 1) * PAGE_SIZE ≤ n * PAGE_SIZE := Nat.mul_le_mul_right _ hk
    have hpos : 0 < PAGE_SIZE := by decide
    rw [Nat.succ_mul] at hle
    rw [vpnAddr_vpn (by omega) (by rw [Nat.add_mul_mod_self_right]; exact hal)]
    omega
  · intro h
    unfold PAGE_SIZE at *
    refine ⟨(vpnAddr v - start) / 0x1000, by omega, ?_⟩
    have heq : start + (vpnAddr v - start) / 0x1000 * 0x1000 = vpnAddr v := by omega
    rw [heq, vpn_vpnAddr]

theorem nodup_pagesFrom (hal : start % PAGE_SIZE = 0) (hmax : start + n * PAGE_SIZE ≤ 2 ^ 39) :
    (pagesFrom start n).Nodup := by
  refine List.Nodup.map_on (fun j hj k hk h => ?_) List.nodup_range
  have haddr : ∀ i < n, vpnAddr (vpn (start + i * PAGE_SIZE)) = start + i * PAGE_SIZE := fun i hi => by
    have hle : (i + 1) * PAGE_SIZE ≤ n * PAGE_SIZE := Nat.mul_le_mul_right _ hi
    have hpos : 0 < PAGE_SIZE := by decide
    rw [Nat.succ_mul] at hle
    exact vpnAddr_vpn (by omega) (by rw [Nat.add_mul_mod_self_right]; exact hal)
  have hsame := congrArg vpnAddr h
  rw [haddr j (List.mem_range.mp hj), haddr k (List.mem_range.mp hk)] at hsame
  exact Nat.eq_of_mul_eq_mul_right (by decide) (Nat.add_left_cancel hsame)

end Pages

/-! ## One page -/

section Page

variable {img : Image} {dirs : Finset Ppn} {m m' : Mem} {d pp : Ppn} {va : Nat} {perm : Pte}

/-- **A page of the growing loops**: it is mapped if the free list has the page and the tables on the way to it. -/
theorem MemInv.growPage_exact (h : MemInv img m dirs) (hd : d ∈ dirs) (hv : view m d (vpn va) = none)
    (hperm : PermOk perm) (remap : Panic) (fail : Int) :
    (∃ y m', growPage remap fail d perm va m = .ok (none, m') ∧ Change img dirs d (vpn va) (some (touchPte y perm)) m m' ∧
      m.freePageList.length = m'.freePageList.length + (1 + missing (hasTable m d) (vpn va)) ∧
      ∀ p, p.length ≤ 2 → Exaros.hasTable m' d p = withPath (Exaros.hasTable m d) (vpn va) p) ∨
    (∃ m', growPage remap fail d perm va m = .ok (some fail, m') ∧ Quiet img dirs m m' ∧
      m.freePageList.length < 1 + missing (Exaros.hasTable m d) (vpn va)) := by
  unfold growPage
  rw [pageLookup_none hv]
  cases ha : pageAlloc m with
  | none =>
    have hnil : m.freePageList = [] := by
      cases hf : m.freePageList with
      | nil => rfl
      | cons p rest =>
        rw [pageAlloc_cons hf] at ha
        cases ha
    refine .inr ⟨m, rfl, Quiet.refl h, ?_⟩
    rw [hnil]
    exact Nat.lt_add_right _ Nat.one_pos
  | some a =>
    obtain ⟨y, m₁⟩ := a
    have ht := h.taken ha
    have hlen : m.freePageList.length = m₁.freePageList.length + 1 := by rw [ht.free, List.length_cons]
    have hhas : ∀ p, p.length ≤ 2 → Exaros.hasTable m₁ d p = Exaros.hasTable m d p := fun p hp => ht.tables.hasTable hd hp
    have hmissing := missing_congr (v := vpn va) hhas
    have hquiet : Quiet img dirs m m₁ := ⟨ht.inv, ht.view⟩
    have habsent := (ht.view d hd (vpn va)).trans hv
    have heq : Exaros.pageInsert d va y perm m₁ = _ := pageInsert_absent habsent
    obtain ⟨m', hi, r, hl, hp⟩ | ⟨m', hi, g, -, hl⟩ := ht.inv.pageInsertNew hd habsent ht.usable hperm
    · refine .inl ⟨y, m', ?_, hquiet.change r.change, by omega, fun p hp' => ?_⟩
      · show (do
          let r ← Exaros.pageInsert d va y perm m₁
          return (if r.1 < 0 then some fail else none, r.2)) = _
        rw [heq, hi]
        rfl
      · rw [hp p hp']
        unfold withPath
        rw [hhas p hp']
    · refine .inr ⟨m', ?_, hquiet.trans g.quiet, by omega⟩
      show (do
        let r ← Exaros.pageInsert d va y perm m₁
        return (if r.1 < 0 then some fail else none, r.2)) = _
      rw [heq, hi]
      rfl

end Page

/-! ## The loop -/

section Loop

variable {img : Image} {dirs : Finset Ppn} {m m₁ m' : Mem} {d : Ppn} {v : Vpn} {vs : List Vpn} {perm : Pte}
  {stop fuel start n : Nat}

theorem Grown.refl (h : MemInv img m dirs) (d : Ppn) (perm : Pte) : Grown img dirs d perm [] m m :=
  ⟨h, fun _ hv => absurd hv List.not_mem_nil, fun _ _ _ _ => rfl⟩

theorem Change.grown {y : Ppn} (c : Change img dirs d v (some (touchPte y perm)) m m₁) (hd : d ∈ dirs)
    (g : Grown img dirs d perm vs m₁ m') (hv : v ∉ vs) : Grown img dirs d perm (v :: vs) m m' := by
  refine ⟨g.inv, fun w hw => ?_, fun d' hd' w hw => ?_⟩
  · obtain rfl | hw := List.mem_cons.mp hw
    · exact ⟨y, (g.off d hd w fun h => hv h.2).trans (c.view_self hd)⟩
    · exact g.on w hw
  · rw [g.off d' hd' w fun h => hw ⟨h.1, List.mem_cons_of_mem _ h.2⟩]
    exact c.view_off hd' fun h => hw ⟨h.1, h.2 ▸ List.mem_cons_self⟩

theorem MemInv.growPage_mapped (h : MemInv img m dirs) (hd : d ∈ dirs) {start : Nat} (hv : (view m d (vpn start)).isSome = true)
    (remap : Panic) (fail : Int) (perm : Pte) : growPage remap fail d perm start m = .error remap := by
  obtain ⟨e, he⟩ := Option.isSome_iff_exists.mp hv
  obtain ⟨t, -, -, hl⟩ := h.pageLookup_some hd he
  unfold growPage
  rw [hl]
  rfl

/-- How the loop over `n` pages ends at the one it does not map: there is none left, or it takes more than there is, or it
is mapped already. -/
inductive GrowEnd (img : Image) (dirs : Finset Ppn) (d : Ppn) (perm : Pte) (remap : Panic) (fail : Int) (start n k : Nat) (m : Mem) :
    Except Panic (Option Int × Mem) → Prop
  | all {m' : Mem} : k = n → Grown img dirs d perm (pagesFrom start k) m m' → GrowEnd img dirs d perm remap fail start n k m (.ok (none, m'))
  | short {m' : Mem} : k < n → Grown img dirs d perm (pagesFrom start k) m m' → view m d (vpn (start + k * PAGE_SIZE)) = none →
      m.freePageList.length < needed (hasTable m d) (pagesFrom start (k + 1)) →
      GrowEnd img dirs d perm remap fail start n k m (.ok (some fail, m'))
  | mapped : k < n → (view m d (vpn (start + k * PAGE_SIZE))).isSome = true →
      GrowEnd img dirs d perm remap fail start n k m (.error remap)

/-- **The loop** maps the pages up to the first that is mapped already or takes more than there are. -/
theorem MemInv.growLoop_exact (h : MemInv img m dirs) (hd : d ∈ dirs) (hperm : PermOk perm)
    (remap : Panic) (fail : Int) (hfuel : n < fuel) (hstop : stop = start + n * PAGE_SIZE) (hlt : stop < 2 ^ 64)
    (hnodup : (pagesFrom start n).Nodup) :
    ∃ k ≤ n, (∀ v ∈ pagesFrom start k, view m d v = none) ∧ needed (hasTable m d) (pagesFrom start k) ≤ m.freePageList.length ∧
      GrowEnd img dirs d perm remap fail start n k m (whilePages (growPage remap fail d perm) stop fuel start m) := by
  induction n generalizing m start fuel with
  | zero =>
    refine ⟨0, Nat.le_refl _, fun _ hv => absurd hv List.not_mem_nil, Nat.zero_le _, ?_⟩
    rw [whilePages_end hfuel (by omega)]
    exact .all rfl (Grown.refl h d perm)
  | succ n ih =>
    obtain ⟨fuel, rfl⟩ := Nat.exists_eq_succ_of_ne_zero (Nat.ne_of_gt (Nat.zero_lt_of_lt hfuel))
    rw [pagesFrom_succ] at hnodup
    obtain ⟨hnot, hnodup⟩ := List.nodup_cons.mp hnodup
    have hfirst : start + 0 * PAGE_SIZE = start := by rw [Nat.zero_mul, Nat.add_zero]
    rw [whilePages_turn hstop hlt]
    cases hv : view m d (vpn start) with
    | some e =>
      have hsome : (view m d (vpn start)).isSome = true := by rw [hv]; rfl
      refine ⟨0, Nat.zero_le _, fun _ hv => absurd hv List.not_mem_nil, Nat.zero_le _, ?_⟩
      rw [h.growPage_mapped hd hsome]
      exact .mapped (Nat.succ_pos n) (by rw [hfirst]; exact hsome)
    | none =>
      obtain ⟨y, m₁, hpage, c, hl, hhas⟩ | ⟨m₁, hpage, q, hl⟩ := h.growPage_exact hd hv hperm remap fail
      · obtain ⟨k, hk, hfree, hneeded, hend⟩ :=
          ih c.inv (Nat.lt_of_succ_lt_succ hfuel) (hstop.trans (page_succ ..)) hnodup
        have hview : ∀ j ≤ n, ∀ v ∈ pagesFrom (start + PAGE_SIZE) j, view m₁ d v = view m d v := fun j hj v hv =>
          c.view_off hd fun he => hnot (he.2 ▸ (pagesFrom_mono hj _).subset hv)
        have hsame : ∀ j < n, view m₁ d (vpn (start + PAGE_SIZE + j * PAGE_SIZE)) = view m d (vpn (start + (j + 1) * PAGE_SIZE)) :=
          fun j hj => by
            rw [page_succ]
            exact hview n (Nat.le_refl n) _ (mem_pagesFrom.mpr ⟨j, hj, rfl⟩)
        have hcost : ∀ vs, needed (hasTable m d) (vpn start :: vs) =
            1 + missing (hasTable m d) (vpn start) + needed (hasTable m₁ d) vs := fun vs =>
          congrArg _ (needed_congr fun p hp => (hhas p hp).symm)
        have hgrown : ∀ m', Grown img dirs d perm (pagesFrom (start + PAGE_SIZE) k) m₁ m' →
            Grown img dirs d perm (pagesFrom start (k + 1)) m m' := fun m' g => by
          rw [pagesFrom_succ]
          exact c.grown hd g fun hmem => hnot ((pagesFrom_mono hk _).subset hmem)
        refine ⟨k + 1, Nat.succ_le_succ hk, fun v hmem => ?_, ?_, ?_⟩
        · rw [pagesFrom_succ] at hmem
          obtain rfl | hmem := List.mem_cons.mp hmem
          · exact hv
          · exact (hview k hk v hmem).symm.trans (hfree v hmem)
        · rw [pagesFrom_succ, hcost]
          omega
        · rw [hpage]
          show GrowEnd img dirs d perm remap fail start (n + 1) (k + 1) m
            (whilePages (growPage remap fail d perm) stop fuel (start + PAGE_SIZE) m₁)
          generalize whilePages (growPage remap fail d perm) stop fuel (start + PAGE_SIZE) m₁ = run at hend ⊢
          cases hend with
          | all hkn g => exact .all (congrArg Nat.succ hkn) (hgrown _ g)
          | short hkn g hnone hmore =>
            refine .short (Nat.succ_lt_succ hkn) (hgrown _ g) ((hsame k hkn).symm.trans hnone) ?_
            rw [pagesFrom_succ, hcost]
            omega
          | mapped hkn hsome => exact .mapped (Nat.succ_lt_succ hkn) (by rw [← hsame k hkn]; exact hsome)
      · refine ⟨0, Nat.zero_le _, fun _ hv => absurd hv List.not_mem_nil, Nat.zero_le _, ?_⟩
        rw [hpage]
        refine .short (Nat.succ_pos n) ?_ (by rw [hfirst]; exact hv) ?_
        · exact ⟨q.inv, fun _ hv => absurd hv List.not_mem_nil, fun d' hd' v _ => q.view d' hd' v⟩
        · rw [pagesFrom_succ]
          exact hl

/-- Where no page is mapped it maps the pages up to the first that takes more than there are. -/
theorem MemInv.growLoop (h : MemInv img m dirs) (hd : d ∈ dirs) (hperm : PermOk perm)
    (remap : Panic) (fail : Int) (hfuel : n < fuel) (hstop : stop = start + n * PAGE_SIZE) (hlt : stop < 2 ^ 64)
    (hfree : ∀ v ∈ pagesFrom start n, view m d v = none) (hnodup : (pagesFrom start n).Nodup) :
    ∃ k r m', whilePages (growPage remap fail d perm) stop fuel start m = .ok (r, m') ∧ k ≤ n ∧
      Grown img dirs d perm (pagesFrom start k) m m' ∧ needed (hasTable m d) (pagesFrom start k) ≤ m.freePageList.length ∧
      ((r = none ∧ k = n) ∨
        (r = some fail ∧ k < n ∧ m.freePageList.length < needed (hasTable m d) (pagesFrom start (k + 1)))) := by
  obtain ⟨k, hk, -, hneeded, hend⟩ := h.growLoop_exact hd hperm remap fail hfuel hstop hlt hnodup
  generalize whilePages (growPage remap fail d perm) stop fuel start m = run at hend ⊢
  cases hend with
  | all hkn g => exact ⟨k, none, _, rfl, hk, g, hneeded, .inl ⟨rfl, hkn⟩⟩
  | short hkn g _ hmore => exact ⟨k, some fail, _, rfl, hk, g, hneeded, .inr ⟨rfl, hkn, hmore⟩⟩
  | mapped hkn hsome =>
    rw [hfree _ (mem_pagesFrom.mpr ⟨k, hkn, rfl⟩)] at hsome
    cases hsome

/-- **Giving pages back** leaves none of them mapped, and all others as they were. -/
theorem MemInv.shrinkLoop (h : MemInv img m dirs) (hd : d ∈ dirs) (hfuel : n < fuel)
    (hstop : stop = start + n * PAGE_SIZE) (hlt : stop < 2 ^ 64) :
    ∃ m', whilePages (shrinkPage d) stop fuel start m = .ok (none, m') ∧ MemInv img m' dirs ∧
      ∀ d' ∈ dirs, ∀ v, view m' d' v = if d' = d ∧ v ∈ pagesFrom start n then none else view m d' v := by
  induction n generalizing m start fuel with
  | zero =>
    exact ⟨m, whilePages_end hfuel (by omega), h, fun d' _ v => (if_neg fun hmem => List.not_mem_nil hmem.2).symm⟩
  | succ n ih =>
    obtain ⟨fuel, rfl⟩ := Nat.exists_eq_succ_of_ne_zero (Nat.ne_of_gt (Nat.zero_lt_of_lt hfuel))
    obtain ⟨m₁, hpage, hinv₁, hview₁⟩ : ∃ m₁, shrinkPage d start m = .ok (none, m₁) ∧ MemInv img m₁ dirs ∧
        ∀ d' ∈ dirs, ∀ v, view m₁ d' v = if d' = d ∧ v = vpn start then none else view m d' v := by
      unfold shrinkPage
      cases hv : view m d (vpn start) with
      | none =>
        refine ⟨m, by rw [pageRemove_none hv]; rfl, h, fun d' _ v => ?_⟩
        split
        · rename_i heq
          rw [heq.1, heq.2, hv]
        · rfl
      | some e =>
        obtain ⟨m₁, hrem, r, -, -⟩ := h.pageRemove_some hd hv
        exact ⟨m₁, by rw [hrem]; rfl, r.inv, r.view⟩
    obtain ⟨m', hloop, hinv, hview⟩ := ih hinv₁ (Nat.lt_of_succ_lt_succ hfuel) (hstop.trans (page_succ ..))
    refine ⟨m', ?_, hinv, fun d' hd' v => ?_⟩
    · rw [whilePages_turn hstop hlt, hpage]
      exact hloop
    · rw [hview d' hd' v, hview₁ d' hd' v, pagesFrom_succ]
      by_cases hdd : d' = d
      · by_cases hvs : v = vpn start
        · simp [hdd, hvs]
        · simp [hdd, hvs]
      · simp [hdd]

end Loop

end Exaros
