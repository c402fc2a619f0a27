import Exaros.Memory.Teardown
import Mathlib.Data.Set.Card

/-!
# Copying an address space

The triple loop of `processFork` walks the parent's tables while it builds the child's through
`pageMap`. `Copying` is the state in the middle of it: the virtual pages dealt with so far are shared
(`cowMark` on both sides), the others are as they were, and no data page has changed. A `pageMap` can
only fail for want of a page, and the loop goes on, so a page dealt with may be missing in the child;
with two free pages for every mapping of the parent none is.
-/

namespace Exaros

/-- What `processFork` makes of an entry: a writable one that is not shared memory becomes copy-on-write. -/
def cowMark (e : Pte) : Pte :=
  if pteHas e PTE_WRITE_BIT && !pteHas e PTE_SHM_BIT then (e ||| PTE_COW_BIT) &&& ~~~ PTE_WRITE_BIT else e

section CowMark

variable {e : Pte}

theorem getLsbD_cowMark_other (e : Pte) {i : Nat} (h8 : i ≠ 8) (h2 : i ≠ 2) :
    (cowMark e).getLsbD i = e.getLsbD i := by
  unfold cowMark
  split
  · rw [BitVec.getLsbD_and, BitVec.getLsbD_or, BitVec.getLsbD_not, PTE_COW_BIT, PTE_WRITE_BIT,
      getLsbD_bit 8 i (by omega), getLsbD_bit 2 i (by omega)]
    by_cases hi : i < 64
    · simp [h8, h2, hi]
    · have : e.getLsbD i = false := BitVec.getLsbD_of_ge _ _ (by omega)
      simp [this, h8]
  · rfl

@[simp] theorem pte2Ppn_cowMark (e : Pte) : pte2Ppn (cowMark e) = pte2Ppn e :=
  pte2Ppn_congr fun _ _ _ => getLsbD_cowMark_other e (by omega) (by omega)

theorem pteValid_cowMark (h : pteValid e = true) : pteValid (cowMark e) = true := by
  rw [pteValid_eq] at h ⊢
  rw [getLsbD_cowMark_other e (by omega) (by omega), h]

theorem touched_cowMark (h : Touched e) : Touched (cowMark e) := by
  unfold Touched at h ⊢
  rw [getLsbD_cowMark_other e (by omega) (by omega), getLsbD_cowMark_other e (by omega) (by omega)]
  exact h

/-- An entry that is valid and touched is what `pageMap` writes for its page and permissions. -/
theorem touchPte_self (hv : pteValid e = true) (ht : Touched e) : touchPte (pte2Ppn e) (pte2Perm e) = e := by
  have hperm : pte2Perm e ||| (PTE_ACCESSED_BIT ||| PTE_DIRTY_BIT) = pte2Perm e := by
    apply BitVec.eq_of_getLsbD_eq
    intro i hi
    rw [BitVec.getLsbD_or, BitVec.getLsbD_or, PTE_ACCESSED_BIT, PTE_DIRTY_BIT, getLsbD_bit 6 i (by omega),
      getLsbD_bit 7 i (by omega), getLsbD_pte2Perm]
    by_cases h6 : i = 6
    · subst h6
      simp [ht.1]
    · by_cases h7 : i = 7
      · subst h7
        simp [ht.2]
      · simp [h6, h7]
  unfold touchPte
  rw [hperm, mkPte_pte2Ppn_pte2Perm hv]

end CowMark

/-- The two pages `processFork` skips. -/
def Reserved (v : Vpn) : Prop := vpnAddr v = TRAMPOLINE ∨ vpnAddr v = TRAPFRAME

instance (v : Vpn) : Decidable (Reserved v) := inferInstanceAs (Decidable (_ ∨ _))

/-- How many virtual pages of `D` a directory maps. -/
noncomputable def mappedIn (m : Mem) (d : Ppn) (D : Vpn → Prop) : Nat :=
  Set.ncard { v | D v ∧ (view m d v).isSome = true }

/-- The pages dealt with so far are shared, the rest is as in `m₀`. -/
structure Copying (img : Image) (dirs : Finset Ppn) (par ch : Ppn) (m₀ : Mem) (D : Vpn → Prop) (m : Mem) :
    Prop where
  inv : MemInv img m dirs
  other : ∀ d ∈ dirs, d ≠ par → d ≠ ch → ∀ v, view m d v = view m₀ d v
  todo : ∀ v, ¬ (D v ∧ ¬ Reserved v) → view m par v = view m₀ par v
  done : ∀ v, D v → ¬ Reserved v → view m par v = (view m₀ par v).map cowMark
  child : ∀ v, view m ch v = view m₀ ch v ∨
    (D v ∧ ¬ Reserved v ∧ ∃ e, view m₀ par v = some e ∧ view m ch v = some (cowMark e))
  mono : ∀ d ∈ dirs, ∀ p t, p.length ≤ 2 → tableAt m₀ d p = some t → tableAt m d p = some t
  isTable : ∀ t, IsTable m dirs t → IsTable m₀ dirs t ∨ t ∈ m₀.freePageList
  free : ∀ p ∈ m.freePageList, p ∈ m₀.freePageList
  data : ∀ p, ¬ IsTable m dirs p → m.ram p = m₀.ram p
  spent : m₀.freePageList.length ≤ m.freePageList.length + 2 * mappedIn m₀ par D
  full : 2 * mappedIn m₀ par (fun _ => True) ≤ m₀.freePageList.length →
    ∀ v e, D v → ¬ Reserved v → view m₀ par v = some e → view m ch v = some (cowMark e)

section Copying

variable {img : Image} {dirs : Finset Ppn} {par ch : Ppn} {m₀ m : Mem} {D D' : Vpn → Prop} {v : Vpn} {e : Pte}

theorem mappedIn_mono (h : ∀ v, D v → D' v) : mappedIn m par D ≤ mappedIn m par D' :=
  Set.ncard_le_ncard (fun v hv => ⟨h v hv.1, hv.2⟩) (Set.toFinite _)

theorem mappedIn_insert (hv : ¬ D v) (he : view m par v = some e) :
    mappedIn m par (fun w => D w ∨ w = v) = mappedIn m par D + 1 := by
  have hset : { w | (D w ∨ w = v) ∧ (view m par w).isSome = true } =
      insert v { w | D w ∧ (view m par w).isSome = true } := by
    ext w
    simp only [Set.mem_insert_iff, Set.mem_ofPred_eq]
    constructor
    · rintro ⟨h | h, hs⟩
      · exact .inr ⟨h, hs⟩
      · exact .inl h
    · rintro (rfl | ⟨h, hs⟩)
      · exact ⟨.inr rfl, by rw [he]; rfl⟩
      · exact ⟨.inl h, hs⟩
  unfold mappedIn
  rw [hset, Set.ncard_insert_of_notMem (fun h => hv h.1) (Set.toFinite _)]

theorem Copying.refl (h : MemInv img m dirs) : Copying img dirs par ch m (fun _ => False) m where
  inv := h
  other := fun _ _ _ _ _ => rfl
  todo := fun _ _ => rfl
  done := fun _ h => h.elim
  child := fun _ => .inl rfl
  mono := fun _ _ _ _ _ h => h
  isTable := fun _ h => .inl h
  free := fun _ h => h
  data := fun _ _ => rfl
  spent := Nat.le_add_right _ _
  full := fun _ _ _ h => h.elim

/-- Pages the parent does not map count as dealt with. -/
theorem Copying.skip (h : Copying img dirs par ch m₀ D m) (hD : ∀ v, D v → D' v)
    (hn : ∀ v, D' v → D v ∨ view m₀ par v = none) : Copying img dirs par ch m₀ D' m where
  inv := h.inv
  other := h.other
  todo := fun v hv => h.todo v fun h' => hv ⟨hD v h'.1, h'.2⟩
  done := fun v hv hr => by
    rcases hn v hv with hv | hv
    · exact h.done v hv hr
    · by_cases hDv : D v
      · exact h.done v hDv hr
      · rw [h.todo v fun h' => hDv h'.1, hv]
        rfl
  child := fun v => (h.child v).imp_right fun h' => ⟨hD v h'.1, h'.2⟩
  mono := h.mono
  isTable := h.isTable
  free := h.free
  data := h.data
  spent := Nat.le_trans h.spent (Nat.add_le_add_left (Nat.mul_le_mul_left 2 (mappedIn_mono hD)) _)
  full := fun hm v e hv hr he => by
    rcases hn v hv with hv | hv
    · exact h.full hm v e hv hr he
    · rw [hv] at he
      cases he

/-- Writing what is there changes nothing. -/
theorem write_self {p : Ppn} {i : Idx} (h : m.ram p i = e) : m.write (p, i) e = m := by
  have hram : (fun q j => if q = p ∧ j = i then e else m.ram q j) = m.ram := by
    funext q j
    split
    · rename_i heq
      rw [heq.1, heq.2, h]
    · rfl
  unfold Mem.write
  rw [hram]

/-- The two edits of `forkPage`: the parent's entry is marked (`m₁`), then the child's is made (`m'`) or
there was no page for its table. -/
theorem Copying.step {m₁ m' : Mem} (h : Copying img dirs par ch m₀ D m) (hpar : par ∈ dirs) (hch : ch ∈ dirs)
    (hne : par ≠ ch) (hv : ¬ D v) (hr : ¬ Reserved v) (he : view m par v = some e)
    (r : Remap img dirs par v (some (cowMark e)) m m₁) (hlen : m₁.freePageList = m.freePageList) (hinv : MemInv img m' dirs)
    (hview : ∀ d ∈ dirs, ∀ w, ¬ (d = ch ∧ w = v) → view m' d w = view m₁ d w)
    (hnew : view m' ch v = some (cowMark e) ∨ (view m' ch v = view m₁ ch v ∧ m₁.freePageList.length < 2))
    (hmono : ∀ d ∈ dirs, ∀ p t, p.length ≤ 2 → tableAt m₁ d p = some t → tableAt m' d p = some t)
    (htab : ∀ t, IsTable m' dirs t → IsTable m₁ dirs t ∨ t ∈ m₁.freePageList)
    (hfree : ∀ p ∈ m'.freePageList, p ∈ m₁.freePageList) (hdata : ∀ p, ¬ IsTable m' dirs p → m'.ram p = m₁.ram p)
    (hspent : m₁.freePageList.length ≤ m'.freePageList.length + 2) :
    Copying img dirs par ch m₀ (fun w => D w ∨ w = v) m' := by
  have he₀ : view m₀ par v = some e := (h.todo v fun h' => hv h'.1).symm.trans he
  have hpar' : ∀ w, view m' par w = view m₁ par w := fun w => hview par hpar w fun h' => hne h'.1
  have hfree₁ : ∀ p ∈ m'.freePageList, p ∈ m.freePageList := fun p hp => hlen ▸ hfree p hp
  have hch₀ : view m₁ ch v = view m₀ ch v := by
    rw [r.view_off hch fun h' => hne h'.1.symm]
    exact (h.child v).resolve_right fun h' => hv h'.1
  have hspent' : m.freePageList.length ≤ m'.freePageList.length + 2 := hlen ▸ hspent
  refine ⟨hinv, ?_, ?_, ?_, ?_, ?_, ?_, ?_, ?_, ?_, ?_⟩
  · intro d hd hdp hdc w
    rw [hview d hd w fun h' => hdc h'.1, r.view_off hd fun h' => hdp h'.1]
    exact h.other d hd hdp hdc w
  · intro w hw
    have hwv : w ≠ v := fun hwv => hw ⟨.inr hwv, hwv ▸ hr⟩
    rw [hpar', r.view_off hpar fun h' => hwv h'.2]
    exact h.todo w fun h' => hw ⟨.inl h'.1, h'.2⟩
  · intro w hw hwr
    by_cases hwv : w = v
    · rw [hwv, hpar', r.view_self hpar, he₀]
      rfl
    · rw [hpar', r.view_off hpar fun h' => hwv h'.2]
      exact h.done w (hw.resolve_right hwv) hwr
  · intro w
    by_cases hwv : w = v
    · rw [hwv]
      rcases hnew with hnew | ⟨hnew, -⟩
      · exact .inr ⟨.inr rfl, hr, e, he₀, hnew⟩
      · exact .inl (hnew.trans hch₀)
    · rw [hview ch hch w fun h' => hwv h'.2, r.view_off hch fun h' => hwv h'.2]
      exact (h.child w).imp_right fun h' => ⟨.inl h'.1, h'.2⟩
  · intro d hd p t hp ht
    exact hmono d hd p t hp (r.mono d hd p t hp (h.mono d hd p t hp ht))
  · intro t ht
    rcases htab t ht with ht | ht
    · rcases r.isTable t ht with ht | ht
      · exact h.isTable t ht
      · exact .inr (h.free t ht)
    · exact .inr (h.free t (hlen ▸ ht))
  · exact fun p hp => h.free p (hfree₁ p hp)
  · intro p hp
    have hp₁ : ¬ IsTable m₁ dirs p := mt (isTable_mono hmono) hp
    rw [hdata p hp, r.data p hp₁]
    exact h.data p (mt (isTable_mono r.mono) hp₁)
  · have hs := h.spent
    have hi := mappedIn_insert hv he₀
    omega
  · intro hm w e' hw hwr he'
    by_cases hwv : w = v
    · rw [hwv] at he' ⊢
      obtain rfl : e' = e := Option.some.inj (he'.symm.trans he₀)
      rcases hnew with hnew | ⟨-, hlt⟩
      · exact hnew
      · have hs := h.spent
        have hi := mappedIn_insert hv he₀
        have hle : mappedIn m₀ par (fun w => D w ∨ w = v) ≤ mappedIn m₀ par fun _ => True :=
          mappedIn_mono fun _ _ => trivial
        rw [hlen] at hlt
        omega
    · rw [hview ch hch w fun h' => hwv h'.2, r.view_off hch fun h' => hwv h'.2]
      exact h.full hm w e' (hw.resolve_right hwv) hwr he'

/-- The child has got the entry `new`, for the tables that were missing on the way to it. -/
structure Paid (ch : Ppn) (v : Vpn) (new : Option Pte) (m m' : Mem) : Prop where
  view : ∀ w, Exaros.view m' ch w = if w = v then new else Exaros.view m ch w
  free : m.freePageList.length ≤ m'.freePageList.length + missing (hasTable m ch) v
  tables : ∀ p, p.length ≤ 2 → hasTable m' ch p = withPath (hasTable m ch) v p

/-- **One page.** `forkPage` shares a mapped page that has not been dealt with yet, if there are pages for the tables
the child is missing. -/
theorem Copying.page {pa2 : Ppn} (h : Copying img dirs par ch m₀ D m) (hpar : par ∈ dirs) (hch : ch ∈ dirs)
    (hne : par ≠ ch) (hk : ∀ v e, view m₀ ch v = some e → img.Kernel (pte2Ppn e)) (hv : ¬ D v)
    (ht : leafTable m par v = some pa2) (hvalid : pteValid (m.ram pa2 v.2.2) = true) :
    ∃ m', forkPage ch v.1 v.2.1 v.2.2 pa2 m = .ok m' ∧ Copying img dirs par ch m₀ (fun w => D w ∨ w = v) m' ∧
      (∀ d ∈ dirs, ∀ p t, p.length ≤ 2 → tableAt m d p = some t → tableAt m' d p = some t) ∧
      (Reserved v ∧ m' = m ∨ ¬ Reserved v ∧
        (Paid ch v ((view m₀ par v).map cowMark) m m' ∨ m.freePageList.length < missing (hasTable m ch) v)) := by
  obtain ⟨e, hread⟩ : ∃ e, m.ram pa2 v.2.2 = e := ⟨_, rfl⟩
  have he : view m par v = some e := by rw [view_of_leafTable ht, if_pos hvalid, hread]
  have hve : pteValid e = true := hread ▸ hvalid
  have hte : Touched e := (h.inv.leaf par hpar v e he).2.2
  by_cases hr : Reserved v
  · refine ⟨m, ?_, ⟨h.inv, h.other, ?_, ?_, ?_, h.mono, h.isTable, h.free, h.data, ?_, ?_⟩,
      fun _ _ _ _ _ h => h, .inl ⟨hr, rfl⟩⟩
    · unfold forkPage
      exact if_pos hr
    · exact fun w hw => h.todo w fun h' => hw ⟨.inl h'.1, h'.2⟩
    · intro w hw hwr
      exact h.done w (hw.resolve_right fun hwv => hwr (hwv ▸ hr)) hwr
    · exact fun w => (h.child w).imp_right fun h' => ⟨.inl h'.1, h'.2⟩
    · exact Nat.le_trans h.spent
        (Nat.add_le_add_left (Nat.mul_le_mul_left 2 (mappedIn_mono fun _ h => .inl h)) _)
    · intro hm w e' hw hwr he'
      exact h.full hm w e' (hw.resolve_right fun hwv => hwr (hwv ▸ hr)) hwr he'
  · have r := remap_rewrite h.inv hpar ht he (pte2Ppn_cowMark e) (pteValid_cowMark hve) (touched_cowMark hte)
    set m₁ := m.write (pa2, v.2.2) (cowMark e) with hm₁
    have hread₁ : m₁.ram pa2 v.2.2 = cowMark e := by simp [hm₁, Mem.write]
    have hwrite : (if pteHas (m.ram pa2 v.2.2) PTE_WRITE_BIT && !pteHas (m.ram pa2 v.2.2) PTE_SHM_BIT then
        m.write (pa2, v.2.2) ((m.ram pa2 v.2.2 ||| PTE_COW_BIT) &&& ~~~ PTE_WRITE_BIT) else m) = m₁ := by
      rw [hm₁, hread]
      unfold cowMark
      split
      · rfl
      · exact (write_self hread).symm
    have hus : Usable m₁ dirs (pte2Ppn (cowMark e)) := r.inv.usable_of_view hpar (r.view_self hpar)
    have hold : target m₁ (ch, vpn (vpnAddr v)) = some (pte2Ppn (cowMark e)) →
        Outlives img m₁ dirs ch (vpn (vpnAddr v)) (pte2Ppn (cowMark e)) := by
      intro htg
      left
      obtain ⟨e', he', hpe⟩ := target_eq_some_iff.mp htg
      rw [vpn_vpnAddr, r.view_off hch fun h' => hne h'.1.symm,
        (h.child v).resolve_right fun h' => hv h'.1] at he'
      exact hpe ▸ hk v e' he'
    have hfork : forkPage ch v.1 v.2.1 v.2.2 pa2 m =
        pageMap ch (vpnAddr v) (pte2Ppn (cowMark e)) (pte2Perm (cowMark e)) m₁ >>= fun r => .ok r.2 := by
      show (if Reserved v then _ else _) = _
      rw [if_neg hr, hwrite]
      simp only [hread₁]
      rfl
    have htouch : touchPte (pte2Ppn (cowMark e)) (pte2Perm (cowMark e)) = cowMark e :=
      touchPte_self (pteValid_cowMark hve) (touched_cowMark hte)
    have hhas : ∀ p, p.length ≤ 2 → hasTable m₁ ch p = hasTable m ch p := fun p hp =>
      (sameTables_write h.inv hpar ht v.2.2 (cowMark e)).hasTable hch hp
    have hmissing : missing (hasTable m₁ ch) v = missing (hasTable m ch) v := missing_congr hhas
    have htwo := missing_le (hasTable m₁ ch) v
    have hpair := r.inv.pageMap_exact hch (vpnAddr v) hus (permOk_pte2Perm (cowMark e)) hold
    rw [vpn_vpnAddr] at hpair
    obtain ⟨m', hmap, r', hl, htabs⟩ | ⟨m', hmap, g, -, hl⟩ := hpair
    · rw [htouch] at r'
      refine ⟨m', ?_, ?_, fun d hd p t hp htb => r'.mono d hd p t hp (r.mono d hd p t hp htb), .inr ⟨hr, .inl ⟨?_, ?_, ?_⟩⟩⟩
      · rw [hfork, hmap]
        rfl
      · refine h.step hpar hch hne hv hr he r rfl r'.inv (fun d hd w hw => r'.view_off hd hw)
          (.inl (r'.view_self hch)) r'.mono r'.isTable (fun p hp => ?_) r'.data (by omega)
        -- the entry replaced is one of the kernel's pages, which never become free
        refine (r'.free p hp).resolve_right fun htg => ?_
        obtain ⟨e', he', hpe⟩ := target_eq_some_iff.mp htg
        rw [r.view_off hch fun h' => hne h'.1.symm, (h.child v).resolve_right fun h' => hv h'.1] at he'
        exact Image.not_above_of_kernel (hpe ▸ hk v e' he') (r'.inv.free p hp).1
      · intro w
        rw [r'.view ch hch w, ← h.todo v fun h' => hv h'.1, he]
        by_cases hw : w = v
        · rw [if_pos ⟨rfl, hw⟩, if_pos hw]
          rfl
        · rw [if_neg fun h' => hw h'.2, if_neg hw, r.view_off hch fun h' => hne h'.1.symm]
      · rw [← hmissing]
        exact hl
      · intro p hp
        rw [htabs p hp]
        unfold withPath
        rw [hhas p hp]
    · refine ⟨m', ?_, ?_, fun d hd p t hp htb => g.mono d hd p t hp (r.mono d hd p t hp htb),
        .inr ⟨hr, .inr (by rw [← hmissing]; exact hl)⟩⟩
      · rw [hfork, hmap]
        rfl
      · exact h.step hpar hch hne hv hr he r rfl g.inv (fun d hd w _ => g.view d hd w)
          (.inr ⟨g.view ch hch v, Nat.lt_of_lt_of_le hl htwo⟩) g.mono g.isTable (fun p hp => g.free.subset hp) g.data
          (by
            omega)

/-! ## The loops -/

/-- Every table found stays where it is. -/
def KeepsTables (dirs : Finset Ppn) (m m' : Mem) : Prop :=
  ∀ d ∈ dirs, ∀ p t, p.length ≤ 2 → tableAt m d p = some t → tableAt m' d p = some t

theorem KeepsTables.trans {m₁ m₂ m₃ : Mem} (h : KeepsTables dirs m₁ m₂) (h' : KeepsTables dirs m₂ m₃) :
    KeepsTables dirs m₁ m₃ := fun d hd p t hp ht => h' d hd p t hp (h d hd p t hp ht)

theorem tableAt_snoc {d t : Ppn} {p : List Idx} (h : tableAt m d p = some t) (i : Idx) :
    tableAt m d (p ++ [i]) = decodePte (m.ram t i) := Radix.node_snoc decodePte h i

theorem view_none_of_leafTable {d : Ppn} (h : leafTable m d v = none) : view m d v = none := by
  unfold view Radix.entry
  unfold leafTable tableAt at h
  rw [h, Option.bind_none]

/-- What the copy loop keeps: it holds of more pages when the parent does not map those, leaves the parent's entries
alone where the loop has not come to, and `forkPage` keeps it. -/
structure Copies (dirs : Finset Ppn) (par ch : Ppn) (m₀ : Mem) (P : (Vpn → Prop) → Mem → Prop) : Prop where
  skip : ∀ D D' m, P D m → (∀ v, D v → D' v) → (∀ v, D' v → D v ∨ view m₀ par v = none) → P D' m
  todo : ∀ D m, P D m → ∀ v, ¬ D v → view m par v = view m₀ par v
  page : ∀ D m v pa2, P D m → ¬ D v → leafTable m par v = some pa2 → pteValid (m.ram pa2 v.2.2) = true →
    ∃ m', forkPage ch v.1 v.2.1 v.2.2 pa2 m = .ok m' ∧ P (fun w => D w ∨ w = v) m' ∧ KeepsTables dirs m m'

section Loops

variable {P : (Vpn → Prop) → Mem → Prop} (c : Copies dirs par ch m₀ P) (hpar : par ∈ dirs)
include c

/-- Below an empty slot nothing is mapped, before or now. -/
theorem Copies.view_none (h : P D m) (hv : ¬ D v) (ht : leafTable m par v = none) : view m₀ par v = none :=
  (c.todo D m h v hv).symm.trans (view_none_of_leafTable ht)

include hpar

/-- The loop over a leaf table copies its pages. -/
theorem Copies.leafLoop {i j : Idx} {pa2 : Ppn} (h : P D m) (hD : ∀ k, ¬ D (i, j, k))
    (ht : tableAt m par [i, j] = some pa2) :
    ∃ m', eachEntry pa2 (fun k m => forkPage ch i j k pa2 m) m = .ok m' ∧
      P (fun w => D w ∨ (w.1 = i ∧ w.2.1 = j)) m' ∧ KeepsTables dirs m m' := by
  have hloop := eachEntry_ok (m := m) pa2 (fun k m => forkPage ch i j k pa2 m)
    (P := fun done m' => P (fun w => D w ∨ (w.1 = i ∧ w.2.1 = j ∧ w.2.2 ∈ done)) m' ∧ KeepsTables dirs m m') ?_ ?_ ?_
  · obtain ⟨m', hm', hc, hkeep⟩ := hloop
    refine ⟨m', hm', c.skip _ _ _ hc ?_ ?_, hkeep⟩
    · rintro w (hw | ⟨h1, h2, -⟩)
      · exact .inl hw
      · exact .inr ⟨h1, h2⟩
    · rintro w (hw | ⟨h1, h2⟩)
      · exact .inl (.inl hw)
      · exact .inl (.inr ⟨h1, h2, List.mem_finRange _⟩)
  · refine ⟨c.skip _ _ _ h (fun _ hw => .inl hw) ?_, fun _ _ _ _ _ h => h⟩
    rintro w (hw | ⟨-, -, hw⟩)
    · exact .inl hw
    · cases hw
  · rintro done k m₂ hkd ⟨hc, hkeep⟩ hn
    have ht₂ : leafTable m₂ par (i, j, k) = some pa2 := hkeep par hpar _ _ (by simp) ht
    have hnD : ¬ (D (i, j, k) ∨ (i = i ∧ j = j ∧ k ∈ done)) := by
      rintro (hw | ⟨-, -, hw⟩)
      · exact hD k hw
      · exact hkd hw
    have hnone : view m₀ par (i, j, k) = none := by
      rw [← c.todo _ _ hc (i, j, k) hnD, view_of_leafTable ht₂, if_neg]
      rw [← decodePte_isSome, hn]
      simp
    refine ⟨c.skip _ _ _ hc ?_ ?_, hkeep⟩
    · rintro w (hw | ⟨h1, h2, h3⟩)
      · exact .inl hw
      · exact .inr ⟨h1, h2, mem_snoc.mpr (.inl h3)⟩
    · rintro w (hw | ⟨h1, h2, h3⟩)
      · exact .inl (.inl hw)
      · rcases mem_snoc.mp h3 with h3 | h3
        · exact .inl (.inr ⟨h1, h2, h3⟩)
        · obtain rfl : w = (i, j, k) := Prod.ext h1 (Prod.ext h2 h3)
          exact .inr hnone
  · rintro done k m₂ hkd ⟨hc, hkeep⟩ hs
    have ht₂ : leafTable m₂ par (i, j, k) = some pa2 := hkeep par hpar _ _ (by simp) ht
    have hnD : ¬ (D (i, j, k) ∨ (i = i ∧ j = j ∧ k ∈ done)) := by
      rintro (hw | ⟨-, -, hw⟩)
      · exact hD k hw
      · exact hkd hw
    obtain ⟨m₃, hm₃, hc₃, hkeep₃⟩ := c.page _ _ _ _ hc hnD ht₂ (by rw [← decodePte_isSome, hs]; rfl)
    refine ⟨m₃, hm₃, c.skip _ _ _ hc₃ ?_ ?_, hkeep.trans hkeep₃⟩
    · rintro w ((hw | ⟨h1, h2, h3⟩) | rfl)
      · exact .inl hw
      · exact .inr ⟨h1, h2, mem_snoc.mpr (.inl h3)⟩
      · exact .inr ⟨rfl, rfl, mem_snoc.mpr (.inr rfl)⟩
    · rintro w (hw | ⟨h1, h2, h3⟩)
      · exact .inl (.inl (.inl hw))
      · rcases mem_snoc.mp h3 with h3 | h3
        · exact .inl (.inl (.inr ⟨h1, h2, h3⟩))
        · exact .inl (.inr (Prod.ext h1 (Prod.ext h2 h3)))

/-- The loop over a table of the second level copies those below it. -/
theorem Copies.midLoop {i : Idx} {pa : Ppn} (h : P D m) (hD : ∀ j k, ¬ D (i, j, k)) (ht : tableAt m par [i] = some pa) :
    ∃ m', eachEntry pa (fun j m => eachEntry (pte2Ppn (m.ram pa j))
        (fun k m' => forkPage ch i j k (pte2Ppn (m.ram pa j)) m') m) m = .ok m' ∧
      P (fun w => D w ∨ w.1 = i) m' ∧ KeepsTables dirs m m' := by
  have hloop := eachEntry_ok (m := m) pa (fun j m => eachEntry (pte2Ppn (m.ram pa j))
      (fun k m' => forkPage ch i j k (pte2Ppn (m.ram pa j)) m') m)
    (P := fun done m' => P (fun w => D w ∨ (w.1 = i ∧ w.2.1 ∈ done)) m' ∧ KeepsTables dirs m m') ?_ ?_ ?_
  · obtain ⟨m', hm', hc, hkeep⟩ := hloop
    refine ⟨m', hm', c.skip _ _ _ hc ?_ ?_, hkeep⟩
    · rintro w (hw | ⟨h1, -⟩)
      · exact .inl hw
      · exact .inr h1
    · rintro w (hw | h1)
      · exact .inl (.inl hw)
      · exact .inl (.inr ⟨h1, List.mem_finRange _⟩)
  · refine ⟨c.skip _ _ _ h (fun _ hw => .inl hw) ?_, fun _ _ _ _ _ h => h⟩
    rintro w (hw | ⟨-, hw⟩)
    · exact .inl hw
    · cases hw
  · rintro done j m₂ hjd ⟨hc, hkeep⟩ hn
    have ht₂ : tableAt m₂ par [i] = some pa := hkeep par hpar _ _ (by simp) ht
    have hnone : ∀ k, view m₀ par (i, j, k) = none := fun k => by
      refine c.view_none hc ?_ ((tableAt_snoc ht₂ j).trans hn)
      rintro (hw | ⟨-, hw⟩)
      · exact hD j k hw
      · exact hjd hw
    refine ⟨c.skip _ _ _ hc ?_ ?_, hkeep⟩
    · rintro w (hw | ⟨h1, h2⟩)
      · exact .inl hw
      · exact .inr ⟨h1, mem_snoc.mpr (.inl h2)⟩
    · rintro w (hw | ⟨h1, h2⟩)
      · exact .inl (.inl hw)
      · rcases mem_snoc.mp h2 with h2 | h2
        · exact .inl (.inr ⟨h1, h2⟩)
        · obtain ⟨w₁, w₂, w₃⟩ := w
          obtain rfl : w₁ = i := h1
          obtain rfl : w₂ = j := h2
          exact .inr (hnone w₃)
  · rintro done j m₂ hjd ⟨hc, hkeep⟩ hs
    have ht₂ : tableAt m₂ par [i] = some pa := hkeep par hpar _ _ (by simp) ht
    obtain ⟨m₃, hm₃, hc₃, hkeep₃⟩ := c.leafLoop hpar hc (j := j) (by
      rintro k (hw | ⟨-, hw⟩)
      · exact hD j k hw
      · exact hjd hw) ((tableAt_snoc ht₂ j).trans hs)
    refine ⟨m₃, hm₃, c.skip _ _ _ hc₃ ?_ ?_, hkeep.trans hkeep₃⟩
    · rintro w ((hw | ⟨h1, h2⟩) | ⟨h1, h2⟩)
      · exact .inl hw
      · exact .inr ⟨h1, mem_snoc.mpr (.inl h2)⟩
      · exact .inr ⟨h1, mem_snoc.mpr (.inr h2)⟩
    · rintro w (hw | ⟨h1, h2⟩)
      · exact .inl (.inl (.inl hw))
      · rcases mem_snoc.mp h2 with h2 | h2
        · exact .inl (.inl (.inr ⟨h1, h2⟩))
        · exact .inl (.inr ⟨h1, h2⟩)

/-- **The copy loop** deals with every virtual page. -/
theorem Copies.forkTables (h : P (fun _ => False) m₀) :
    ∃ m', Exaros.forkTables par ch m₀ = .ok m' ∧ P (fun _ => True) m' := by
  have hloop := eachEntry_ok (m := m₀) par (forkTop par ch) (P := fun done m' => P (fun w => w.1 ∈ done) m') ?_ ?_ ?_
  · obtain ⟨m', hm', hc⟩ := hloop
    exact ⟨m', hm', c.skip _ _ _ hc (fun _ _ => trivial) fun w _ => .inl (List.mem_finRange _)⟩
  · exact c.skip _ _ _ h (fun _ hw => hw.elim) fun w hw => absurd hw (by simp)
  · intro done i m₂ hid hc hn
    have hnone : ∀ j k, view m₀ par (i, j, k) = none := fun j k => by
      refine c.view_none hc hid ?_
      show Radix.node decodePte m₂.ram par [i, j] = none
      rw [Radix.node_cons, hn, Option.bind_none]
    refine c.skip _ _ _ hc (fun w hw => mem_snoc.mpr (.inl hw)) fun w hw => ?_
    rcases mem_snoc.mp hw with hw | hw
    · exact .inl hw
    · obtain ⟨w₁, w₂, w₃⟩ := w
      obtain rfl : w₁ = i := hw
      exact .inr (hnone w₂ w₃)
  · intro done i m₂ hid hc hs
    obtain ⟨m₃, hm₃, hc₃, -⟩ := c.midLoop hpar hc (i := i) (fun _ _ => hid) (tableAt_one hs)
    refine ⟨m₃, hm₃, c.skip _ _ _ hc₃ (fun w hw => mem_snoc.mpr hw) fun w hw => .inl (mem_snoc.mp hw)⟩

end Loops

section Copied

variable (hpar : par ∈ dirs) (hch : ch ∈ dirs) (hne : par ≠ ch)
  (hk : ∀ v e, view m₀ ch v = some e → img.Kernel (pte2Ppn e))
include hpar hch hne hk

theorem copies_copying : Copies dirs par ch m₀ (Copying img dirs par ch m₀) where
  skip := fun _ _ _ h hD hn => h.skip hD hn
  todo := fun _ _ h v hv => h.todo v fun h' => hv h'.1
  page := fun _ _ _ _ h hv ht hvalid => by
    obtain ⟨m', hm', hc, hkeep, -⟩ := h.page hpar hch hne hk hv ht hvalid
    exact ⟨m', hm', hc, hkeep⟩

/-- The address space is copied. -/
theorem MemInv.forkTables (h : MemInv img m₀ dirs) :
    ∃ m', Exaros.forkTables par ch m₀ = .ok m' ∧ Copying img dirs par ch m₀ (fun _ => True) m' :=
  (copies_copying hpar hch hne hk).forkTables hpar (Copying.refl h)

end Copied

end Copying

end Exaros
