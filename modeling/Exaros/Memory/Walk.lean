import Exaros.Memory.Edit

/-!
# The page walk

`pageWalk` without `create` reads the last-level table off the forest. With `create` it may link
fresh tables on the way down: `Grow` says what such a step leaves alone, and `pageWalk_create`
that the walk either reaches the last level or stops for want of a page, and in both cases only
grew the forest.
-/

namespace Exaros

/-- What an operation that takes free pages for tables leaves alone. -/
structure Grow (img : Image) (dirs : Finset Ppn) (m m' : Mem) : Prop where
  inv : MemInv img m' dirs
  view : ∀ d ∈ dirs, ∀ v, view m' d v = view m d v
  mono : ∀ d ∈ dirs, ∀ p t, p.length ≤ 2 → tableAt m d p = some t → tableAt m' d p = some t
  isTable : ∀ t, IsTable m' dirs t → IsTable m dirs t ∨ t ∈ m.freePageList
  free : m'.freePageList <:+ m.freePageList
  ref : ∀ p, p ∉ m.freePageList → m'.ref p = m.ref p
  data : ∀ p, ¬ IsTable m' dirs p → m'.ram p = m.ram p
  idle : ∀ p, Idle m' p → Idle m p

/-- Tables that stay where they are stay tables. -/
theorem isTable_mono {dirs : Finset Ppn} {m m' : Mem}
    (h : ∀ d ∈ dirs, ∀ p t, p.length ≤ 2 → tableAt m d p = some t → tableAt m' d p = some t) {t : Ppn}
    (ht : IsTable m dirs t) : IsTable m' dirs t := by
  obtain ⟨d, hd, p, hp, hn⟩ := ht
  exact ⟨d, hd, p, hp, h d hd p t hp hn⟩

section Grow

variable {img : Image} {dirs : Finset Ppn} {m m' m'' : Mem} {d p x : Ppn} {p₀ : List Idx} {i : Idx} {rest : List Ppn}

theorem Grow.refl (h : MemInv img m dirs) : Grow img dirs m m where
  inv := h
  view := fun _ _ _ => rfl
  mono := fun _ _ _ _ _ h => h
  isTable := fun _ h => .inl h
  free := List.suffix_rfl
  ref := fun _ _ => rfl
  data := fun _ _ => rfl
  idle := fun _ h => h

theorem Grow.not_isTable (g : Grow img dirs m m') (hf : p ∉ m.freePageList) (ht : ¬ IsTable m dirs p) :
    ¬ IsTable m' dirs p := fun h => (g.isTable p h).elim ht hf

theorem Grow.not_free (g : Grow img dirs m m') (hf : p ∉ m.freePageList) : p ∉ m'.freePageList :=
  fun h => hf (g.free.subset h)

theorem Grow.usable (g : Grow img dirs m m') (h : Usable m dirs p) : Usable m' dirs p :=
  ⟨h.1, g.not_free h.2.1, g.not_isTable h.2.1 h.2.2⟩

theorem Grow.trans (g : Grow img dirs m m') (g' : Grow img dirs m' m'') : Grow img dirs m m'' where
  inv := g'.inv
  view := fun d hd v => (g'.view d hd v).trans (g.view d hd v)
  mono := fun d hd p t hp h => g'.mono d hd p t hp (g.mono d hd p t hp h)
  isTable := fun t h => by
    rcases g'.isTable t h with h | h
    · exact g.isTable t h
    · exact .inr (g.free.subset h)
  free := g'.free.trans g.free
  ref := fun p hp => (g'.ref p (g.not_free hp)).trans (g.ref p hp)
  data := fun p hp => (g'.data p hp).trans (g.data p (mt (isTable_mono g'.mono) hp))
  idle := fun p hp => g.idle p (g'.idle p hp)

/-- `pageAlloc` on a non-empty list. -/
theorem pageAlloc_cons (hf : m.freePageList = p :: rest) :
    pageAlloc m = some (p, { m with freePageList := rest }.setPage p fun _ => 0) := by
  unfold pageAlloc
  rw [hf]

theorem pageAlloc_nil (hf : m.freePageList = []) : pageAlloc m = none := by
  unfold pageAlloc
  rw [hf]

/-- `pageAlloc` takes a page off the list and clears it. -/
theorem pageAlloc_eq_some (h : pageAlloc m = some (p, m')) :
    ∃ rest, m.freePageList = p :: rest ∧ m' = { m with freePageList := rest }.setPage p fun _ => 0 := by
  cases hf : m.freePageList with
  | nil => rw [pageAlloc_nil hf] at h; cases h
  | cons q rest =>
    rw [pageAlloc_cons hf] at h
    cases h
    exact ⟨rest, rfl, rfl⟩

theorem page2Pte_or_valid (y : Ppn) : page2Pte y ||| PTE_VALID_BIT = mkPte y 0 := by
  simp [mkPte]

theorem Managed.lt (hp : Managed p) : p < 2 ^ 44 := Nat.lt_trans hp.2 (by decide)

/-- The memory after an interior slot has been linked to the first free page. -/
def linkTable (m : Mem) (y : Ppn) (rest : List Ppn) (s : Slot) : Mem :=
  (({ m with freePageList := rest }.setPage y fun _ => 0).incRef y).write s (page2Pte y ||| PTE_VALID_BIT)

/-- Linking the first free page below an empty slot of an interior table is a `Radix.Link`. -/
theorem MemInv.link (h : MemInv img m dirs) (hd : d ∈ dirs) (hp₀ : p₀.length < 2)
    (hx : tableAt m d p₀ = some x) (hi : decodePte (m.ram x i) = none) {y : Ppn} (hf : m.freePageList = y :: rest) :
    Radix.Link decodePte m.ram (linkTable m y rest (x, i)).ram dirs 2 d p₀ i x y := by
  have hy := h.free y (by rw [hf]; exact List.mem_cons_self ..)
  have hxt : IsTable m dirs x := ⟨d, hd, p₀, by omega, hx⟩
  have hxy : x ≠ y := fun hxy => hy.2.1 (hxy ▸ hxt)
  refine ⟨hd, hp₀, hx, hi, hy.2.1, ?_, ?_, ?_, ?_⟩
  · intro j
    have hzero : (linkTable m y rest (x, i)).ram y j = 0 := by
      simp [linkTable, Mem.write, Mem.setPage, Mem.incRef, Ne.symm hxy]
    rw [hzero, decodePte_zero]
  · have hd : decodePte (mkPte y 0) = some y := decodePte_mkPte hy.1.managed.lt (by decide)
    rw [← page2Pte_or_valid] at hd
    simpa [linkTable, Mem.write] using hd
  · intro j hj
    simp [linkTable, Mem.write, Mem.setPage, Mem.incRef, hj, hxy]
  · intro t htx hty
    funext j
    simp [linkTable, Mem.write, Mem.setPage, Mem.incRef, htx, hty]

/-- **Link.** The forest grows by one table. -/
theorem MemInv.grow_link (h : MemInv img m dirs) (hd : d ∈ dirs) (hp₀ : p₀.length < 2)
    (hx : tableAt m d p₀ = some x) (hi : decodePte (m.ram x i) = none) {y : Ppn}
    (hf : m.freePageList = y :: rest) : Grow img dirs m (linkTable m y rest (x, i)) := by
  have hl := h.link hd hp₀ hx hi hf
  set m' := linkTable m y rest (x, i) with hm'
  have hymem : y ∈ m.freePageList := by rw [hf]; exact List.mem_cons_self ..
  obtain ⟨hya, hynt, hyz⟩ := h.free y hymem
  have hyrest : y ∉ rest := by
    have := h.free_nodup
    rw [hf] at this
    exact (List.nodup_cons.mp this).1
  have hview : ∀ d ∈ dirs, ∀ v, Exaros.view m' d v = Exaros.view m d v := fun d hd v =>
    hl.entry decodePte h.sep hd (rfl : [v.1, v.2.1].length = 2) v.2.2
  have htab : ∀ t, IsTable m' dirs t ↔ IsTable m dirs t ∨ t = y := hl.isNode decodePte h.sep
  have hrest : ∀ p ∈ rest, p ∈ m.freePageList := fun p hp => by
    rw [hf]; exact List.mem_cons_of_mem _ hp
  have href : ∀ p, p ≠ y → m'.ref p = m.ref p := fun p hp => by
    simp [hm', linkTable, Mem.write, Mem.incRef, Mem.setPage, hp]
  have hrefy : m'.ref y = m.ref y + 1 := by
    simp [hm', linkTable, Mem.write, Mem.incRef, Mem.setPage]
  refine ⟨⟨h.kernelDir, h.roots, hl.separated decodePte h.sep, ?_, ?_, ?_, ?_, ?_, ?_⟩, hview, ?_, ?_, ?_, ?_, ?_, ?_⟩
  · intro r hr p t hp hlen hn
    rcases hl.node_eq_some decodePte h.sep hr hlen hn with ⟨rfl, -, -⟩ | ⟨-, hn⟩
    · exact hya
    · exact h.tables r hr p t hp hlen hn
  · intro d' hd' v e hv
    rw [hview d' hd' v] at hv
    obtain ⟨h1, h2, h3⟩ := h.leaf d' hd' v e hv
    refine ⟨h1, fun ht => ?_, h3⟩
    rcases (htab _).mp ht with ht | ht
    · exact h2 ht
    · exact h.not_free_of_view hd' hv (ht ▸ hymem)
  · have := h.free_nodup
    rw [hf] at this
    exact (List.nodup_cons.mp this).2
  · intro p hp
    obtain ⟨h1, h2, h3⟩ := h.free p (hrest p hp)
    refine ⟨h1, fun ht => ?_, ?_⟩
    · rcases (htab _).mp ht with ht | rfl
      · exact h2 ht
      · exact hyrest hp
    · rw [leafRefs_congr hview, h3]
  · intro p hp
    rw [leafRefs_congr hview]
    have hold := h.ref_above p hp
    by_cases hpy : p = y
    · subst hpy
      rw [tableRefs_of_isTable ((htab p).mpr (.inr rfl)), hrefy, toNat_add_one (h.ref_le hp.managed), hold,
        tableRefs_of_not hynt]
    · have hiff : IsTable m' dirs p ↔ IsTable m dirs p := by rw [htab]; simp [hpy]
      rw [href p hpy, hold, tableRefs_congr hiff]
  · intro p hp
    have hpy : p ≠ y := by
      rintro rfl
      exact Image.not_above_of_kernel hp hya
    rw [leafRefs_congr hview, href p hpy]
    exact h.ref_kernel p hp
  · intro d' hd' p t hp ht
    exact hl.node_mono decodePte h.sep hd' hp ht
  · intro t ht
    rcases (htab t).mp ht with ht | rfl
    · exact .inl ht
    · exact .inr hymem
  · rw [hf]
    exact List.suffix_cons y rest
  · intro p hp
    exact href p fun hpy => hp (hpy ▸ hymem)
  · intro p hp
    have hpx : p ≠ x := by
      rintro rfl
      exact hp ((htab p).mpr (.inl ⟨d, hd, p₀, by omega, hx⟩))
    exact hl.off p hpx fun hpy => hp ((htab p).mpr (.inr hpy))
  · intro p hp
    have hpy : p ≠ y := by
      rintro rfl
      have hone := toNat_add_one (h.ref_le hya.managed)
      rw [← hrefy, hp.2] at hone
      simp at hone
    refine ⟨?_, href p hpy ▸ hp.2⟩
    rw [hf]
    exact fun hmem => (List.mem_cons.mp hmem).elim hpy hp.1

end Grow

/-! ## Walking without `create` -/

section Walk

variable {img : Image} {dirs : Finset Ppn} {m : Mem} {d x : Ppn} {va : Nat}

theorem pageDescend_valid {create : Bool} {s : Slot} (h : pteValid (m.read s) = true) :
    pageDescend create s m = (.ok (some (pte2Ppn (m.read s))), m) := by
  unfold pageDescend
  rw [if_pos h]

theorem pageDescend_false (s : Slot) :
    pageDescend false s m = (.ok (decodePte (m.read s)), m) := by
  unfold pageDescend decodePte
  split <;> rfl

/-- Without `create` the walk reads the last-level table off the forest and changes nothing. -/
theorem pageWalk_false (d : Ppn) (va : Nat) (m : Mem) :
    pageWalk d va false m = (.ok ((leafTable m d (vpn va)).map fun t => (t, vaPpn va 0)), m) := by
  simp only [pageWalk, pageWalkFrom, pageDescend_false, leafTable, tableAt, vpn, Radix.node_cons]
  have hread : ∀ p j, m.read (p, j) = m.ram p j := fun _ _ => rfl
  rw [hread]
  cases decodePte (m.ram d (vaPpn va 2)) with
  | none => rfl
  | some t =>
    simp only [hread, Option.bind_some]
    cases decodePte (m.ram t (vaPpn va 1)) with
    | none => rfl
    | some u => rfl

/-- Where the last-level table exists, `create` makes no difference. -/
theorem pageWalk_of_leafTable {t : Ppn} (ht : leafTable m d (vpn va) = some t) (create : Bool) :
    pageWalk d va create m = (.ok (some (t, vaPpn va 0)), m) := by
  simp only [leafTable, tableAt, vpn, Radix.node_cons] at ht
  cases h2 : decodePte (m.ram d (vaPpn va 2)) with
  | none => rw [h2] at ht; cases ht
  | some u =>
    rw [h2, Option.bind_some] at ht
    cases h1 : decodePte (m.ram u (vaPpn va 1)) with
    | none => rw [h1] at ht; cases ht
    | some w =>
      rw [h1, Option.bind_some] at ht
      obtain rfl : w = t := Option.some.inj ht
      have valid : ∀ {e : Pte} {q : Ppn}, decodePte e = some q → pteValid e = true ∧ pte2Ppn e = q := by
        intro e q he
        unfold decodePte at he
        split at he
        · rename_i hv
          exact ⟨hv, Option.some.inj he⟩
        · cases he
      have e2 : pageDescend create (d, vaPpn va 2) m = (.ok (some u), m) := by
        rw [pageDescend_valid (s := (d, vaPpn va 2)) (valid h2).1]
        exact congrArg (fun q => (Except.ok (some q), m)) (valid h2).2
      have e1 : pageDescend create (u, vaPpn va 1) m = (.ok (some w), m) := by
        rw [pageDescend_valid (s := (u, vaPpn va 1)) (valid h1).1]
        exact congrArg (fun q => (Except.ok (some q), m)) (valid h1).2
      simp only [pageWalk, pageWalkFrom, e2, e1]

/-! ## Walking with `create` -/

/-- Which prefixes of a page number lead to a table. -/
def hasTable (m : Mem) (d : Ppn) (p : List Idx) : Bool := (tableAt m d p).isSome

/-- The tables on the way to a page that are not there. -/
def missing (has : List Idx → Bool) (v : Vpn) : Nat :=
  (if has [v.1] then 0 else 1) + if has [v.1, v.2.1] then 0 else 1

/-- The tables once those on the way to a page are there too. -/
def withPath (has : List Idx → Bool) (v : Vpn) (p : List Idx) : Bool := has p || p = [v.1] || p = [v.1, v.2.1]

/-- One turn of the loop with `create`: the table below the slot is there and nothing changes, or it is made of the
first free page, or there is none. -/
theorem pageDescend_exact (h : MemInv img m dirs) (hd : d ∈ dirs) (p₀ : List Idx) (i : Idx)
    (hp₀ : p₀.length < 2) (hx : tableAt m d p₀ = some x) :
    (∃ y, tableAt m d (p₀ ++ [i]) = some y ∧ pageDescend true (x, i) m = (.ok (some y), m)) ∨
    (tableAt m d (p₀ ++ [i]) = none ∧ ∃ y m', pageDescend true (x, i) m = (.ok (some y), m') ∧ Grow img dirs m m' ∧
      tableAt m' d (p₀ ++ [i]) = some y ∧ m.freePageList.length = m'.freePageList.length + 1 ∧
      ∀ p, p.length ≤ 2 → hasTable m' d p = (hasTable m d p || p = p₀ ++ [i])) ∨
    (tableAt m d (p₀ ++ [i]) = none ∧ pageDescend true (x, i) m = (.error (-E_NO_MEM), m) ∧ m.freePageList = []) := by
  have hsnoc : tableAt m d (p₀ ++ [i]) = decodePte (m.ram x i) := Radix.node_snoc decodePte hx i
  by_cases hv : pteValid (m.read (x, i)) = true
  · refine .inl ⟨_, ?_, pageDescend_valid hv⟩
    rw [hsnoc]
    exact if_pos hv
  · have hi : decodePte (m.ram x i) = none := if_neg hv
    cases hf : m.freePageList with
    | nil =>
      refine .inr (.inr ⟨hsnoc.trans hi, ?_, rfl⟩)
      unfold pageDescend
      rw [if_neg hv, if_pos rfl, pageAlloc_nil hf]
    | cons y rest =>
      have g := h.grow_link hd hp₀ hx hi hf
      have hl := h.link hd hp₀ hx hi hf
      have hy := h.free y (by rw [hf]; exact List.mem_cons_self ..)
      refine .inr (.inl ⟨hsnoc.trans hi, y, linkTable m y rest (x, i), ?_, g, hl.node_self decodePte h.sep, rfl,
        fun p hp => ?_⟩)
      · unfold pageDescend
        rw [if_neg hv, if_pos rfl, pageAlloc_cons hf]
        have hread : (linkTable m y rest (x, i)).read (x, i) = mkPte y 0 := by
          unfold linkTable
          rw [read_write, page2Pte_or_valid]
        have hppn : pte2Ppn (mkPte y 0) = y := pte2Ppn_mkPte hy.1.managed.lt (by decide)
        change (Except.ok (some (pte2Ppn ((linkTable m y rest (x, i)).read (x, i)))),
          linkTable m y rest (x, i)) = _
        rw [hread, hppn]
      · unfold hasTable
        rw [Bool.eq_iff_iff, Bool.or_eq_true, decide_eq_true_iff, Option.isSome_iff_exists, Option.isSome_iff_exists]
        constructor
        · intro hsome
          obtain ⟨t, ht⟩ := hsome
          obtain ⟨-, -, hpath⟩ | ⟨-, hold⟩ := hl.node_eq_some decodePte h.sep hd hp ht
          · exact .inr hpath
          · exact .inl ⟨t, hold⟩
        · intro hsome
          obtain ⟨t, ht⟩ | rfl := hsome
          · exact ⟨t, hl.node_mono decodePte h.sep hd hp ht⟩
          · exact ⟨y, hl.node_self decodePte h.sep⟩

/-- Below a missing table there is none. -/
theorem hasTable_below {v : Vpn} (h : hasTable m d [v.1] = false) : hasTable m d [v.1, v.2.1] = false := by
  have hnone : Radix.node decodePte m.ram d [v.1] = none := Option.isNone_iff_eq_none.mp (Option.isSome_eq_false_iff.mp h)
  have hbelow : Radix.node decodePte m.ram d ([v.1] ++ [v.2.1]) = none := by
    rw [Radix.node_append, hnone, Option.bind_none]
  exact congrArg Option.isSome hbelow

theorem SameTables.hasTable (h : SameTables m m' dirs) (hd : d ∈ dirs) {p : List Idx} (hp : p.length ≤ 2) :
    hasTable m' d p = hasTable m d p := congrArg Option.isSome (h d hd p hp)

/-- Where the leaf table is there, so are those on the way to it. -/
theorem hasTable_of_leafTable {t : Ppn} {v : Vpn} (ht : leafTable m d v = some t) :
    hasTable m d [v.1] = true ∧ hasTable m d [v.1, v.2.1] = true := by
  have hleaf : hasTable m d [v.1, v.2.1] = true := congrArg Option.isSome ht
  refine ⟨?_, hleaf⟩
  by_contra hno
  rw [hasTable_below (Bool.eq_false_iff.mpr hno)] at hleaf
  cases hleaf

theorem withPath_of_leafTable {t : Ppn} {v : Vpn} (ht : leafTable m d v = some t) :
    withPath (hasTable m d) v = hasTable m d := by
  obtain ⟨htop, hleaf⟩ := hasTable_of_leafTable ht
  funext p
  unfold withPath
  by_cases h₁ : p = [v.1]
  · rw [h₁, htop]
    rfl
  · by_cases h₂ : p = [v.1, v.2.1]
    · rw [h₂, hleaf]
      rfl
    · simp [h₁, h₂]

/-- **The walk with `create`** takes a page for each table that is missing on the way, and stops where there is none. -/
theorem pageWalk_exact (h : MemInv img m dirs) (hd : d ∈ dirs) (va : Nat) :
    (∃ t m', pageWalk d va true m = (.ok (some (t, vaPpn va 0)), m') ∧ Grow img dirs m m' ∧
      leafTable m' d (vpn va) = some t ∧ m.freePageList.length = m'.freePageList.length + missing (hasTable m d) (vpn va) ∧
      ∀ p, p.length ≤ 2 → hasTable m' d p = withPath (hasTable m d) (vpn va) p) ∨
    (∃ m', pageWalk d va true m = (.error (-E_NO_MEM), m') ∧ Grow img dirs m m' ∧
      leafTable m d (vpn va) = none ∧ m'.freePageList = [] ∧
      m.freePageList.length < missing (hasTable m d) (vpn va)) := by
  have htop : ∀ m : Mem, hasTable m d [(vpn va).1] = (tableAt m d ([] ++ [vaPpn va 2])).isSome := fun _ => rfl
  have hleaf : ∀ m : Mem, hasTable m d [(vpn va).1, (vpn va).2.1] = (tableAt m d ([vaPpn va 2] ++ [vaPpn va 1])).isSome :=
    fun _ => rfl
  obtain ⟨y, ht₁, h₁⟩ | ⟨hn₁, y, m₁, h₁, g₁, ht₁, hl₁, hhas₁⟩ | ⟨hn₁, h₁, hf⟩ :=
    pageDescend_exact h hd [] (vaPpn va 2) (by simp) rfl
  · have hhas : hasTable m d [(vpn va).1] = true := by rw [htop, ht₁]; rfl
    obtain ⟨z, ht₂, h₂⟩ | ⟨hn₂, z, m₂, h₂, g₂, ht₂, hl₂, hhas₂⟩ | ⟨hn₂, h₂, hf₂⟩ :=
      pageDescend_exact h hd [vaPpn va 2] (vaPpn va 1) (by simp) ht₁
    · have hboth : hasTable m d [(vpn va).1, (vpn va).2.1] = true := by rw [hleaf, ht₂]; rfl
      refine .inl ⟨z, m, by simp only [pageWalk, pageWalkFrom, h₁, h₂], Grow.refl h, ht₂, ?_, fun p _ => ?_⟩
      · unfold missing
        rw [if_pos hhas, if_pos hboth]
        rfl
      · unfold withPath
        by_cases hp₁ : p = [(vpn va).1]
        · simp [hp₁, hhas]
        · by_cases hp₂ : p = [(vpn va).1, (vpn va).2.1]
          · simp [hp₂, hboth]
          · simp [hp₁, hp₂]
    · have hone : hasTable m d [(vpn va).1, (vpn va).2.1] = false := by rw [hleaf, hn₂]; rfl
      refine .inl ⟨z, m₂, by simp only [pageWalk, pageWalkFrom, h₁, h₂], g₂, ht₂, ?_, fun p hp => ?_⟩
      · unfold missing
        rw [if_pos hhas, hone]
        exact hl₂
      · rw [hhas₂ p hp]
        unfold withPath
        by_cases hp₁ : p = [(vpn va).1]
        · simp [hp₁, hhas]
        · simp only [hp₁, decide_false, Bool.or_false]
          rfl
    · have hone : hasTable m d [(vpn va).1, (vpn va).2.1] = false := by rw [hleaf, hn₂]; rfl
      refine .inr ⟨m, by simp only [pageWalk, pageWalkFrom, h₁, h₂], Grow.refl h, hn₂, hf₂, ?_⟩
      unfold missing
      rw [if_pos hhas, hone, hf₂]
      decide
  · have hhas : hasTable m d [(vpn va).1] = false := by rw [htop, hn₁]; rfl
    have hboth := hasTable_below hhas
    have hmissing : missing (hasTable m d) (vpn va) = 2 := by
      unfold missing
      rw [hhas, hboth]
      rfl
    obtain ⟨z, ht₂, -⟩ | ⟨hn₂, z, m₂, h₂, g₂, ht₂, hl₂, hhas₂⟩ | ⟨hn₂, h₂, hf₂⟩ :=
      pageDescend_exact g₁.inv hd [vaPpn va 2] (vaPpn va 1) (by simp) ht₁
    · have hnew := hhas₁ ([vaPpn va 2] ++ [vaPpn va 1]) (by simp)
      rw [show hasTable m₁ d ([vaPpn va 2] ++ [vaPpn va 1]) = true from congrArg Option.isSome ht₂,
        show hasTable m d ([vaPpn va 2] ++ [vaPpn va 1]) = false from hboth] at hnew
      simp at hnew
    · refine .inl ⟨z, m₂, by simp only [pageWalk, pageWalkFrom, h₁, h₂], g₁.trans g₂, ht₂, ?_, fun p hp => ?_⟩
      · rw [hmissing, hl₁, hl₂]
      · rw [hhas₂ p hp, hhas₁ p hp]
        rfl
    · refine .inr ⟨m₁, by simp only [pageWalk, pageWalkFrom, h₁, h₂], g₁, ?_, hf₂, ?_⟩
      · exact Option.isNone_iff_eq_none.mp (Option.isSome_eq_false_iff.mp hboth)
      · rw [hmissing, hl₁, hf₂]
        decide
  · have hhas : hasTable m d [(vpn va).1] = false := by rw [htop, hn₁]; rfl
    have hboth := hasTable_below hhas
    refine .inr ⟨m, by simp only [pageWalk, pageWalkFrom, h₁], Grow.refl h, ?_, hf, ?_⟩
    · exact Option.isNone_iff_eq_none.mp (Option.isSome_eq_false_iff.mp hboth)
    · unfold missing
      rw [hhas, hboth, hf]
      decide

theorem missing_congr {has has' : List Idx → Bool} {v : Vpn} (h : ∀ p, p.length ≤ 2 → has p = has' p) :
    missing has v = missing has' v := by
  unfold missing
  rw [h [v.1] (by simp), h [v.1, v.2.1] (by simp)]

theorem missing_le (has : List Idx → Bool) (v : Vpn) : missing has v ≤ 2 := by
  unfold missing
  split <;> split <;> decide

/-- It reaches the last level, or stops when the free list is empty; either way the forest only grew. -/
theorem pageWalk_create (h : MemInv img m dirs) (hd : d ∈ dirs) (va : Nat) :
    (∃ t m', pageWalk d va true m = (.ok (some (t, vaPpn va 0)), m') ∧ Grow img dirs m m' ∧
      leafTable m' d (vpn va) = some t ∧ m.freePageList.length ≤ m'.freePageList.length + 2) ∨
    (∃ m', pageWalk d va true m = (.error (-E_NO_MEM), m') ∧ Grow img dirs m m' ∧
      leafTable m d (vpn va) = none ∧ m'.freePageList = [] ∧ m.freePageList.length < 2) := by
  have hle := missing_le (hasTable m d) (vpn va)
  obtain ⟨t, m', hw, g, ht, hl, -⟩ | ⟨m', hw, g, ht, hf, hl⟩ := pageWalk_exact h hd va
  · exact .inl ⟨t, m', hw, g, ht, by omega⟩
  · exact .inr ⟨m', hw, g, ht, hf, by omega⟩

end Walk

end Exaros
