import Exaros.Memory.Loads

/-!
# A process and its child

`setupProcess` puts the pages of the kernel image into a new directory and a page for signals into the kernel's;
`processFork` then copies the parent's entries. What both do to the directories there are is said without any memory
bound. The tables a copy takes are counted by the paths to them (`lacking`), and with as many pages the child has every
entry of its parent.
-/

namespace Exaros

/-- The tables on the way to a page. -/
def pathsTo (v : Vpn) : Finset (List Idx) := {[v.1], [v.1, v.2.1]}

/-- The tables once those on the way to some pages are there too. -/
def withPaths (has : List Idx → Bool) (vs : Finset Vpn) (p : List Idx) : Bool := has p || decide (p ∈ vs.biUnion pathsTo)

/-- The tables on the way to some pages that are not there. -/
def lacking (has : List Idx → Bool) (vs : Finset Vpn) : Finset (List Idx) := (vs.biUnion pathsTo).filter fun p => has p = false

section Paths

variable {has has' : List Idx → Bool} {v : Vpn} {vs ws : Finset Vpn} {p : List Idx}

theorem mem_pathsTo : p ∈ pathsTo v ↔ p = [v.1] ∨ p = [v.1, v.2.1] := by
  unfold pathsTo
  rw [Finset.mem_insert, Finset.mem_singleton]

theorem length_pathsTo (h : p ∈ pathsTo v) : p.length ≤ 2 := by
  obtain rfl | rfl := mem_pathsTo.mp h
  · exact Nat.le_succ 1
  · exact Nat.le_refl 2

theorem mem_lacking : p ∈ lacking has vs ↔ (∃ v ∈ vs, p ∈ pathsTo v) ∧ has p = false := by
  unfold lacking
  rw [Finset.mem_filter, Finset.mem_biUnion]

theorem withPaths_empty (has : List Idx → Bool) : withPaths has ∅ = has := by
  funext p
  simp [withPaths]

theorem withPaths_insert (has : List Idx → Bool) (vs : Finset Vpn) (v : Vpn) :
    withPaths has (insert v vs) = withPath (withPaths has vs) v := by
  funext p
  unfold withPath withPaths
  rw [Bool.eq_iff_iff]
  simp only [Bool.or_eq_true, decide_eq_true_eq, Finset.mem_biUnion, Finset.mem_insert, exists_eq_or_imp, mem_pathsTo]
  generalize (∃ a ∈ vs, p = [a.1] ∨ p = [a.1, a.2.1]) = q
  tauto

theorem lacking_mono (h : vs ⊆ ws) : lacking has vs ⊆ lacking has ws :=
  Finset.filter_subset_filter _ (Finset.biUnion_subset_biUnion_of_subset_left _ h)

theorem missing_eq_card (has : List Idx → Bool) (v : Vpn) : missing has v = (lacking has {v}).card := by
  have hne : [v.1] ≠ [v.1, v.2.1] := fun h => by cases h
  unfold missing lacking pathsTo
  rw [Finset.singleton_biUnion, Finset.filter_insert, Finset.filter_singleton]
  cases has [v.1] <;> cases has [v.1, v.2.1] <;> simp [hne]

/-- Pages added one after the other take what they take together. -/
theorem card_lacking_insert (has : List Idx → Bool) (vs : Finset Vpn) (v : Vpn) :
    (lacking has (insert v vs)).card = (lacking has vs).card + missing (withPaths has vs) v := by
  rw [missing_eq_card, ← Finset.card_union_of_disjoint]
  · congr 1
    ext p
    simp only [Finset.mem_union, mem_lacking, withPaths, Finset.mem_insert, exists_eq_or_imp, Finset.mem_singleton, exists_eq_left,
      Bool.or_eq_false_iff, decide_eq_false_iff_not, Finset.mem_biUnion]
    generalize (∃ a ∈ vs, p ∈ pathsTo a) = q
    tauto
  · refine Finset.disjoint_left.mpr fun p hp hp' => ?_
    obtain ⟨hin, -⟩ := mem_lacking.mp hp
    obtain ⟨-, hout⟩ := mem_lacking.mp hp'
    unfold withPaths at hout
    rw [Bool.or_eq_false_iff, decide_eq_false_iff_not] at hout
    exact hout.2 (Finset.mem_biUnion.mpr hin)

end Paths

/-! ## A new process -/

/-- The address in the kernel's directory of the page for the signals of a process. -/
def signalPage (slot : Nat) : Nat := KERNEL_PROCESS_SIGNAL_BASE + slot * PAGE_SIZE

/-- The pages of the kernel image in an address space. -/
def imagePages : Finset Vpn := {vpn SIGNAL_TRAMPOLINE, vpn TRAPFRAME, vpn TRAMPOLINE}

/-- Pages of the kernel image are being mapped, at `vs` so far: the tables are there, if there were pages for them. -/
structure Imaging (img : Image) (dirs : Finset Ppn) (d : Ppn) (vs : Finset Vpn) (m m' : Mem) : Prop where
  inv : MemInv img m' dirs
  off : ∀ d' ∈ dirs, d' ≠ d → ∀ v, view m' d' v = view m d' v
  kernel : ∀ v e, view m' d v = some e → view m d v = some e ∨ img.Kernel (pte2Ppn e)
  rest : ∀ v, v ∉ vs → view m' d v = view m d v
  funded : (lacking (hasTable m d) vs).card ≤ m.freePageList.length →
    m.freePageList.length ≤ m'.freePageList.length + (lacking (hasTable m d) vs).card ∧
      ∀ p, p.length ≤ 2 → hasTable m' d p = withPaths (hasTable m d) vs p

/-- What `setupProcess` does to the directories. -/
structure SetUp (img : Image) (dirs : Finset Ppn) (slot : Nat) (d : Ppn) (m m' : Mem) : Prop where
  inv : MemInv img m' (insert d dirs)
  fresh : d ∉ dirs
  view : ∀ d' ∈ dirs, ∀ v, ¬ (d' = img.kernelPageDirectory ∧ v = vpn (signalPage slot)) → view m' d' v = view m d' v
  signal : ∀ e, Exaros.view m' img.kernelPageDirectory (vpn (signalPage slot)) = some e →
    Exaros.view m img.kernelPageDirectory (vpn (signalPage slot)) = some e ∨ pte2Ppn e ∈ m.freePageList
  image : ∀ v e, Exaros.view m' d v = some e → img.Kernel (pte2Ppn e)

/-- The pages `setupProcess` takes but for the tables of the new directory. -/
def setupNeeds (img : Image) (slot : Nat) (m : Mem) : Nat :=
  2 + missing (hasTable m img.kernelPageDirectory) (vpn (signalPage slot))

section Setup

variable {img : Image} {dirs : Finset Ppn} {m m₁ m' : Mem} {d pp : Ppn} {va slot : Nat} {perm : Pte} {vs : Finset Vpn} {r : Int}

theorem Imaging.refl (h : MemInv img m dirs) (d : Ppn) : Imaging img dirs d ∅ m m := by
  refine ⟨h, fun _ _ _ _ => rfl, fun _ _ he => .inl he, fun _ _ => rfl,
    fun _ => ⟨Nat.le_add_right _ _, fun p _ => ?_⟩⟩
  rw [withPaths_empty]

/-- One kernel page more is mapped. -/
theorem Imaging.step (i : Imaging img dirs d vs m m₁) (hd : d ∈ dirs) (va : Nat) (hk : img.Kernel pp)
    (hne : img.kernelPageDirectory ≠ pp) (hperm : PermOk perm) :
    ∃ r m', pageMap d va pp perm m₁ = .ok (r, m') ∧ Imaging img dirs d (insert (vpn va) vs) m m' := by
  have hus := i.inv.usable_kernel hk hne
  have hpage := pte2Ppn_touchPte hus.1 hperm
  have hcard := card_lacking_insert (hasTable m d) vs (vpn va)
  have hbudget : (lacking (hasTable m d) (insert (vpn va) vs)).card ≤ m.freePageList.length →
      m.freePageList.length ≤ m₁.freePageList.length + (lacking (hasTable m d) vs).card ∧
        missing (hasTable m₁ d) (vpn va) = missing (withPaths (hasTable m d) vs) (vpn va) ∧
        ∀ p, p.length ≤ 2 → hasTable m₁ d p = withPaths (hasTable m d) vs p := fun hle => by
    obtain ⟨hfree, hhas⟩ := i.funded (by omega)
    exact ⟨hfree, missing_congr hhas, hhas⟩
  obtain ⟨m', hm, hr, hl, htabs⟩ | ⟨m', hm, hg, -, hl⟩ := i.inv.pageMap_exact hd va hus hperm fun _ => .inl hk
  · refine ⟨0, m', hm, hr.inv, fun d' hd' hdd v => ?_, fun v e he => ?_, fun v hv => ?_, fun hle => ?_⟩
    · rw [hr.view_off hd' fun h => hdd h.1]
      exact i.off d' hd' hdd v
    · rw [hr.view d hd v] at he
      split at he
      · cases he
        rw [hpage]
        exact .inr hk
      · exact i.kernel v e he
    · rw [hr.view_off hd fun h => hv (h.2 ▸ Finset.mem_insert_self ..)]
      exact i.rest v fun h => hv (Finset.mem_insert_of_mem h)
    · obtain ⟨hfree, hmissing, hhas⟩ := hbudget hle
      refine ⟨by omega, fun p hp => ?_⟩
      rw [htabs p hp, withPaths_insert]
      unfold withPath
      rw [hhas p hp]
  · refine ⟨_, m', hm, hg.inv, fun d' hd' hdd v => ?_, fun v e he => ?_, fun v hv => ?_, fun hle => ?_⟩
    · rw [hg.view d' hd' v]
      exact i.off d' hd' hdd v
    · rw [hg.view d hd v] at he
      exact i.kernel v e he
    · rw [hg.view d hd v]
      exact i.rest v fun h => hv (Finset.mem_insert_of_mem h)
    · obtain ⟨hfree, hmissing, -⟩ := hbudget hle
      omega

/-- **`mapImage`** maps the three pages of the image. -/
theorem MemInv.mapImage_imaging (h : MemInv img m dirs) (hd : d ∈ dirs) :
    ∃ m', Exaros.mapImage img d m = .ok m' ∧ Imaging img dirs d imagePages m m' := by
  have hperm : PermOk (PTE_READ_BIT ||| PTE_WRITE_BIT ||| PTE_EXECUTE_BIT) := by decide
  have hpermU : PermOk (PTE_READ_BIT ||| PTE_WRITE_BIT ||| PTE_EXECUTE_BIT ||| PTE_USER_BIT) := by decide
  obtain ⟨r₁, m₁, h₁, i₁⟩ := (Imaging.refl h d).step hd TRAMPOLINE img.trampoline_mem img.pgdir_ne.1 hperm
  obtain ⟨r₂, m₂, h₂, i₂⟩ := i₁.step hd TRAPFRAME img.trapframe_mem img.pgdir_ne.2.1 hperm
  obtain ⟨r₃, m₃, h₃, i₃⟩ := i₂.step hd SIGNAL_TRAMPOLINE img.signalTrampoline_mem img.pgdir_ne.2.2 hpermU
  refine ⟨m₃, ?_, i₃⟩
  unfold Exaros.mapImage
  rw [h₁]
  simp only [bind, Except.bind, h₂, h₃]
  rfl

/-- A new directory leaves the tables of the others alone. -/
theorem MemInv.sameTables_allocPgdir (h : MemInv img m dirs) (ha : allocPgdir m = some (d, m')) : SameTables m m' dirs := by
  obtain ⟨⟨q, m₁⟩, hpa, heq⟩ := Option.map_eq_some_iff.mp ha
  obtain ⟨rfl, rfl⟩ := Prod.mk.inj heq
  exact (h.taken hpa).tables

theorem NewDir.setUp (n : NewDir img dirs d m m') (h : MemInv img m dirs) (slot : Nat) : SetUp img dirs slot d m m' := by
  refine ⟨n.inv, n.fresh, fun d' hd' v _ => n.view d' hd' v, fun e he => .inl ?_, fun v e he => ?_⟩
  · rw [← he]
    exact (n.view _ h.kernelDir _).symm
  · rw [n.empty v] at he
    cases he

/-- **`setupProcess`** gives the new directory pages of the kernel image only; a page that was free takes the place of the
one for the signals of the slot. With enough pages it succeeds, and the tables for the pages of the image are there. -/
theorem MemInv.setupProcess (h : MemInv img m dirs) (hok : Exaros.setupProcess img slot m = .ok (r, d, m')) :
    SetUp img dirs slot d m m' ∧
      (setupNeeds img slot m + (imagePages.biUnion pathsTo).card ≤ m.freePageList.length → r = 0 ∧
        m.freePageList.length ≤ m'.freePageList.length + setupNeeds img slot m + (imagePages.biUnion pathsTo).card ∧
        ∀ p ∈ imagePages.biUnion pathsTo, hasTable m' d p = true) := by
  unfold Exaros.setupProcess at hok
  cases hdir : allocPgdir m with
  | none =>
    rw [hdir] at hok
    cases hok
  | some x =>
    obtain ⟨d₁, m₁⟩ := x
    have n := h.newDir hdir
    have hlen₁ : m.freePageList.length = m₁.freePageList.length + 1 := by rw [n.free, List.length_cons]
    rw [hdir] at hok
    dsimp only at hok
    cases hpage : pageAlloc m₁ with
    | none =>
      rw [hpage] at hok
      cases hok
      refine ⟨n.setUp h slot, fun hle => ?_⟩
      have hnil : ¬ 0 < m'.freePageList.length := fun hpos => by
        obtain ⟨y, m₂, ha⟩ := pageAlloc_of_pos hpos
        rw [hpage] at ha
        cases ha
      unfold setupNeeds at hle
      omega
    | some x =>
      obtain ⟨y, m₂⟩ := x
      have t := n.inv.taken hpage
      have hlen₂ : m₁.freePageList.length = m₂.freePageList.length + 1 := by rw [t.free, List.length_cons]
      rw [hpage] at hok
      obtain ⟨⟨r₁, m₃⟩, hinsert, hok⟩ := Loop.bind_ok hok
      obtain ⟨m₄, himage, hok⟩ := Loop.bind_ok hok
      cases hok
      have hk : img.kernelPageDirectory ∈ insert d dirs := Finset.mem_insert_of_mem h.kernelDir
      have hkd : img.kernelPageDirectory ≠ d := fun heq => n.fresh (heq ▸ h.kernelDir)
      have hperm : PermOk (PTE_READ_BIT ||| PTE_WRITE_BIT ||| PTE_EXECUTE_BIT) := by decide
      have hsame : ∀ v, view m₂ img.kernelPageDirectory v = view m img.kernelPageDirectory v := fun v =>
        (t.view _ hk v).trans (n.view _ h.kernelDir v)
      have hmissing : missing (hasTable m₂ img.kernelPageDirectory) (vpn (signalPage slot)) =
          missing (hasTable m img.kernelPageDirectory) (vpn (signalPage slot)) := missing_congr fun p hp => by
        rw [t.tables.hasTable hk hp]
        exact (h.sameTables_allocPgdir hdir).hasTable h.kernelDir hp
      obtain ⟨hinv₃, hview₃, hsignal₃, hfree₃⟩ : MemInv img m₃ (insert d dirs) ∧
          (∀ d' ∈ insert d dirs, ∀ v, ¬ (d' = img.kernelPageDirectory ∧ v = vpn (signalPage slot)) →
            view m₃ d' v = view m₁ d' v) ∧
          (∀ e, view m₃ img.kernelPageDirectory (vpn (signalPage slot)) = some e →
            view m img.kernelPageDirectory (vpn (signalPage slot)) = some e ∨ pte2Ppn e ∈ m.freePageList) ∧
          (setupNeeds img slot m ≤ m.freePageList.length →
            m.freePageList.length ≤ m₃.freePageList.length + setupNeeds img slot m) := by
        unfold setupNeeds
        obtain ⟨m', hi, hr, hl, -⟩ | ⟨m', hi, hg, -, hl⟩ := t.inv.pageInsert_exact hk (signalPage slot) t.usable hperm
        · obtain ⟨rfl, rfl⟩ := Prod.mk.inj (Except.ok.inj (hinsert.symm.trans hi))
          refine ⟨hr.inv, fun d' hd' v hv => (hr.view_off hd' hv).trans (t.view d' hd' v), fun e he => .inr ?_, fun _ => by omega⟩
          rw [hr.view_self hk] at he
          cases he
          rw [pte2Ppn_touchPte t.usable.1 hperm, n.free]
          exact List.mem_cons_of_mem _ t.mem
        · obtain ⟨rfl, rfl⟩ := Prod.mk.inj (Except.ok.inj (hinsert.symm.trans hi))
          refine ⟨hg.inv, fun d' hd' v _ => (hg.view d' hd' v).trans (t.view d' hd' v), fun e he => .inl ?_, fun _ => by omega⟩
          rw [← he, hg.view _ hk, hsame]
      have hd : d ∈ insert d dirs := Finset.mem_insert_self ..
      obtain ⟨m₅, himage', i⟩ := hinv₃.mapImage_imaging hd
      obtain rfl : m₅ = m' := Except.ok.inj (himage'.symm.trans himage)
      refine ⟨⟨i.inv, n.fresh, fun d' hd' v hv => ?_, fun e he => ?_, fun v e he => ?_⟩, fun hle => ?_⟩
      · rw [i.off d' (Finset.mem_insert_of_mem hd') (fun heq => n.fresh (heq ▸ hd')) v, hview₃ d' (Finset.mem_insert_of_mem hd') v hv]
        exact n.view d' hd' v
      · rw [i.off _ hk hkd] at he
        exact hsignal₃ e he
      · refine (i.kernel v e he).resolve_left fun hold => ?_
        rw [hview₃ d hd v fun heq => hkd heq.1.symm, n.empty v] at hold
        cases hold
      · have hlack : (lacking (hasTable m₃ d) imagePages).card ≤ (imagePages.biUnion pathsTo).card :=
          Finset.card_le_card (Finset.filter_subset _ _)
        obtain ⟨hspent, hhas⟩ := i.funded (by omega)
        refine ⟨rfl, by omega, fun p hp => ?_⟩
        obtain ⟨v, -, hv⟩ := Finset.mem_biUnion.mp hp
        rw [hhas p (length_pathsTo hv)]
        unfold withPaths
        rw [decide_eq_true hp, Bool.or_true]

end Setup

/-! ## A copy -/

/-- The pages `processFork` copies. -/
@[irreducible] def copiedPages (m : Mem) (par : Ppn) : Finset Vpn := Finset.univ.filter fun v => ¬ Reserved v ∧ (view m par v).isSome = true

open Classical in
/-- Those of them that have been dealt with. -/
noncomputable def dealt (m : Mem) (par : Ppn) (D : Vpn → Prop) : Finset Vpn := (copiedPages m par).filter D

/-- The pages a fork takes: a directory, a page for the signals, and the tables. -/
def forkNeeds (img : Image) (slot : Nat) (par : Ppn) (m : Mem) : Nat :=
  setupNeeds img slot m + ((imagePages ∪ copiedPages m par).biUnion pathsTo).card

/-- The child has the entries of its parent at `vs`, for the tables these take. -/
structure Funded (par ch : Ppn) (m₀ : Mem) (vs : Finset Vpn) (m : Mem) : Prop where
  tables : ∀ p, p.length ≤ 2 → hasTable m ch p = withPaths (hasTable m₀ ch) vs p
  free : m₀.freePageList.length ≤ m.freePageList.length + (lacking (hasTable m₀ ch) vs).card
  full : ∀ v ∈ vs, view m ch v = (view m₀ par v).map cowMark

section Fork

variable {img : Image} {dirs : Finset Ppn} {m₀ m m' : Mem} {par ch : Ppn} {v : Vpn} {vs : Finset Vpn}

theorem mem_copiedPages : v ∈ copiedPages m par ↔ ¬ Reserved v ∧ (view m par v).isSome = true := by
  unfold copiedPages
  simp only [Finset.mem_filter, Finset.mem_univ, true_and]

theorem mem_dealt {D : Vpn → Prop} : v ∈ dealt m par D ↔ v ∈ copiedPages m par ∧ D v := by
  unfold dealt
  simp only [Finset.mem_filter]

theorem Funded.refl (par ch : Ppn) (m : Mem) : Funded par ch m ∅ m := by
  refine ⟨fun p _ => ?_, Nat.le_add_right _ _, fun v hv => absurd hv (Finset.notMem_empty v)⟩
  rw [withPaths_empty]

theorem Funded.step (f : Funded par ch m₀ vs m) (hp : Paid ch v ((view m₀ par v).map cowMark) m m') (hv : v ∉ vs) :
    Funded par ch m₀ (insert v vs) m' := by
  have hmissing := missing_congr (v := v) f.tables
  have hcard := card_lacking_insert (hasTable m₀ ch) vs v
  have hfree := f.free
  have hpaid := hp.free
  refine ⟨fun p hlen => ?_, by omega, fun w hw => ?_⟩
  · rw [hp.tables p hlen, withPaths_insert]
    unfold withPath
    rw [f.tables p hlen]
  · rw [hp.view w]
    obtain rfl | hw := Finset.mem_insert.mp hw
    · rw [if_pos rfl]
    · have hne : w ≠ v := fun heq => hv (heq ▸ hw)
      rw [if_neg hne]
      exact f.full w hw

/-- With pages for all the tables, each page of the parent that has been dealt with is the child's too. -/
theorem copies_funded (hpar : par ∈ dirs) (hch : ch ∈ dirs) (hne : par ≠ ch)
    (hk : ∀ v e, view m₀ ch v = some e → img.Kernel (pte2Ppn e))
    (hbudget : (lacking (hasTable m₀ ch) (copiedPages m₀ par)).card ≤ m₀.freePageList.length) :
    Copies dirs par ch m₀ fun D m => Copying img dirs par ch m₀ D m ∧ Funded par ch m₀ (dealt m₀ par D) m where
  skip := fun D D' m h hD hn => by
    have hsame : dealt m₀ par D' = dealt m₀ par D := by
      ext v
      rw [mem_dealt, mem_dealt]
      refine and_congr_right fun hv => ⟨fun hv' => (hn v hv').resolve_right fun hnone => ?_, hD v⟩
      have hsome := (mem_copiedPages.mp hv).2
      rw [hnone] at hsome
      cases hsome
    refine ⟨h.1.skip hD hn, ?_⟩
    rw [hsame]
    exact h.2
  todo := fun _ _ h v hv => h.1.todo v fun h' => hv h'.1
  page := fun D m v pa2 h hv ht hvalid => by
    obtain ⟨hc, hf⟩ := h
    obtain ⟨m', hm', hc', hkeep, hpaid⟩ := hc.page hpar hch hne hk hv ht hvalid
    have hsome : (view m₀ par v).isSome = true := by
      rw [← hc.todo v fun h' => hv h'.1, view_of_leafTable ht, if_pos hvalid]
      rfl
    have hnot : v ∉ dealt m₀ par D := fun h' => hv (mem_dealt.mp h').2
    refine ⟨m', hm', ⟨hc', ?_⟩, hkeep⟩
    obtain ⟨hr, rfl⟩ | ⟨hr, hpaid⟩ := hpaid
    · have hsame : dealt m₀ par (fun w => D w ∨ w = v) = dealt m₀ par D := by
        ext w
        rw [mem_dealt, mem_dealt]
        refine and_congr_right fun hw => ⟨fun h' => h'.resolve_right fun heq => ?_, Or.inl⟩
        exact (mem_copiedPages.mp hw).1 (heq ▸ hr)
      rw [hsame]
      exact hf
    · have hadd : dealt m₀ par (fun w => D w ∨ w = v) = insert v (dealt m₀ par D) := by
        ext w
        rw [mem_dealt, Finset.mem_insert, mem_dealt]
        constructor
        · intro hw
          exact hw.2.elim (fun hD => .inr ⟨hw.1, hD⟩) .inl
        · intro hw
          obtain rfl | hw := hw
          · exact ⟨mem_copiedPages.mpr ⟨hr, hsome⟩, .inr rfl⟩
          · exact ⟨hw.1, .inl hw.2⟩
      rw [hadd]
      obtain hpaid | hlt := hpaid
      · exact hf.step hpaid hnot
      · exfalso
        have hcard := card_lacking_insert (hasTable m₀ ch) (dealt m₀ par D) v
        have hmissing := missing_congr (v := v) hf.tables
        have hle : (lacking (hasTable m₀ ch) (insert v (dealt m₀ par D))).card ≤
            (lacking (hasTable m₀ ch) (copiedPages m₀ par)).card := by
          refine Finset.card_le_card (lacking_mono ?_)
          rw [← hadd]
          exact fun w hw => (mem_dealt.mp hw).1
        have hfree := hf.free
        omega

/-- **The copy of an address space** that has pages for all its tables is complete. -/
theorem MemInv.forkTables_full (h : MemInv img m₀ dirs) (hpar : par ∈ dirs) (hch : ch ∈ dirs) (hne : par ≠ ch)
    (hk : ∀ v e, view m₀ ch v = some e → img.Kernel (pte2Ppn e))
    (hbudget : (lacking (hasTable m₀ ch) (copiedPages m₀ par)).card ≤ m₀.freePageList.length) :
    ∃ m', Exaros.forkTables par ch m₀ = .ok m' ∧ Copying img dirs par ch m₀ (fun _ => True) m' ∧
      ∀ v ∈ copiedPages m₀ par, view m' ch v = (view m₀ par v).map cowMark := by
  have hstart : dealt m₀ par (fun _ => False) = ∅ :=
    Finset.eq_empty_of_forall_notMem fun v hv => (mem_dealt.mp hv).2
  obtain ⟨m', hm', hc, hf⟩ := (copies_funded hpar hch hne hk hbudget).forkTables hpar
    ⟨Copying.refl h, hstart ▸ Funded.refl par ch m₀⟩
  exact ⟨m', hm', hc, fun v hv => hf.full v (mem_dealt.mpr ⟨hv, trivial⟩)⟩

/-- What a copy lacks once the pages of the image are mapped. -/
theorem card_lacking_le {has : List Idx → Bool} (ws : Finset Vpn) (h : ∀ p ∈ vs.biUnion pathsTo, has p = true) :
    (lacking has ws).card + (vs.biUnion pathsTo).card ≤ ((vs ∪ ws).biUnion pathsTo).card := by
  rw [← Finset.card_union_of_disjoint]
  · refine Finset.card_le_card (Finset.union_subset (fun p hp => ?_) ?_)
    · obtain ⟨⟨v, hv, hin⟩, -⟩ := mem_lacking.mp hp
      exact Finset.mem_biUnion.mpr ⟨v, Finset.mem_union_right _ hv, hin⟩
    · exact Finset.biUnion_subset_biUnion_of_subset_left _ Finset.subset_union_left
  · refine Finset.disjoint_left.mpr fun p hp hp' => ?_
    have hno := (mem_lacking.mp hp).2
    rw [h p hp'] at hno
    cases hno

end Fork

/-! ## `processFork` -/

/-- What `processFork` does to memory: with `m₁` the child is set up, and unless that failed its parent's pages are
copied; with enough pages all of them are. -/
structure Forked (img : Image) (dirs : Finset Ppn) (slot : Nat) (sp child : Space) (r : Int) (m m₁ m' : Mem) : Prop where
  space : child = { sp with pgdir := child.pgdir, segmentMap := sp.segmentMap.reverse }
  setup : SetUp img dirs slot child.pgdir m m₁
  copied : r < 0 ∧ m' = m₁ ∨
    0 ≤ r ∧ Copying img (insert child.pgdir dirs) sp.pgdir child.pgdir m₁ (fun _ => True) m'
  full : sp.pgdir ≠ img.kernelPageDirectory → forkNeeds img slot sp.pgdir m ≤ m.freePageList.length →
    0 ≤ r ∧ ∀ v ∈ copiedPages m sp.pgdir, view m' child.pgdir v = (view m sp.pgdir v).map cowMark

section Process

variable {img : Image} {dirs : Finset Ppn} {m m₁ m' : Mem} {slot : Nat} {sp child : Space} {r : Int}

theorem SetUp.copiedPages {d par : Ppn} (s : SetUp img dirs slot d m m') (hpar : par ∈ dirs)
    (hne : par ≠ img.kernelPageDirectory) : Exaros.copiedPages m' par = Exaros.copiedPages m par := by
  ext v
  rw [mem_copiedPages, mem_copiedPages, s.view par hpar v fun h => hne h.1]

theorem Forked.inv (f : Forked img dirs slot sp child r m m₁ m') : MemInv img m' (insert child.pgdir dirs) := by
  obtain ⟨-, rfl⟩ | ⟨-, hc⟩ := f.copied
  · exact f.setup.inv
  · exact hc.inv

/-- **`processFork`** sets up a child and copies the parent's pages. -/
theorem MemInv.forkSpace (h : MemInv img m dirs) (hpar : sp.pgdir ∈ dirs)
    (hok : Exaros.forkSpace img slot sp m = .ok (r, child, m')) : ∃ m₁, Forked img dirs slot sp child r m m₁ m' := by
  obtain ⟨⟨r₁, d, m₁⟩, hsetup, hok⟩ := Loop.bind_ok hok
  obtain ⟨s, hfunded⟩ := h.setupProcess hsetup
  dsimp only at hok
  have hsub : (imagePages.biUnion pathsTo).card ≤ ((imagePages ∪ Exaros.copiedPages m sp.pgdir).biUnion pathsTo).card :=
    Finset.card_le_card (Finset.biUnion_subset_biUnion_of_subset_left _ Finset.subset_union_left)
  split at hok
  · rename_i hneg
    cases hok
    refine ⟨m', rfl, s, .inl ⟨hneg, rfl⟩, fun _ hle => ?_⟩
    unfold forkNeeds at hle
    obtain ⟨rfl, -⟩ := hfunded (by omega)
    exact absurd hneg (by decide)
  · obtain ⟨m₂, hcopy, hok⟩ := Loop.bind_ok hok
    cases hok
    have hpar' : sp.pgdir ∈ insert d dirs := Finset.mem_insert_of_mem hpar
    have hd : d ∈ insert d dirs := Finset.mem_insert_self ..
    have hne : sp.pgdir ≠ d := fun heq => s.fresh (heq ▸ hpar)
    obtain ⟨m₃, hcopy', hc⟩ := s.inv.forkTables hpar' hd hne s.image
    obtain rfl : m₃ = m' := Except.ok.inj (hcopy'.symm.trans hcopy)
    refine ⟨m₁, rfl, s, .inr ⟨Int.le_refl 0, hc⟩, fun hkernel hle => ⟨Int.le_refl 0, ?_⟩⟩
    unfold forkNeeds at hle
    obtain ⟨-, hspent, hhas⟩ := hfunded (by omega)
    have hlack := card_lacking_le (Exaros.copiedPages m sp.pgdir) hhas
    obtain ⟨m₄, hcopy'', -, hfull⟩ := s.inv.forkTables_full hpar' hd hne s.image
      (by rw [s.copiedPages hpar hkernel]; omega)
    obtain rfl : m₄ = m₃ := Except.ok.inj (hcopy''.symm.trans hcopy)
    rw [s.copiedPages hpar hkernel] at hfull
    intro v hv
    rw [← s.view _ hpar v fun h => hkernel h.1]
    exact hfull v hv

end Process

end Exaros
