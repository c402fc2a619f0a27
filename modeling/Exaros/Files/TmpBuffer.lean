import Exaros.Files.Buffers
import Exaros.Files.Table
import Exaros.Memory.Access

/-!
# The buffer of a temporary file

`tmpfileAlloc` and `tmpfileClose` (`kernel/fs/tmpfile.c`) put the 16 pages of a slot into the kernel's page directory and take them out
again. `tmpfileAlloc` does not look at what `pageInsert` returns: where it fails no page is left, so the next `pageAlloc` panics, and
the pages after the first need no table.
-/

namespace Exaros.Tmpfiles

open Loop

def TMPFILE_BUFFER_BASE : Nat := SHM_BASE - (1 <<< 30)
def TMPFILE_SHIFT : Nat := 16

inductive Halt
  /-- `tmpfileAlloc`: "run out memory for the tmpfile" -/
  | noPage
  | memory (e : Panic)
  | buffer (e : Pipes.Halt)
  | files (e : Files.Halt)

/-- `getTmpfileBufferBase(&tmpfiles[t]) + (j << PAGE_SHIFT)` -/
def bufferPage (t j : Nat) : Nat := TMPFILE_BUFFER_BASE + (t <<< TMPFILE_SHIFT) + (j <<< PAGE_SHIFT)

def mapPage (img : Image) (t : Nat) (m : Mem) (j : Nat) : Except Halt Mem :=
  match pageAlloc m with
  | none => .error .noPage
  | some (page, m) =>
    ((pageInsert img.kernelPageDirectory (bufferPage t j) page (PTE_READ_BIT ||| PTE_WRITE_BIT) m).mapError Halt.memory).map (·.2)

/-- The pages of `tmpfileAlloc`. -/
def mapBuffer (img : Image) (t : Nat) (m : Mem) : Except Halt Mem := (List.range 16).foldlM (mapPage img t) m

def unmapPage (img : Image) (t : Nat) (m : Mem) (j : Nat) : Except Halt Mem :=
  ((pageRemove img.kernelPageDirectory (bufferPage t j) m).mapError Halt.memory).map (·.2)

/-- The pages of `tmpfileClose`. -/
def unmapBuffer (img : Image) (t : Nat) (m : Mem) : Except Halt Mem := (List.range 16).foldlM (unmapPage img t) m

/-- The kernel's entry for page `j` of slot `t`. -/
def entry (img : Image) (m : Mem) (t j : Nat) : Option Pte := view m img.kernelPageDirectory (vpn (bufferPage t j))

/-- The first `n` pages of slot `t` have been gone through: their entries meet `P`, no other entry has changed. -/
structure Through (img : Image) (dirs : Finset Ppn) (P : Option Pte → Prop) (t n : Nat) (m m' : Mem) : Prop where
  inv : MemInv img m' dirs
  on : ∀ j < n, P (entry img m' t j)
  off : ∀ d ∈ dirs, ∀ v, (∀ j < n, ¬ (d = img.kernelPageDirectory ∧ v = vpn (bufferPage t j))) → view m' d v = view m d v

section Buffer

variable {img : Image} {dirs : Finset Ppn} {P : Option Pte → Prop} {t u n i j : Nat} {m m₁ m' : Mem} {new : Option Pte}

theorem bufferPage_eq (t j : Nat) : bufferPage t j = 0xEC0000 * PAGE_SIZE + (16 * t + j) * PAGE_SIZE := by
  unfold bufferPage
  rw [Nat.shiftLeft_eq, Nat.shiftLeft_eq, show TMPFILE_BUFFER_BASE = 0xEC0000 * PAGE_SIZE by decide]
  unfold TMPFILE_SHIFT PAGE_SHIFT PAGE_SIZE
  omega

/-- Pages of slots lie apart. -/
theorem vpn_bufferPage_eq (ht : t < 128) (hu : u < 128) (hi : i < 16) (hj : j < 16)
    (h : vpn (bufferPage t i) = vpn (bufferPage u j)) : t = u ∧ i = j := by
  have hlt : ∀ t j, t < 128 → j < 16 → bufferPage t j < VA_MAX := fun t j ht hj => by
    rw [bufferPage_eq, show VA_MAX = 0x4000000 * PAGE_SIZE by decide, ← Nat.add_mul]
    exact Nat.mul_lt_mul_of_pos_right (by omega) (by decide)
  have hdiv := (vpn_eq_iff (hlt t i ht hi) (hlt u j hu hj)).mp h
  have hpages : ∀ t j, bufferPage t j / PAGE_SIZE = 0xEC0000 + (16 * t + j) := fun t j => by
    rw [bufferPage_eq, ← Nat.add_mul, Nat.mul_div_cancel _ (by decide)]
  rw [hpages, hpages] at hdiv
  omega

/-- The pages of one slot share a table. -/
theorem leafTable_bufferPage (m : Mem) (d : Ppn) (hj : j < 16) :
    leafTable m d (vpn (bufferPage t j)) = leafTable m d (vpn (bufferPage t 0)) := by
  have hsame : ∀ k, 21 ≤ k → bufferPage t j >>> k = bufferPage t 0 >>> k := fun k hk => by
    obtain ⟨r, rfl⟩ : ∃ r, k = 21 + r := ⟨k - 21, by omega⟩
    rw [Nat.shiftRight_add, Nat.shiftRight_add]
    congr 1
    rw [Nat.shiftRight_eq_div_pow, Nat.shiftRight_eq_div_pow, bufferPage_eq, bufferPage_eq]
    unfold PAGE_SIZE
    omega
  have hlevel : ∀ level, 1 ≤ level → vaPpn (bufferPage t j) level = vaPpn (bufferPage t 0) level := fun level hlevel => by
    unfold vaPpn
    congr 2
    exact hsame _ (by unfold PAGE_SHIFT; omega)
  unfold leafTable vpn
  rw [hlevel 2 (by omega), hlevel 1 le_rfl]

theorem Through.start (h : MemInv img m dirs) : Through img dirs P t 0 m m :=
  ⟨h, fun j hj => absurd hj (Nat.not_lt_zero j), fun _ _ _ _ => rfl⟩

/-- The entry of the next page becomes `new`. -/
theorem Through.next (h : Through img dirs P t n m m₁) (ht : t < 128) (hn : n < 16)
    (c : Change img dirs img.kernelPageDirectory (vpn (bufferPage t n)) new m₁ m') (hnew : P new) :
    Through img dirs P t (n + 1) m m' where
  inv := c.inv
  on := fun j hj => by
    have hk := h.inv.kernelDir
    by_cases heq : j = n
    · subst heq
      unfold entry
      rw [c.view_self hk]
      exact hnew
    · have hlt : j < n := by omega
      unfold entry
      rw [c.view_off hk fun hsame => heq (vpn_bufferPage_eq ht ht (by omega) hn hsame.2).2]
      exact h.on j hlt
  off := fun d hd v hout => by
    rw [c.view_off hd (hout n (Nat.lt_succ_self n)), h.off d hd v fun j hj => hout j (Nat.lt_succ_of_lt hj)]

/-! ### Mapping -/

/-- One page is mapped, or there is no page for its table, and none left at all. -/
theorem mapPage_ok (h : MemInv img m dirs) (hv : entry img m t j = none) (hok : mapPage img t m j = .ok m') :
    (∃ e, Change img dirs img.kernelPageDirectory (vpn (bufferPage t j)) (some e) m m') ∨
      leafTable m img.kernelPageDirectory (vpn (bufferPage t j)) = none ∧ m'.freePageList = [] := by
  have hk := h.kernelDir
  unfold mapPage at hok
  split at hok
  · cases hok
  · rename_i page m₁ ha
    have tk := h.taken ha
    obtain ⟨r, hins, rfl⟩ := map_ok hok
    have hins := mapError_ok hins
    have hv₁ : view m₁ img.kernelPageDirectory (vpn (bufferPage t j)) = none := (tk.view _ hk _).trans hv
    rw [pageInsert_absent hv₁] at hins
    unfold pageInsertNew at hins
    obtain ⟨t', m₂, hw, g, ht, -⟩ | ⟨m₂, hw, -, hnone, hempty, -⟩ := pageWalk_exact tk.inv hk (bufferPage t j)
    · rw [hw] at hins
      cases hins
      have hperm : PermOk (PTE_READ_BIT ||| PTE_WRITE_BIT) := by decide
      have hr := g.remap (remap_touch g.inv hk ht ((g.view _ hk _).trans hv₁) (g.usable tk.usable) hperm) hk
      exact .inl ⟨_, (Quiet.change ⟨tk.inv, tk.view⟩ hr.change)⟩
    · rw [hw] at hins
      cases hins
      refine .inr ⟨?_, hempty⟩
      rw [← tk.tables.leafTable hk]
      exact hnone

theorem mapPage_empty (h : m.freePageList = []) : mapPage img t m j = .error .noPage := by
  unfold mapPage pageAlloc
  rw [h]

/-- **`tmpfileAlloc` maps all 16 pages**, if it returns. -/
theorem mapBuffer_ok (h : MemInv img m dirs) (ht : t < 128) (hv : ∀ j < 16, entry img m t j = none)
    (hok : mapBuffer img t m = .ok m') : Through img dirs (fun e => e.isSome = true) t 16 m m' := by
  have hk := h.kernelDir
  have hrun : ∀ n ≤ 16, ∀ m', (List.range n).foldlM (mapPage img t) m = .ok m' →
      Through img dirs (fun e => e.isSome = true) t n m m' ∨ n = 1 ∧ m'.freePageList = [] := fun n => by
    induction n with
    | zero =>
      intro _ m' hok
      cases hok
      exact .inl (Through.start h)
    | succ n ih =>
      intro hn m' hok
      obtain ⟨m₁, hfirst, hlast⟩ := foldlM_range_succ hok
      rcases ih (by omega) m₁ hfirst with hth | ⟨-, hempty⟩
      · have hnone : entry img m₁ t n = none := by
          unfold entry
          rw [hth.off _ hk _ fun j hj hsame => absurd (vpn_bufferPage_eq ht ht (by omega) (by omega) hsame.2).2 (by omega)]
          exact hv n (by omega)
        rcases mapPage_ok hth.inv hnone hlast with ⟨e, hc⟩ | ⟨hleaf, hempty⟩
        · exact .inl (hth.next ht (by omega) hc rfl)
        · refine .inr ⟨?_, hempty⟩
          -- a page that is there already has the table
          by_contra hne
          obtain ⟨e, he⟩ := Option.isSome_iff_exists.mp (hth.on 0 (by omega))
          obtain ⟨t', ht', -⟩ := leafTable_of_view he
          rw [leafTable_bufferPage m₁ _ (by omega), ht'] at hleaf
          cases hleaf
      · rw [mapPage_empty hempty] at hlast
        cases hlast
  rcases hrun 16 le_rfl m' hok with hth | ⟨habs, -⟩
  · exact hth
  · exact absurd habs (by decide)

/-- There are pages enough. -/
theorem mapPage_exists (h : MemInv img m dirs) (t j : Nat) (hlen : 3 ≤ m.freePageList.length) :
    ∃ m' e, mapPage img t m j = .ok m' ∧ Change img dirs img.kernelPageDirectory (vpn (bufferPage t j)) (some e) m m' ∧
      m.freePageList.length ≤ m'.freePageList.length + 3 := by
  obtain ⟨y, m₁, ha⟩ := pageAlloc_of_pos (by omega : 0 < m.freePageList.length)
  have hperm : PermOk (PTE_READ_BIT ||| PTE_WRITE_BIT) := by decide
  rcases h.insertFresh h.kernelDir (bufferPage t j) ha (m₁.ram y) hperm with ⟨m', hi, hf, hl⟩ | ⟨m', -, -, -, hl⟩
  · rw [setPage_self] at hi
    refine ⟨m', _, ?_, hf.change, hl⟩
    unfold mapPage
    rw [ha]
    simp only [hi]
    rfl
  · omega

theorem mapBuffer_exists (h : MemInv img m dirs) (ht : t < 128) (hlen : 48 ≤ m.freePageList.length) :
    ∃ m', mapBuffer img t m = .ok m' ∧ Through img dirs (fun e => e.isSome = true) t 16 m m' := by
  have hrun : ∀ n ≤ 16, ∃ m', (List.range n).foldlM (mapPage img t) m = .ok m' ∧
      Through img dirs (fun e => e.isSome = true) t n m m' ∧ m.freePageList.length ≤ m'.freePageList.length + 3 * n := fun n => by
    induction n with
    | zero => exact fun _ => ⟨m, rfl, Through.start h, le_rfl⟩
    | succ n ih =>
      intro hn
      obtain ⟨m₁, hrun, hth, hl⟩ := ih (by omega)
      obtain ⟨m', e, hok, hc, hl'⟩ := mapPage_exists hth.inv t n (by omega)
      refine ⟨m', ?_, hth.next ht (by omega) hc rfl, by omega⟩
      rw [List.range_succ, List.foldlM_append, hrun, ok_bind, List.foldlM_cons, hok]
      rfl
  obtain ⟨m', hok, hth, -⟩ := hrun 16 le_rfl
  exact ⟨m', hok, hth⟩

/-! ### Unmapping -/

theorem unmapPage_ok (h : MemInv img m dirs) (t j : Nat) :
    ∃ m', unmapPage img t m j = .ok m' ∧ Change img dirs img.kernelPageDirectory (vpn (bufferPage t j)) none m m' := by
  have hk := h.kernelDir
  unfold unmapPage
  cases hv : view m img.kernelPageDirectory (vpn (bufferPage t j)) with
  | none =>
    rw [pageRemove_none hv]
    refine ⟨m, rfl, h, fun d hd v => ?_⟩
    split
    · rename_i hsame
      rw [hsame.1, hsame.2, hv]
    · rfl
  | some e =>
    obtain ⟨m', hok, hr, -⟩ := h.pageRemove_some hk hv
    rw [hok]
    exact ⟨m', rfl, hr.change⟩

/-- **`tmpfileClose`** returns, and no page of the slot is mapped. -/
theorem unmapBuffer_ok (h : MemInv img m dirs) (ht : t < 128) :
    ∃ m', unmapBuffer img t m = .ok m' ∧ Through img dirs (fun e => e = none) t 16 m m' := by
  have hrun : ∀ n ≤ 16, ∃ m', (List.range n).foldlM (unmapPage img t) m = .ok m' ∧
      Through img dirs (fun e => e = none) t n m m' := fun n => by
    induction n with
    | zero => exact fun _ => ⟨m, rfl, Through.start h⟩
    | succ n ih =>
      intro hn
      obtain ⟨m₁, hrun, hth⟩ := ih (by omega)
      obtain ⟨m', hok, hc⟩ := unmapPage_ok hth.inv t n
      refine ⟨m', ?_, hth.next ht (by omega) hc rfl⟩
      rw [List.range_succ, List.foldlM_append, hrun, ok_bind, List.foldlM_cons, hok]
      rfl
  exact hrun 16 le_rfl

/-- The entries of another slot. -/
theorem Through.entry_ne (h : Through img dirs P t 16 m m') (hk : img.kernelPageDirectory ∈ dirs) (ht : t < 128) (hu : u < 128)
    (hne : u ≠ t) (hj : j < 16) : entry img m' u j = entry img m u j :=
  h.off _ hk _ fun _ hi hsame => hne (vpn_bufferPage_eq hu ht hj hi hsame.2).1

end Buffer

/-! ## Reads and writes -/

/-- Only the directory `d` shows a difference. -/
structure Aside (img : Image) (dirs : Finset Ppn) (d : Ppn) (m m' : Mem) : Prop where
  inv : MemInv img m' dirs
  view : ∀ d' ∈ dirs, d' ≠ d → ∀ v, view m' d' v = view m d' v

section Aside

open Buffers Pipes

variable {img : Image} {dirs : Finset Ppn} {d : Ppn} {m m₁ m' : Mem} {ld : Loader} {src : Buffers.Source} {va cowVa pa addr n i left : Nat}
  {σ : Type} {s s' : σ}

theorem Aside.refl (h : MemInv img m dirs) (d : Ppn) : Aside img dirs d m m := ⟨h, fun _ _ _ _ => rfl⟩

theorem Aside.trans (h : Aside img dirs d m m₁) (h' : Aside img dirs d m₁ m') : Aside img dirs d m m' :=
  ⟨h'.inv, fun d' hd' hne v => (h'.view d' hd' hne v).trans (h.view d' hd' hne v)⟩

theorem Change.aside {v : Vpn} {new : Option Pte} (c : Change img dirs d v new m m') : Aside img dirs d m m' :=
  ⟨c.inv, fun _ hd' hne _ => c.view_off hd' fun hsame => hne hsame.1⟩

/-- `passiveAlloc` returns an address in a page that is no table. -/
theorem passiveAlloc_aside {segs : List SegmentMap} {data : Idx → BitVec 64} (h : MemInv img m dirs) (hd : d ∈ dirs)
    (hok : passiveAlloc segs data d va m = .ok (pa, m')) :
    Aside img dirs d m m' ∧ ¬ IsTable m' dirs (pa / PAGE_SIZE) := by
  rcases h.passiveAlloc_spec hd hok with ⟨e, hf, -, rfl, -⟩ | ⟨hu, -, hnt⟩
  · refine ⟨Change.aside hf.change, ?_⟩
    have hoff : vaOffset va < PAGE_SIZE := Nat.mod_lt _ (by decide)
    rw [page_add_div hoff]
    exact (hf.change.inv.leaf d hd _ e (hf.change.view_self hd)).2.1
  · exact ⟨⟨hu.quiet.inv, fun d' hd' _ v => hu.quiet.view d' hd' v⟩, hnt⟩

theorem liftMem_ok {α : Type} {x : Except Panic α} {a : α} (h : liftMem x = .ok a) : x = .ok a := by
  cases x with
  | ok b =>
    cases h
    rfl
  | error e => cases h

theorem writePage_aside (h : MemInv img m dirs) (hd : d ∈ dirs) (hok : writePage ld d va cowVa m = .ok (pa, m')) :
    Aside img dirs d m m' := by
  unfold writePage at hok
  split at hok
  · exact (passiveAlloc_aside h hd (liftMem_ok hok)).1
  · obtain ⟨e, y, hc⟩ := h.cowHandler hd (liftMem_ok hok)
    exact ⟨hc.inv, fun d' hd' hne v => by rw [hc.view d' hd' v, if_neg fun hsame => hne hsame.1]⟩
  · cases hok
    exact Aside.refl h d

theorem writeLoop_aside {put : UInt8 → σ → Except Pipes.Halt σ} {touched : List Nat} (h : MemInv img m dirs) (hd : d ∈ dirs)
    (hok : writeLoop put src true d addr left i pa s m = .ok (s', m', touched)) : Aside img dirs d m m' := by
  induction left generalizing i pa s m touched with
  | zero =>
    cases hok
    exact Aside.refl h d
  | succ left ih =>
    obtain ⟨s₁, -, hok⟩ := bind_ok hok
    dsimp only at hok
    split at hok
    · obtain ⟨⟨pa₁, m₁⟩, hpage, hok⟩ := bind_ok hok
      obtain ⟨⟨s₂, m₂, touched₂⟩, hrest, hok⟩ := bind_ok hok
      cases hok
      have hfirst := writePage_aside h hd hpage
      exact hfirst.trans (ih hfirst.inv hrest)
    · exact ih h hok

/-- **`tmpfileWrite`** and memory. -/
theorem writeFrom_aside {put : UInt8 → σ → Except Pipes.Halt σ} {touched : List Nat} (h : MemInv img m dirs) (hd : d ∈ dirs)
    (hok : writeFrom put src true d addr n s m = .ok (s', m', touched)) : Aside img dirs d m m' := by
  unfold writeFrom at hok
  rw [if_pos rfl] at hok
  obtain ⟨⟨pa₁, m₁⟩, hpage, hok⟩ := bind_ok hok
  obtain ⟨⟨s₂, m₂, touched₂⟩, hrest, hok⟩ := bind_ok hok
  cases hok
  have hfirst := writePage_aside h hd hpage
  exact hfirst.trans (writeLoop_aside hfirst.inv hd hrest)

theorem passiveAlloc_offset {segs : List SegmentMap} {data : Idx → BitVec 64}
    (hok : passiveAlloc segs data d va m = .ok (pa, m')) : pa % PAGE_SIZE = va % PAGE_SIZE := by
  have hoff : vaOffset va < PAGE_SIZE := Nat.mod_lt _ (by decide)
  unfold passiveAlloc at hok
  split at hok
  · split at hok
    · cases hok
    · obtain ⟨⟨r, m₁⟩, -, hok⟩ := bind_ok hok
      dsimp only at hok
      split at hok
      · cases hok
      · cases hok
        exact page_add_mod hoff
  · split at hok
    · cases hok
    · split at hok
      · cases hok
      · obtain ⟨⟨r, m₁⟩, -, hok⟩ := bind_ok hok
        cases hok
        exact page_add_mod hoff

/-- `readPage` returns an address in a page that is no table, at the offset of `va`. -/
theorem readPage_aside (h : MemInv img m dirs) (hd : d ∈ dirs) (hok : readPage ld d va m = .ok (pa, m')) :
    Aside img dirs d m m' ∧ ¬ IsTable m' dirs (pa / PAGE_SIZE) ∧ pa % PAGE_SIZE = va % PAGE_SIZE := by
  unfold readPage at hok
  split at hok
  · obtain ⟨haside, hnt⟩ := passiveAlloc_aside h hd (liftMem_ok hok)
    exact ⟨haside, hnt, passiveAlloc_offset (liftMem_ok hok)⟩
  · rename_i hfound
    cases hok
    obtain ⟨-, e, hv, -, rfl, -⟩ := va2PA_eq_some hfound
    have hoff : vaOffset va < PAGE_SIZE := Nat.mod_lt _ (by decide)
    refine ⟨Aside.refl h d, ?_, page_add_mod hoff⟩
    rw [page_add_div hoff]
    exact (h.leaf d hd _ e hv).2.1

theorem storeByte_aside (h : MemInv img m dirs) (d : Ppn) (ch : UInt8) (hnt : ¬ IsTable m dirs (pa / PAGE_SIZE)) :
    Aside img dirs d m (storeByte m pa ch) := by
  have hoff : ∀ q, q ≠ pa / PAGE_SIZE → (storeByte m pa ch).ram q = m.ram q := fun q hq => by
    exact ram_write_off m _ _ hq
  exact ⟨(kept_storeByte ch hnt).inv h, fun d' hd' _ v => view_fill hnt hoff hd' v⟩

/-- Within a page the address runs along with the one it translates. -/
theorem readLoop_aside {take : σ → Option (UInt8 × σ)} {r : Nat} (h : MemInv img m dirs) (hd : d ∈ dirs)
    (hnt : ¬ IsTable m dirs (pa / PAGE_SIZE)) (hpa : pa % PAGE_SIZE = (addr + i) % PAGE_SIZE)
    (hok : readLoop take src true d addr left i pa s m = .ok (r, s', m')) : Aside img dirs d m m' := by
  induction left generalizing i pa s m with
  | zero =>
    cases hok
    exact Aside.refl h d
  | succ left ih =>
    unfold readLoop at hok
    split at hok
    · cases hok
      exact Aside.refl h d
    · rename_i ch s₁ _
      have hstore := storeByte_aside h d ch hnt
      have hva : u64 (addr + (i + 1)) % PAGE_SIZE = (addr + (i + 1)) % PAGE_SIZE :=
        Nat.mod_mod_of_dvd _ (by decide)
      dsimp only at hok
      split at hok
      · obtain ⟨⟨pa₁, m₁⟩, hpage, hok⟩ := bind_ok hok
        obtain ⟨hpageAside, hnt₁, hpa₁⟩ := readPage_aside hstore.inv hd hpage
        exact (hstore.trans hpageAside).trans (ih hpageAside.inv hnt₁ (hpa₁.trans hva) hok)
      · rename_i hinner
        have hinner : (addr + (i + 1)) % PAGE_SIZE ≠ 0 := fun hzero => hinner ⟨rfl, hva.trans hzero⟩
        have hsame : (pa + 1) / PAGE_SIZE = pa / PAGE_SIZE ∧ (pa + 1) % PAGE_SIZE = (addr + (i + 1)) % PAGE_SIZE := by
          unfold PAGE_SIZE at *
          omega
        refine hstore.trans (ih hstore.inv ?_ hsame.2 hok)
        rw [hsame.1]
        exact mt (isTable_storeByte ch hnt _).mp hnt

/-- **`tmpfileRead`** and memory. -/
theorem readInto_aside {take : σ → Option (UInt8 × σ)} {r : Nat} (h : MemInv img m dirs) (hd : d ∈ dirs)
    (hok : readInto take src true d addr n s m = .ok (r, s', m')) : Aside img dirs d m m' := by
  unfold readInto at hok
  rw [if_pos rfl] at hok
  obtain ⟨⟨pa₁, m₁⟩, hpage, hok⟩ := bind_ok hok
  obtain ⟨hfirst, hnt, hpa⟩ := readPage_aside h hd hpage
  exact hfirst.trans (readLoop_aside hfirst.inv hd hnt hpa hok)

end Aside

end Exaros.Tmpfiles
