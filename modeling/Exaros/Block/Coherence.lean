import Exaros.Block.Lru
import Mathlib.Data.Set.Card
import Mathlib.Data.FinEnum

/-!
# Coherence of the block cache

A `bread` on one disk should return what was last passed to `bwrite` for its block. The VIRT build
writes through, so it does. The SD build's `bwrite` is empty ("也就是根本不写回"): what was written
lives as long as its buffer, and `bread_lastWritten` says exactly when a read still gets it.
-/

namespace Exaros.Block

/-- What was last passed to `bwrite` for a block, or the disk's first contents. -/
def lastWritten (disk : UInt32 → Sector) : List Event → UInt32 → Sector
  | [], blockno => disk blockno
  | .bwrite bn _ data :: tr, blockno => if bn = blockno then data else lastWritten disk tr blockno
  | _ :: tr, blockno => lastWritten disk tr blockno

/-- The blocks of a group that clients hold. -/
def heldBlocks (tr : List Event) (g : UInt32) : Set UInt32 := { blockno | groupOf blockno = g ∧ ∃ b, 0 < held tr blockno b }

/-- The build writes through, or the block has not left the cache, or there is nothing to lose. -/
def Kept (build : Build) (disk : UInt32 → Sector) (tr : List Event) (s : Store) (dev : Int) (blockno : UInt32) : Prop :=
  build = .virt ∨ (∃ b ∈ bufs (groupOf blockno), Carries s.cache dev blockno b ∧ (s.cache b).valid) ∨
    lastWritten disk tr blockno = disk blockno

/-- Runs on one disk whose reads all find their block kept. -/
def KeptRuns (build : Build) (disk : UInt32 → Sector) (dev : Int) : List Event → Store → Prop :=
  Runs build disk fun tr s d blockno => d = dev ∧ Counted tr s d blockno ∧ Kept build disk tr s d blockno

structure Coherent (build : Build) (disk : UInt32 → Sector) (dev : Int) (tr : List Event) (s : Store) : Prop where
  inv : Inv tr s.cache
  dev : ∀ b, handedOut tr b → (s.cache b).dev = dev
  data : ∀ b, handedOut tr b → (s.cache b).data = lastWritten disk tr (s.cache b).blockno
  virt : build = .virt → ∀ blockno, s.disk blockno = lastWritten disk tr blockno
  sd : build = .sd → s.disk = disk

variable {build : Build} {disk : UInt32 → Sector} {dev : Int} {tr : List Event} {s s' : Store} {blockno : UInt32} {p : Ptr}

/-- A valid buffer was handed out. -/
theorem Inv.handedOut_of_valid {b : Ptr} (h : Inv tr s.cache) (hv : (s.cache b).valid) : handedOut tr b := by
  by_contra hno
  rw [(h.fresh b hno).2.2] at hv
  simp at hv

/-- What a `bread` returns: the cached data if a buffer was handed out for the block, else the disk's. -/
theorem Coherent.bread_data (h : Coherent build disk dev tr s) (hdev : 0 ≤ dev)
    (hr : bread build dev blockno s = .ok (p, s')) :
    ((∃ b, handedOut tr b ∧ Carries s.cache dev blockno b) ∧ (s'.cache p).data = lastWritten disk tr blockno) ∨
      ((∀ b, handedOut tr b → ¬ Carries s.cache dev blockno b) ∧ (s'.cache p).data = s.disk blockno) := by
  obtain ⟨l, hl, _⟩ := h.inv.rings _ (groupOf_lt blockno)
  have hlook := bread_lookup build hdev hl
  rw [hr] at hlook
  cases hlook with
  | hit _ l₁ l₂ _ hsplit hp hbefore hg =>
    by_cases hpo : handedOut tr p
    · refine .inl ⟨⟨p, hpo, hp⟩, ?_⟩
      rw [hg.self, (h.inv.out p hpo).2, if_pos rfl, h.data p hpo, hp.2]
    · refine .inr ⟨fun b hb hc => ?_, ?_⟩
      · -- a lookup finds the buffer that was handed out
        obtain ⟨s₁, hs₁⟩ := h.inv.found build hb
        rw [hc.1, hc.2, hr] at hs₁
        simp only [Except.ok.injEq, Prod.mk.injEq] at hs₁
        exact hpo (hs₁.1 ▸ hb)
      · rw [hg.self, (h.inv.fresh p hpo).2.2]
        rfl
  | miss _ l₁ l₂ _ hnone hsplit hfree hafter hg =>
    refine .inr ⟨fun b hb hc => hnone b (h.inv.mem_of_carries hl hb hc) hc, ?_⟩
    rw [hg.self]

/-- A `bread` returns the last write exactly when the block was kept. -/
theorem Coherent.bread_iff (h : Coherent build disk dev tr s) (hdev : 0 ≤ dev)
    (hr : bread build dev blockno s = .ok (p, s')) :
    (s'.cache p).data = lastWritten disk tr blockno ↔ Kept build disk tr s dev blockno := by
  rcases h.bread_data hdev hr with ⟨⟨b, hb, hc⟩, hdata⟩ | ⟨hnone, hdata⟩
  · refine ⟨fun _ => .inr (.inl ⟨b, ?_, hc, (h.inv.out b hb).2⟩), fun _ => hdata⟩
    have := (h.inv.out b hb).1
    rwa [hc.2] at this
  · rw [hdata]
    constructor
    · intro heq
      cases build with
      | virt => exact .inl rfl
      | sd =>
        rw [h.sd rfl] at heq
        exact .inr (.inr heq.symm)
    · rintro (hv | ⟨b, -, hc, hv⟩ | hsame)
      · exact h.virt hv blockno
      · exact (hnone b (h.inv.handedOut_of_valid hv) hc).elim
      · cases build with
        | virt => exact h.virt rfl blockno
        | sd => rw [h.sd rfl, hsame]

/-! ## Every step keeps it -/

theorem coherent_binit : Coherent build disk dev [] ⟨binit bss, disk⟩ :=
  ⟨inv_binit, fun _ hb => hb.elim, fun _ hb => hb.elim, fun _ _ => rfl, fun _ => rfl⟩

/-- `bread` never touches the disk, and gives its buffer to the pair asked for. -/
theorem Inv.bread_given (h : Inv tr s.cache) (hdev : 0 ≤ dev) (hr : Block.bread build dev blockno s = .ok (p, s')) :
    ∃ refcnt data, Given s p dev blockno refcnt data s' := by
  obtain ⟨l, hl, _⟩ := h.rings _ (groupOf_lt blockno)
  have hlook := bread_lookup build hdev hl
  rw [hr] at hlook
  cases hlook with
  | hit _ _ _ _ _ _ _ hg => exact ⟨_, _, hg⟩
  | miss _ _ _ _ _ _ _ _ hg => exact ⟨_, _, hg⟩

theorem Coherent.bread (h : Coherent build disk dev tr s) (hdev : 0 ≤ dev) (hcount : Counted tr s dev blockno)
    (hkept : Kept build disk tr s dev blockno) (hr : Block.bread build dev blockno s = .ok (p, s')) :
    Coherent build disk dev (.bread dev blockno p :: tr) s' := by
  obtain ⟨refcnt, data, hg⟩ := h.inv.bread_given hdev hr
  have hdata := (h.bread_iff hdev hr).mpr hkept
  refine ⟨h.inv.bread hdev hcount hr, fun b hb => ?_, fun b hb => ?_, fun hv bn => ?_, fun hs => ?_⟩
  · by_cases hbp : b = p
    · rw [hbp, hg.self]
    · rw [hg.other b hbp]
      exact h.dev b (hb.resolve_left fun e => hbp e.symm)
  · by_cases hbp : b = p
    · rw [hbp, hdata, hg.self]
      rfl
    · rw [hg.other b hbp]
      exact h.data b (hb.resolve_left fun e => hbp e.symm)
  · rw [hg.disk]
    exact h.virt hv bn
  · rw [hg.disk]
    exact h.sd hs

/-- What goes into a buffer that is held is the last write to its block. -/
theorem Coherent.bwrite {b : Ptr} {data : Sector} (h : Coherent build disk dev tr s) (hh : 0 < held tr blockno b) :
    Coherent build disk dev (.bwrite blockno b data :: tr) (Block.bwrite build b (modify b data s)) := by
  obtain ⟨ho, hbn, _⟩ := h.inv.of_held hh
  have hcache : (Block.bwrite build b (modify b data s)).cache = (modify b data s).cache := by
    cases build with
    | virt => rfl
    | sd => rfl
  refine ⟨h.inv.bwrite, fun q hq => ?_, fun q hq => ?_, fun hv bn => ?_, fun hs => ?_⟩
  · rw [hcache]
    by_cases hqb : q = b
    · rw [hqb]
      simpa [modify] using h.dev b ho
    · simpa [modify, hqb] using h.dev q hq
  · rw [hcache]
    by_cases hqb : q = b
    · rw [hqb]
      simp [modify, lastWritten, hbn]
    · have hne : blockno ≠ (s.cache q).blockno := fun e =>
        hqb (h.inv.unique q b hq ho (by rw [h.dev q hq, h.dev b ho]) (by rw [hbn, e]))
      simpa [modify, hqb, lastWritten, hne] using h.data q hq
  · subst hv
    by_cases hbb : blockno = bn
    · simp [Block.bwrite, virtioDiskRW, modify, BUFFER_SIZE, hbn, lastWritten, hbb]
    · simpa [Block.bwrite, virtioDiskRW, modify, BUFFER_SIZE, hbn, lastWritten, hbb, Ne.symm hbb] using h.virt rfl bn
  · subst hs
    exact h.sd rfl

theorem Coherent.brelse {b : Ptr} (h : Coherent build disk dev tr s) (hh : 0 < held tr blockno b) :
    Coherent build disk dev (.brelse blockno b :: tr) (Block.brelse b s) := by
  have hf := brelse_fields s b
  refine ⟨h.inv.brelse hh, fun q hq => ?_, fun q hq => ?_, fun hv bn => ?_, fun hs => ?_⟩
  · rw [(hf q).2.1]
    exact h.dev q hq
  · rw [(hf q).2.2.2.2, (hf q).2.2.1]
    exact h.data q hq
  · rw [brelse_disk]
    exact h.virt hv bn
  · rw [brelse_disk]
    exact h.sd hs

theorem KeptRuns.coherent (h : KeptRuns build disk dev tr s) : Coherent build disk dev tr s := by
  induction h with
  | binit => exact coherent_binit
  | bread _ hdev hok hr ih =>
    obtain ⟨rfl, hcount, hkept⟩ := hok
    exact ih.bread hdev hcount hkept hr
  | bwrite _ hh _ ih => exact ih.bwrite hh
  | brelse _ hh ih => exact ih.brelse hh

/-! ## The claim on reads -/

/-- With 16 buffers of a group referenced, 16 of its blocks are held. -/
theorem Coherent.heldBlocks_full (h : Coherent build disk dev tr s) {g : UInt32}
    (hfull : ∀ b ∈ bufs g, (s.cache b).refcnt ≠ 0) : NBUF ≤ (heldBlocks tr g).ncard := by
  have hout : ∀ b ∈ bufs g, handedOut tr b := fun b hb => by
    by_contra hno
    exact hfull b hb (h.inv.fresh b hno).2.1
  have hgroup : ∀ b ∈ bufs g, groupOf (s.cache b).blockno = g := fun b hb => by
    obtain ⟨i, hi⟩ := mem_bufs.mp (h.inv.out b (hout b hb)).1
    obtain ⟨j, hj⟩ := mem_bufs.mp hb
    rw [hj] at hi ⊢
    exact (congrArg Ptr.group hi).symm
  have hinj : Set.InjOn (fun b => (s.cache b).blockno) ↑(bufs g).toFinset := by
    intro b hb b' hb' heq
    have hb := hout b (by simpa using hb)
    have hb' := hout b' (by simpa using hb')
    exact h.inv.unique b b' hb hb' (by rw [h.dev b hb, h.dev b' hb']) heq
  have hsub : ↑((bufs g).toFinset.image fun b => (s.cache b).blockno) ⊆ heldBlocks tr g := by
    intro bn hbn
    simp only [Finset.coe_image, Set.mem_image, List.coe_toFinset, Set.mem_ofPred_eq] at hbn
    obtain ⟨b, hb, rfl⟩ := hbn
    refine ⟨hgroup b hb, b, ?_⟩
    rw [h.inv.count, if_pos rfl, Nat.pos_iff_ne_zero]
    exact fun e => hfull b hb (UInt32.toNat_inj.mp e)
  have hcard := Set.ncard_le_ncard hsub (Set.toFinite _)
  rw [Set.ncard_coe_finset, Finset.card_image_of_injOn hinj, List.toFinset_card_of_nodup (bufs_nodup g)] at hcard
  simpa [bufs] using hcard

/-- In every run on one disk whose reads found their blocks kept, a read with fewer than 16 blocks of
its group held succeeds, and returns what was last written to the block exactly when that was kept. -/
theorem bread_lastWritten (build : Build) (disk : UInt32 → Sector) (dev : Int) (hdev : 0 ≤ dev) (tr : List Event)
    (s : Store) (h : KeptRuns build disk dev tr s) (blockno : UInt32)
    (hheld : (heldBlocks tr (groupOf blockno)).ncard < NBUF) :
    ∃ b s', bread build dev blockno s = .ok (b, s') ∧
      ((s'.cache b).data = lastWritten disk tr blockno ↔ Kept build disk tr s dev blockno) := by
  have hco := h.coherent
  cases hr : Block.bread build dev blockno s with
  | ok r => exact ⟨r.1, r.2, rfl, hco.bread_iff hdev hr⟩
  | error e =>
    have := hco.heldBlocks_full (hco.inv.panics hdev hr).2
    omega

/-! ## What the SD build loses -/

def zeros : UInt32 → Sector := fun _ => Vector.replicate _ 0
def ones : Sector := Vector.replicate _ 1

theorem ones_ne_zeros (blockno : UInt32) : ones ≠ zeros blockno := by
  intro h
  have hmem : (1 : UInt8) ∈ zeros blockno := h ▸ Vector.mem_replicate.mpr ⟨by decide, rfl⟩
  exact absurd (Vector.mem_replicate.mp hmem).2 (by decide)

/-- On an SD card, each block of `bs` in turn is read, overwritten with ones, written and released. -/
theorem exists_overwritten (bs : List UInt32) (hbs : bs.Nodup) : ∃ tr s,
    Runs .sd zeros (fun tr s d bn => (d = 0 ∧ Counted tr s d bn ∧ Kept .sd zeros tr s d bn) ∧ ∀ bn b, held tr bn b = 0) tr s ∧
      (∀ bn, lastWritten zeros tr bn = if bn ∈ bs then ones else zeros bn) ∧ ∀ bn b, held tr bn b = 0 := by
  induction bs with
  | nil => exact ⟨[], _, .binit, fun _ => rfl, fun _ _ => rfl⟩
  | cons blockno bs ih =>
    rw [List.nodup_cons] at hbs
    obtain ⟨tr, s, hrun, hlast, hheld⟩ := ih hbs.2
    have hco : Coherent .sd zeros 0 tr s := KeptRuns.coherent (hrun.mono fun _ _ _ _ hok => hok.1)
    let b₀ : Ptr := ⟨groupOf blockno, .buf ⟨0, by decide⟩⟩
    have hfree : (s.cache b₀).refcnt = 0 := by
      have := hco.inv.count (s.cache b₀).blockno b₀
      rw [if_pos rfl, hheld] at this
      exact UInt32.toNat_inj.mp this.symm
    obtain ⟨p, s', hr⟩ := hco.inv.exists_bread .sd (le_refl 0) (mem_bufs_zero _) hfree
    have hkept : Kept .sd zeros tr s 0 blockno := .inr (.inr (by rw [hlast, if_neg hbs.1]))
    have hrun₁ := hrun.bread (le_refl 0) ⟨⟨rfl, fun b => by simp [hheld], hkept⟩, hheld⟩ hr
    have hone : 0 < held (.bread 0 blockno p :: tr) blockno p := by simp [held]
    have hrun₂ := Runs.bwrite hrun₁ hone ones
    refine ⟨_, _, hrun₂.brelse hone, fun bn => ?_, fun bn b => ?_⟩
    · simp only [lastWritten, hlast, List.mem_cons]
      by_cases hbn : blockno = bn
      · simp [hbn]
      · simp [hbn, Ne.symm hbn]
    · simp [held, hheld]

/-- 17 blocks of group 0. -/
def manyBlocks : List UInt32 := (List.range 17).map fun k => UInt32.ofNat (BCACHE_GROUP_NUM * k)

theorem groupOf_manyBlocks {bn : UInt32} (h : bn ∈ manyBlocks) : groupOf bn = 0 := by
  obtain ⟨k, -, rfl⟩ := List.mem_map.mp h
  apply UInt32.toNat_inj.mp
  rw [groupOf_toNat, UInt32.toNat_ofNat]
  show BCACHE_GROUP_NUM * k % 2 ^ 32 % BCACHE_GROUP_NUM = 0
  simp only [BCACHE_GROUP_NUM]
  omega

/-- Block 5 is written once and read while its buffer is still in the pool. -/
theorem bread_lastWritten_overwritten : ∃ tr s b s', KeptRuns .sd zeros 0 tr s ∧ lastWritten zeros tr 5 = ones ∧
    bread .sd 0 5 s = .ok (b, s') ∧ ((s'.cache b).data = lastWritten zeros tr 5 ↔ Kept .sd zeros tr s 0 5) := by
  obtain ⟨tr, s, hrun, hlast, hheld⟩ := exists_overwritten [5] (by decide)
  have hkept : KeptRuns .sd zeros 0 tr s := hrun.mono fun _ _ _ _ hok => hok.1
  obtain ⟨b, s', hr, hiff⟩ := bread_lastWritten .sd zeros 0 (le_refl 0) tr s hkept 5 (by simp [heldBlocks, hheld, NBUF])
  exact ⟨tr, s, b, s', hkept, by rw [hlast, if_pos (by decide)], hr, hiff⟩

/-- An SD card that holds zeros: 17 blocks of one group are overwritten with ones, one after the
other, and one of them reads as zeros again. -/
theorem not_bread_lastWritten : ¬ ∀ (build : Build) (disk : UInt32 → Sector) (dev : Int), 0 ≤ dev →
    ∀ (tr : List Event) (s : Store),
      Runs build disk (fun tr _ d bn => d = dev ∧ (heldBlocks tr (groupOf bn)).ncard + 1 < NBUF) tr s →
      ∀ blockno, (heldBlocks tr (groupOf blockno)).ncard < NBUF →
        ∃ b s', bread build dev blockno s = .ok (b, s') ∧ (s'.cache b).data = lastWritten disk tr blockno := by
  intro hall
  obtain ⟨tr, s, hrun, hlast, hheld⟩ := exists_overwritten manyBlocks (by decide)
  have hco : Coherent .sd zeros 0 tr s := KeptRuns.coherent (hrun.mono fun _ _ _ _ hok => hok.1)
  have hrun' : Runs .sd zeros (fun tr _ d bn => d = 0 ∧ (heldBlocks tr (groupOf bn)).ncard + 1 < NBUF) tr s :=
    hrun.mono fun _ _ _ _ hok => ⟨hok.1.1, by simp [heldBlocks, hok.2, NBUF]⟩
  -- each of the 17 blocks would still have a buffer of its own
  have hcached : ∀ bn, ∃ b, bn ∈ manyBlocks → b ∈ bufs 0 ∧ (s.cache b).blockno = bn := by
    intro bn
    by_cases hbn : bn ∈ manyBlocks
    swap
    · exact ⟨lastBuf, fun h => (hbn h).elim⟩
    have hwritten : lastWritten zeros tr bn = ones := by rw [hlast, if_pos hbn]
    obtain ⟨b, s', hr, hdata⟩ := hall .sd zeros 0 (le_refl 0) tr s hrun' bn (by simp [heldBlocks, hheld, NBUF])
    rcases (hco.bread_iff (le_refl 0) hr).mp hdata with hv | ⟨b, hb, hc, _⟩ | hsame
    · simp at hv
    · exact ⟨b, fun _ => ⟨groupOf_manyBlocks hbn ▸ hb, hc.2⟩⟩
    · exact (ones_ne_zeros bn (hwritten ▸ hsame)).elim
  choose f hf using hcached
  have hnodup : (manyBlocks.map f).Nodup := by
    refine List.Nodup.map_on (fun x hx y hy heq => ?_) (by decide)
    rw [← (hf x hx).2, ← (hf y hy).2, heq]
  have hsub : manyBlocks.map f ⊆ bufs 0 := by
    intro b hb
    obtain ⟨bn, hbn, rfl⟩ := List.mem_map.mp hb
    exact (hf bn hbn).1
  have hlen := (hnodup.subperm hsub).length_le
  simp [manyBlocks, bufs, NBUF] at hlen

end Exaros.Block
