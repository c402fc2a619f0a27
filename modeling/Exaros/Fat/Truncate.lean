import Exaros.Fat.Allocation
import Exaros.Lib.Follow

/-!
# Truncation on any FAT

`metaTrunc` on links that nothing is known of: they may run in circles, cross or lead out of the volume. `truncRun`
is its loop with what makes it stop otherwise: an access to a page of the cluster bitmap that is not mapped. Each
turn clears an entry that was not zero, but the last, so it ends, and what it has come to is what the links reach.
-/

namespace Exaros.Fat

open Follow

/-- How a truncation may fail to return. -/
inductive Stop where
  | spins
  /-- a page fault in the kernel, on the cluster bitmap -/
  | fault
  | panic (e : Panic)
deriving DecidableEq

/-- The page of `clusterBitmap[cluster >> 6]`, counted from the start of the bitmap. -/
def bitmapPage (cluster : Nat) : Nat := cluster / 64 * 8 / 4096

/-- The pages that `fatInit` maps for the bitmap of the volume. -/
def MapsOwn (mapped : Nat → Bool) (sb : SuperBlock) : Prop :=
  ∀ p, p = 0 ∨ p * 4096 * 8 < totalClusterNumber sb → mapped p = true

/-- The loop of `metaTrunc`, with the clusters it visits. -/
def truncRun (mapped : Nat → Bool) : Nat → FileSystem → Nat → Except Stop (FileSystem × List Nat)
  | 0, _, _ => .error .spins
  | n + 1, fs, clus =>
    if 2 ≤ clus ∧ clus < FAT32_EOC then
      if mapped (bitmapPage clus) then
        match truncRun mapped n (freeClus fs clus) (readFat fs clus) with
        | .error e => .error e
        | .ok (fs, visited) => .ok (fs, clus :: visited)
      else .error .fault
    else .ok (fs, [])

/-- `metaTrunc`, with the clusters it visits. -/
def metaTruncRun (mapped : Nat → Bool) (n : Nat) (fs : FileSystem) (dm : DirMeta) : Except Stop (FileSystem × DirMeta × List Nat) :=
  match truncRun mapped n fs dm.firstClus with
  | .error e => .error e
  | .ok (fs, visited) =>
    match metaFreeInode fs { dm with fileSize := 0, firstClus := 0 } with
    | .error e => .error (.panic e)
    | .ok (fs, dm) => .ok (fs, dm, visited)

/-- What the loop goes on with. -/
def Followed (clus : Nat) : Prop := 2 ≤ clus ∧ clus < FAT32_EOC

/-- The clusters that the links of the FAT lead to. -/
def LinkedFrom (fs : FileSystem) : Nat → Nat → Prop := Reaches Followed (readFat fs)

/-- How many data clusters have an entry that is not zero. -/
def entryCount (fs : FileSystem) : Nat := ((Finset.range fs.superBlock.dataClusCnt).filter fun i => fatEntry fs (i + 2) ≠ 0).card

/-- What the loop leaves. -/
structure Truncated (fs : FileSystem) (clus : Nat) (fs' : FileSystem) (visited : List Nat) : Prop where
  frame : ∃ d bm, fs' = { fs with disk := d, clusterBitmap := bm }
  visits : ∀ c, c ∈ visited ↔ LinkedFrom fs clus c
  cleared : ∀ c ∈ visited, fs.superBlock.InRange c → fatEntry fs' c = 0 ∧ Bitmap.get fs'.clusterBitmap c = false
  kept : ∀ c, ¬ LinkedFrom fs clus c → fatEntry fs' c = fatEntry fs c ∧ Bitmap.get fs'.clusterBitmap c = Bitmap.get fs.clusterBitmap c
  length : visited.length ≤ entryCount fs + 1

section Truncate

variable {mapped : Nat → Bool} {fs fs' : FileSystem} {clus c n : Nat} {visited : List Nat}

/-- Past the data clusters only the bit is cleared. -/
theorem freeClus_outside (hc : fs.superBlock.dataClusCnt + 1 < clus) :
    freeClus fs clus = { fs with clusterBitmap := Bitmap.clear fs.clusterBitmap clus } := by
  unfold freeClus writeFat
  rw [if_pos hc]

theorem freeClus_frame (fs : FileSystem) (clus : Nat) : ∃ d bm, freeClus fs clus = { fs with disk := d, clusterBitmap := bm } := by
  unfold freeClus writeFat
  by_cases hc : fs.superBlock.dataClusCnt + 1 < clus
  · rw [if_pos hc]
    exact ⟨_, _, rfl⟩
  · rw [if_neg hc]
    exact ⟨_, _, rfl⟩

theorem freeClus_superBlock (fs : FileSystem) (clus : Nat) : (freeClus fs clus).superBlock = fs.superBlock := by
  obtain ⟨d, bm, h⟩ := freeClus_frame fs clus
  rw [h]

theorem fatEntry_freeClus (hok : fs.superBlock.Ok) (clus c : Nat) :
    fatEntry (freeClus fs clus) c = if c = clus ∧ clus ≤ fs.superBlock.dataClusCnt + 1 then 0 else fatEntry fs c := by
  by_cases hc : clus ≤ fs.superBlock.dataClusCnt + 1
  · rw [freeClus_eq hok hc]
    show fatEntry (storeEntry fs clus 0) c = _
    rw [fatEntry_storeEntry (by decide)]
    simp [hc]
  · rw [freeClus_outside (Nat.lt_of_not_le hc), if_neg fun h => hc h.2]
    rfl

theorem get_freeClus (fs : FileSystem) (clus c : Nat) :
    Bitmap.get (freeClus fs clus).clusterBitmap c = (!decide (c = clus) && Bitmap.get fs.clusterBitmap c) := by
  have hbm : (freeClus fs clus).clusterBitmap = Bitmap.clear fs.clusterBitmap clus := by
    unfold freeClus writeFat
    split
    · rfl
    · rfl
  rw [hbm, Bitmap.get_clear]

/-- After a cluster has been freed, its link ends. -/
theorem readFat_freeClus_self (hok : fs.superBlock.Ok) (h : Followed clus) : readFat (freeClus fs clus) clus = 0 := by
  have hsb := freeClus_superBlock fs clus
  by_cases hc : clus ≤ fs.superBlock.dataClusCnt + 1
  · rw [readFat_eq (by rw [hsb]; exact hok) (by rw [hsb]; exact hc), fatEntry_freeClus hok, if_pos ⟨rfl, hc⟩]
  · have hlt := h.2
    unfold readFat
    rw [hsb, if_neg (by omega), if_pos (by omega)]

theorem readFat_freeClus (hok : fs.superBlock.Ok) (hne : c ≠ clus) : readFat (freeClus fs clus) c = readFat fs c := by
  have hsb := freeClus_superBlock fs clus
  by_cases hc : c ≤ fs.superBlock.dataClusCnt + 1
  · rw [readFat_eq hok hc, readFat_eq (by rw [hsb]; exact hok) (by rw [hsb]; exact hc), fatEntry_freeClus hok, if_neg fun h => hne h.1]
  · unfold readFat
    rw [hsb]
    split
    · rfl
    · rw [if_pos (by omega), if_pos (by omega)]

/-- One turn of the loop, on the links. -/
theorem linkedFrom_iff (hok : fs.superBlock.Ok) (h : Followed clus) :
    LinkedFrom fs clus c ↔ c = clus ∨ LinkedFrom (freeClus fs clus) (readFat fs clus) c :=
  reaches_erased h (by rw [readFat_freeClus_self hok h]; exact fun h0 => absurd h0.1 (by decide))
    fun _ _ hne => readFat_freeClus hok hne

/-- Freeing a cluster with an entry makes the FAT emptier. -/
theorem entryCount_freeClus (hok : fs.superBlock.Ok) (hc : fs.superBlock.InRange clus) (hne : fatEntry fs clus ≠ 0) :
    entryCount (freeClus fs clus) < entryCount fs := by
  unfold entryCount
  rw [freeClus_superBlock]
  have hmem : clus - 2 + 2 = clus := Nat.sub_add_cancel hc.1
  refine Finset.card_lt_card (Finset.ssubset_iff_of_subset (fun i hi => ?_) |>.mpr ⟨clus - 2, ?_, ?_⟩)
  · obtain ⟨hr, hi⟩ := Finset.mem_filter.mp hi
    rw [fatEntry_freeClus hok] at hi
    refine Finset.mem_filter.mpr ⟨hr, fun hzero => hi ?_⟩
    split
    · rfl
    · exact hzero
  · refine Finset.mem_filter.mpr ⟨Finset.mem_range.mpr ?_, ?_⟩
    · have h1 := hc.1
      have h2 := hc.2
      omega
    · rw [hmem]
      exact hne
  · intro hin
    obtain ⟨-, hin⟩ := Finset.mem_filter.mp hin
    rw [hmem, fatEntry_freeClus hok, if_pos ⟨rfl, hc.2⟩] at hin
    exact hin rfl

theorem truncRun_stop (hstop : ¬ Followed clus) (n : Nat) : truncRun mapped (n + 1) fs clus = .ok (fs, []) := if_neg hstop

theorem truncRun_step (h : Followed clus) (hm : mapped (bitmapPage clus) = true) (n : Nat) :
    truncRun mapped (n + 1) fs clus = match truncRun mapped n (freeClus fs clus) (readFat fs clus) with
      | .error e => .error e
      | .ok (fs, visited) => .ok (fs, clus :: visited) :=
  (if_pos h).trans (if_pos hm)

theorem Truncated.stop (hstop : ¬ Followed clus) (fs : FileSystem) : Truncated fs clus fs [] where
  frame := ⟨_, _, rfl⟩
  visits _ := ⟨fun h => absurd h List.not_mem_nil, fun h => absurd h.live_start hstop⟩
  cleared _ h := absurd h List.not_mem_nil
  kept _ _ := ⟨rfl, rfl⟩
  length := Nat.zero_le _

/-- The turn of cluster `clus` before the rest. -/
theorem Truncated.step (hok : fs.superBlock.Ok) (h : Followed clus) (ht : Truncated (freeClus fs clus) (readFat fs clus) fs' visited)
    (hlen : visited.length ≤ entryCount fs) : Truncated fs clus fs' (clus :: visited) := by
  have hiff : ∀ c, LinkedFrom fs clus c ↔ c = clus ∨ LinkedFrom (freeClus fs clus) (readFat fs clus) c := fun c => linkedFrom_iff hok h
  refine ⟨?_, fun c => ?_, fun c hc hr => ?_, fun c hc => ?_, Nat.succ_le_succ hlen⟩
  · obtain ⟨d, bm, hfs₁⟩ := freeClus_frame fs clus
    obtain ⟨d', bm', hfs'⟩ := ht.frame
    exact ⟨d', bm', by rw [hfs', hfs₁]⟩
  · rw [List.mem_cons, ht.visits, hiff]
  · by_cases hlater : c ∈ visited
    · exact ht.cleared c hlater (by rw [freeClus_superBlock]; exact hr)
    · -- the walk does not come back: what freeing has left stays
      have hself : c = clus := (List.mem_cons.mp hc).resolve_right hlater
      obtain ⟨hentry, hbit⟩ := ht.kept c fun hl => hlater ((ht.visits c).mpr hl)
      rw [hentry, hbit, fatEntry_freeClus hok, get_freeClus, hself]
      rw [hself] at hr
      exact ⟨if_pos ⟨rfl, hr.2⟩, by simp⟩
  · rw [hiff] at hc
    obtain ⟨hne, hc⟩ := not_or.mp hc
    obtain ⟨hentry, hbit⟩ := ht.kept c hc
    rw [hentry, hbit, fatEntry_freeClus hok, get_freeClus, if_neg fun h => hne h.1]
    exact ⟨rfl, by simp [hne]⟩

/-- **The loop ends**, where it meets no page that is not mapped. -/
theorem exists_truncRun (hok : fs.superBlock.Ok) (hm : ∀ c, LinkedFrom fs clus c → mapped (bitmapPage c) = true) :
    ∃ fs' visited, Truncated fs clus fs' visited ∧ ∀ n, entryCount fs + 2 ≤ n → truncRun mapped n fs clus = .ok (fs', visited) := by
  induction hcount : entryCount fs using Nat.strong_induction_on generalizing fs clus with
  | _ m ih =>
    subst hcount
    by_cases h : Followed clus
    · have hmap : mapped (bitmapPage clus) = true := hm clus (.here h)
      have hok₁ : (freeClus fs clus).superBlock.Ok := by
        rw [freeClus_superBlock]
        exact hok
      -- the rest: nothing, or a walk of a FAT with an entry less
      have hrest : ∃ fs' visited, Truncated (freeClus fs clus) (readFat fs clus) fs' visited ∧ visited.length ≤ entryCount fs ∧
          ∀ n, entryCount fs + 1 ≤ n → truncRun mapped n (freeClus fs clus) (readFat fs clus) = .ok (fs', visited) := by
        by_cases hnext : Followed (readFat fs clus)
        · have hin : clus ≤ fs.superBlock.dataClusCnt + 1 := by
            by_contra hout
            have hzero : readFat fs clus = 0 := by
              have hlt := h.2
              unfold readFat
              rw [if_neg (by omega), if_pos (by omega)]
            rw [hzero] at hnext
            exact absurd hnext.1 (by decide)
          have hne : fatEntry fs clus ≠ 0 := by
            intro hzero
            rw [readFat_eq hok hin, hzero] at hnext
            exact absurd hnext.1 (by decide)
          have hlt := entryCount_freeClus hok ⟨h.1, hin⟩ hne
          have hm₁ : ∀ c, LinkedFrom (freeClus fs clus) (readFat fs clus) c → mapped (bitmapPage c) = true := fun c hc =>
            hm c ((linkedFrom_iff hok h).mpr (.inr hc))
          obtain ⟨fs', visited, ht, hrun⟩ := ih _ hlt hok₁ hm₁ rfl
          exact ⟨fs', visited, ht, ht.length.trans hlt, fun n hn => hrun n (by omega)⟩
        · refine ⟨_, [], .stop hnext _, Nat.zero_le _, fun n hn => ?_⟩
          obtain ⟨k, rfl⟩ : ∃ k, n = k + 1 := ⟨n - 1, by omega⟩
          exact truncRun_stop hnext k
      obtain ⟨fs', visited, ht, hlen, hrun⟩ := hrest
      refine ⟨fs', clus :: visited, ht.step hok h hlen, fun n hn => ?_⟩
      obtain ⟨k, rfl⟩ : ∃ k, n = k + 1 := ⟨n - 1, by omega⟩
      rw [truncRun_step h hmap, hrun k (by omega)]
    · refine ⟨fs, [], .stop h fs, fun n hn => ?_⟩
      obtain ⟨k, rfl⟩ : ∃ k, n = k + 1 := ⟨n - 1, by omega⟩
      exact truncRun_stop h k

/-- A loop that returns has met mapped pages only. -/
theorem mapped_of_truncRun (hok : fs.superBlock.Ok) (hr : truncRun mapped n fs clus = .ok (fs', visited)) (hc : LinkedFrom fs clus c) :
    mapped (bitmapPage c) = true := by
  induction n generalizing fs clus fs' visited with
  | zero => cases hr
  | succ n ih =>
    have h : Followed clus := hc.live_start
    by_cases hmap : mapped (bitmapPage clus) = true
    · rw [truncRun_step h hmap] at hr
      rcases (linkedFrom_iff hok h).mp hc with rfl | hlater
      · exact hmap
      · cases hrest : truncRun mapped n (freeClus fs clus) (readFat fs clus) with
        | error e =>
          rw [hrest] at hr
          cases hr
        | ok p => exact ih (by rw [freeClus_superBlock]; exact hok) hrest hlater
    · have hfault : truncRun mapped (n + 1) fs clus = .error .fault := (if_pos h).trans (if_neg hmap)
      rw [hfault] at hr
      cases hr

end Truncate

/-- What a truncation promises: it returns, however often the loop has to turn, with the entries and bits of what it
has visited cleared, other entries as they were, and an empty file. -/
structure Empties (mapped : Nat → Bool) (fs : FileSystem) (dm : DirMeta) (fs' : FileSystem) (dm' : DirMeta) (visited : List Nat) : Prop where
  returns : ∃ N, ∀ n, N ≤ n → metaTruncRun mapped n fs dm = .ok (fs', dm', visited)
  cleared : ∀ c ∈ visited, fs.superBlock.InRange c → fatEntry fs' c = 0 ∧ Bitmap.get fs'.clusterBitmap c = false
  kept : ∀ c, ¬ LinkedFrom fs dm.firstClus c → fatEntry fs' c = fatEntry fs c
  empty : dm'.fileSize = 0 ∧ dm'.firstClus = 0

section Trunc

variable {mapped : Nat → Bool} {fs fs' : FileSystem} {dm dm' : DirMeta} {n : Nat} {visited : List Nat}

/-- The clusters of the volume have their bits in mapped pages. -/
theorem MapsOwn.inside (hown : MapsOwn mapped fs.superBlock) (hok : fs.superBlock.Ok) {c : Nat} (hc : c ≤ fs.superBlock.dataClusCnt + 1) :
    mapped (bitmapPage c) = true := by
  have htotal := totalClusterNumber_eq hok
  have hcovers := hok.fat_covers
  refine hown _ (.inr ?_)
  unfold bitmapPage
  omega

theorem metaTruncRun_ok (hr : metaTruncRun mapped n fs dm = .ok (fs', dm', visited)) :
    ∃ fs₁, truncRun mapped n fs dm.firstClus = .ok (fs₁, visited) ∧
      metaFreeInode fs₁ { dm with fileSize := 0, firstClus := 0 } = .ok (fs', dm') := by
  unfold metaTruncRun at hr
  cases hrun : truncRun mapped n fs dm.firstClus with
  | error e =>
    rw [hrun] at hr
    cases hr
  | ok p =>
    obtain ⟨fs₁, visited₁⟩ := p
    rw [hrun] at hr
    dsimp only at hr
    cases hfree : metaFreeInode fs₁ { dm with fileSize := 0, firstClus := 0 } with
    | error e =>
      rw [hfree] at hr
      cases hr
    | ok q =>
      rw [hfree] at hr
      cases hr
      exact ⟨fs₁, rfl, hfree⟩

end Trunc

/-- **Truncation ends on any FAT**, and empties the file, exactly where the links lead to no number outside the volume
whose bit would lie in a page that is not mapped. -/
theorem truncates_iff {mapped : Nat → Bool} {fs : FileSystem} {dm : DirMeta} (hok : fs.superBlock.Ok) (hown : MapsOwn mapped fs.superBlock)
    (hinode : InodeOk fs dm.item dm.inodeMaxCluster) :
    (∃ fs' dm' visited, Empties mapped fs dm fs' dm' visited) ↔
      ∀ c, LinkedFrom fs dm.firstClus c → fs.superBlock.dataClusCnt + 1 < c → mapped (bitmapPage c) = true := by
  constructor
  · rintro ⟨fs', dm', visited, h⟩ c hc -
    obtain ⟨N, hN⟩ := h.returns
    obtain ⟨fs₁, hrun, -⟩ := metaTruncRun_ok (hN N le_rfl)
    exact mapped_of_truncRun hok hrun hc
  · intro hout
    have hm : ∀ c, LinkedFrom fs dm.firstClus c → mapped (bitmapPage c) = true := fun c hc =>
      (Nat.lt_or_ge (fs.superBlock.dataClusCnt + 1) c).elim (hout c hc) fun hin => hown.inside hok hin
    obtain ⟨fs₁, visited, ht, hrun⟩ := exists_truncRun hok hm
    obtain ⟨d, bm, hframe⟩ := ht.frame
    have hinode₁ : InodeOk fs₁ dm.item dm.inodeMaxCluster := by
      rw [hframe]
      exact inodeOk_congr hinode rfl rfl
    obtain ⟨bm', hfree, -⟩ := metaFreeInode_ok { dm with fileSize := 0, firstClus := 0 } hinode₁
    refine ⟨{ fs₁ with inodeBitmap := bm' }, { dm with fileSize := 0, firstClus := 0, inodeMaxCluster := 0 }, visited, ⟨entryCount fs + 2, fun n hn => ?_⟩,
      fun c hc hr => ht.cleared c hc hr, fun c hc => (ht.kept c hc).1, rfl, rfl⟩
    unfold metaTruncRun
    rw [hrun n hn]
    dsimp only
    rw [hfree]

/-- A kernel that has mounted nothing else: one page for the bitmap. -/
def onePage (p : Nat) : Bool := decide (p = 0)

theorem mapsOwn_onePage : MapsOwn onePage (smallFs 4).superBlock := by
  intro p hp
  have htotal : totalClusterNumber (smallFs 4).superBlock = 128 := by
    show totalClusterNumber (readSuperBlock (smallDisk 4 0)) = 128
    rw [superBlock_small.2]
    rfl
  rw [htotal] at hp
  exact decide_eq_true (by omega)

/-- A file that starts at cluster 3, of which nothing is cached. -/
def fromThree : DirMeta := { emptyMeta with firstClus := 3 }

theorem inodeOk_fromThree (fs : FileSystem) : InodeOk fs fromThree.item fromThree.inodeMaxCluster where
  used _ hl := absurd hl.2 (Nat.not_lt_zero _)
  inj _ _ hl := absurd hl.2 (Nat.not_lt_zero _)

/-- Cluster 3 linked to itself. -/
def circular : FileSystem := storeEntry (smallFs 4) 3 3

/-- A file whose only cluster is linked to itself is emptied. -/
theorem truncates_iff_circular : ∃ fs' dm' visited, Empties onePage circular fromThree fs' dm' visited := by
  have hself : readFat circular 3 = 3 := by decide +kernel
  have honly : ∀ a c, LinkedFrom circular a c → a = 3 → c = 3 := by
    intro a c h
    induction h with
    | here _ => exact id
    | next _ _ ih =>
      intro ha
      exact ih (by rw [ha, hself])
  have hok : circular.superBlock.Ok := small_ok_four
  refine (truncates_iff hok mapsOwn_onePage (inodeOk_fromThree circular)).mpr fun c hc _ => ?_
  rw [honly 3 c hc rfl]
  rfl

/-- Cluster 3 linked to the mark of a bad cluster. -/
def damaged : FileSystem := storeEntry (smallFs 4) 3 0x0ffffff7

/-- The bit of that number lies in a page that nothing has mapped. -/
theorem truncate_damaged : ¬ ∃ fs' dm' visited, Empties onePage damaged fromThree fs' dm' visited := by
  rintro ⟨fs', dm', visited, h⟩
  obtain ⟨N, hN⟩ := h.returns
  obtain ⟨fs₁, hrun, -⟩ := metaTruncRun_ok (hN N le_rfl)
  have hlink : readFat damaged 3 = 0x0ffffff7 := by decide +kernel
  have hbad : LinkedFrom damaged 3 0x0ffffff7 := by
    refine .next ⟨by decide, by decide⟩ ?_
    rw [hlink]
    exact .here ⟨by decide, by decide⟩
  have hok : damaged.superBlock.Ok := small_ok_four
  have hmapped := mapped_of_truncRun hok hrun hbad
  exact absurd hmapped (by decide)

end Exaros.Fat
