import Exaros.Fat.Extend
import Mathlib.Algebra.Order.BigOperators.Group.Finset

/-!
# Reading and writing files

`rwClus` moves bytes sector by sector: read and written through `byteAt`, its loop is one copy. A
`metaWrite` alternates `relocClus` and `rwClus`; `Written` says what it leaves in the file.
-/

namespace Exaros.Fat

/-! ## Within a cluster -/

section Rw

variable {n : Nat}

theorem rwTurn_le (off tot n : Nat) : rwTurn off tot n ≤ n - tot ∧ off % 512 + rwTurn off tot n ≤ 512 := by
  have hb : BUFFER_SIZE = 512 := rfl
  unfold rwTurn
  simp only [hb]
  split <;> omega

/-- A turn that does not finish ends at the end of its sector. -/
theorem rwTurn_of_lt (off tot n : Nat) (h : rwTurn off tot n < n - tot) : rwTurn off tot n = 512 - off % 512 := by
  have hb : BUFFER_SIZE = 512 := rfl
  unfold rwTurn at *
  simp only [hb] at *
  split at h <;> split <;> omega

theorem byteAt_copyin (d : Disk) (sec start m : Nat) (src : Nat → Byte) (h : start + m ≤ 512) (a : Nat) :
    byteAt (bwrite d sec (copyin (d sec) start m src)) a =
      if sec * 512 + start ≤ a ∧ a < sec * 512 + start + m then src (a - (sec * 512 + start)) else byteAt d a := by
  rw [byteAt_bwrite]
  by_cases hsec : a / 512 = sec
  · rw [if_pos hsec]
    unfold copyin
    by_cases hin : start ≤ a % 512 ∧ a % 512 < start + m
    · rw [if_pos hin, if_pos (by omega), show a % 512 - start = a - (sec * 512 + start) by omega]
    · rw [if_neg hin, if_neg (by omega)]
      unfold byteAt
      rw [hsec]
  · rw [if_neg hsec, if_neg (by omega)]

/-- After a turn to the end of its sector, the next byte is the first of the next one. -/
theorem rwClus_next (sec off : Nat) {m : Nat} (hm : m = 512 - off % 512) :
    (sec + 1) * 512 + (off + m) % 512 = sec * 512 + off % 512 + m := by
  have hoff : (off + m) % 512 = 0 := by omega
  rw [hoff, Nat.succ_mul]
  omega

/-- The loop of `rwClus` writes the bytes in place. -/
theorem rwWriteLoop_eq (src : Nat → Byte) (turns : Nat) (d : Disk) (sec off tot : Nat) (htot : tot ≤ n) (hturns : n - tot ≤ turns)
    (hend : sec * 512 + off % 512 + (n - tot) ≤ 2 ^ 32 * 512) :
    (rwWriteLoop src n turns d sec off tot).1 = n ∧
      ∀ a, byteAt (rwWriteLoop src n turns d sec off tot).2 a =
        if sec * 512 + off % 512 ≤ a ∧ a < sec * 512 + off % 512 + (n - tot) then
          src (tot + (a - (sec * 512 + off % 512)))
        else byteAt d a := by
  induction turns generalizing d sec off tot with
  | zero =>
    refine ⟨by show tot = n; omega, fun a => ?_⟩
    rw [if_neg (by omega)]
    rfl
  | succ turns ih =>
    by_cases hlt : tot < n
    · obtain ⟨hm₁, hm₂⟩ := rwTurn_le off tot n
      have hfull := rwTurn_of_lt off tot n
      have hbuf : BUFFER_SIZE = 512 := rfl
      unfold rwWriteLoop
      simp only [if_pos hlt, hbuf]
      generalize rwTurn off tot n = m at *
      have hbyte := byteAt_copyin d sec (off % 512) m (fun i => src (tot + i)) hm₂
      generalize bwrite d sec (copyin (d sec) (off % 512) m fun i => src (tot + i)) = d' at *
      by_cases hdone : m = n - tot
      · -- the last turn: what follows moves nothing
        have hstop : ∀ sec', rwWriteLoop src n turns d' sec' (off + m) (tot + m) = (tot + m, d') := by
          intro sec'
          cases turns with
          | zero => rfl
          | succ t => exact if_neg (by omega)
        rw [hstop]
        refine ⟨by show tot + m = n; omega, fun a => ?_⟩
        rw [hbyte a, hdone]
      · have hm : m = 512 - off % 512 := hfull (by omega)
        have hsec : u32 (sec + 1) = sec + 1 := Nat.mod_eq_of_lt (by omega)
        have hnext := rwClus_next sec off hm
        clear hm hm₂ hfull
        have hsplit : m + (n - (tot + m)) = n - tot := by omega
        obtain ⟨h1, h2⟩ := ih d' (sec + 1) (off + m) (tot + m) (by omega) (by omega)
          (by rw [hnext, Nat.add_assoc, hsplit]; exact hend)
        rw [hsec]
        refine ⟨h1, fun a => ?_⟩
        rw [h2 a, hbyte a, hnext, ← hsplit]
        obtain ⟨base, hbase⟩ : ∃ base, base = sec * 512 + off % 512 := ⟨_, rfl⟩
        rw [← hbase]
        clear hbase hend hsec hnext
        by_cases hlo : base ≤ a ∧ a < base + m
        · rw [if_neg (by omega), if_pos hlo, if_pos (by omega)]
        · rw [if_neg hlo]
          by_cases hhi : base + m ≤ a ∧ a < base + m + (n - (tot + m))
          · rw [if_pos hhi, if_pos (by omega)]
            congr 1
            omega
          · rw [if_neg hhi, if_neg (by omega)]
    · have heq : rwWriteLoop src n (turns + 1) d sec off tot = (tot, d) := if_neg hlt
      rw [heq]
      refine ⟨by show tot = n; omega, fun a => ?_⟩
      rw [if_neg (by omega)]

/-- The loop of `rwClus` reads the bytes in place. -/
theorem rwReadLoop_eq (turns : Nat) (d : Disk) (sec off tot : Nat) (dst : List Byte) (htot : tot ≤ n)
    (hturns : n - tot ≤ turns) (hend : sec * 512 + off % 512 + (n - tot) ≤ 2 ^ 32 * 512) :
    rwReadLoop d n turns sec off tot dst =
      (n, dst ++ (List.range (n - tot)).map fun i => byteAt d (sec * 512 + off % 512 + i)) := by
  induction turns generalizing sec off tot dst with
  | zero =>
    have h0 : n - tot = 0 := by omega
    rw [h0, show rwReadLoop d n 0 sec off tot dst = (tot, dst) from rfl, show tot = n by omega]
    simp
  | succ turns ih =>
    by_cases hlt : tot < n
    · obtain ⟨hm₁, hm₂⟩ := rwTurn_le off tot n
      have hfull := rwTurn_of_lt off tot n
      have hbuf : BUFFER_SIZE = 512 := rfl
      unfold rwReadLoop
      simp only [if_pos hlt, hbuf]
      generalize rwTurn off tot n = m at *
      have hbytes : ((List.range m).map fun i => d sec (off % 512 + i)) =
          (List.range m).map fun i => byteAt d (sec * 512 + off % 512 + i) := by
        refine List.map_congr_left fun i hi => ?_
        have := List.mem_range.mp hi
        rw [Nat.add_assoc, byteAt_sector d sec (by omega)]
      rw [hbytes]
      by_cases hdone : m = n - tot
      · have hstop : ∀ sec' dst', rwReadLoop d n turns sec' (off + m) (tot + m) dst' = (tot + m, dst') := by
          intro sec' dst'
          cases turns with
          | zero => rfl
          | succ t => exact if_neg (by omega)
        rw [hstop, show tot + m = n by omega, hdone]
      · have hm : m = 512 - off % 512 := hfull (by omega)
        have hsec : u32 (sec + 1) = sec + 1 := Nat.mod_eq_of_lt (by omega)
        have hnext := rwClus_next sec off hm
        clear hm hm₂ hfull
        have hsplit : n - tot = m + (n - (tot + m)) := by omega
        rw [hsec, ih (sec + 1) (off + m) (tot + m) _ (by omega) (by omega)
          (by rw [hnext, Nat.add_assoc, ← hsplit]; exact hend), hnext, hsplit, List.range_add, List.map_append,
          List.map_map, List.append_assoc]
        simp only [Nat.add_assoc, Function.comp_def]
    · have heq : rwReadLoop d n (turns + 1) sec off tot dst = (tot, dst) := if_neg hlt
      rw [heq, show n - tot = 0 by omega, show tot = n by omega]
      simp

end Rw

section Clus

variable {fs : FileSystem} {c off n : Nat}

/-- The sector `rwClus` starts at. -/
theorem rwClus_sec (hok : fs.superBlock.Ok) (hc : fs.superBlock.InRange c) (hoff : off < fs.superBlock.bytsPerClus) :
    u32 (firstSecOfClus fs.superBlock c + off / fs.superBlock.bytsPerSec) * 512 + off % fs.superBlock.bytsPerSec % 512 =
      clusAddr fs.superBlock c + off ∧ clusAddr fs.superBlock c + fs.superBlock.bytsPerClus ≤ 2 ^ 32 * 512 := by
  have hend := hok.clus_end hc
  rw [hok.bytsPerClus] at hoff ⊢
  rw [firstSecOfClus_eq hok hc, hok.bytsPerSec]
  unfold clusAddr
  have hsec : u32 (fs.superBlock.firstDataSec + (c - 2) * fs.superBlock.secPerClus + off / 512) =
      fs.superBlock.firstDataSec + (c - 2) * fs.superBlock.secPerClus + off / 512 := Nat.mod_eq_of_lt (by omega)
  rw [hsec]
  omega

theorem rwClusWrite_eq (hok : fs.superBlock.Ok) (hc : fs.superBlock.InRange c) (src : Nat → Byte)
    (hoff : off < fs.superBlock.bytsPerClus) (hn : off + n ≤ fs.superBlock.bytsPerClus) :
    ∃ d', rwClusWrite fs c src off n = .ok (n, { fs with disk := d' }) ∧
      ∀ a, byteAt d' a = if clusAddr fs.superBlock c + off ≤ a ∧ a < clusAddr fs.superBlock c + off + n then
        src (a - (clusAddr fs.superBlock c + off)) else byteAt fs.disk a := by
  obtain ⟨hsec, hend⟩ := rwClus_sec hok hc hoff
  have hcheck : ¬ fs.superBlock.bytsPerClus < u32 (off + n) := by
    have := Nat.mod_le (off + n) (2 ^ 32)
    unfold u32
    omega
  have hloop := rwWriteLoop_eq src n fs.disk
    (u32 (firstSecOfClus fs.superBlock c + off / fs.superBlock.bytsPerSec)) (off % fs.superBlock.bytsPerSec) 0
    (Nat.zero_le n) (Nat.le_refl _) (by omega)
  refine ⟨(rwWriteLoop src n n fs.disk (u32 (firstSecOfClus fs.superBlock c + off / fs.superBlock.bytsPerSec))
    (off % fs.superBlock.bytsPerSec) 0).2, ?_, fun a => ?_⟩
  · unfold rwClusWrite
    rw [if_neg hcheck]
    simp only
    rw [hloop.1]
  · rw [hloop.2 a, hsec, Nat.sub_zero]
    simp only [Nat.zero_add]

theorem rwClusRead_eq (hok : fs.superBlock.Ok) (hc : fs.superBlock.InRange c)
    (hoff : off < fs.superBlock.bytsPerClus) (hn : off + n ≤ fs.superBlock.bytsPerClus) :
    rwClusRead fs c off n =
      .ok (n, (List.range n).map fun i => byteAt fs.disk (clusAddr fs.superBlock c + off + i)) := by
  obtain ⟨hsec, hend⟩ := rwClus_sec hok hc hoff
  have hcheck : ¬ fs.superBlock.bytsPerClus < u32 (off + n) := by
    have := Nat.mod_le (off + n) (2 ^ 32)
    unfold u32
    omega
  unfold rwClusRead
  rw [if_neg hcheck]
  simp only
  rw [rwReadLoop_eq n fs.disk _ _ 0 [] (Nat.zero_le n) (Nat.le_refl _) (by omega), hsec, Nat.sub_zero, List.nil_append]

end Clus

/-! ## Writing to a file -/

/-- The bytes from `lo` to `hi - 1` of the file are written, to the values of `f`. -/
structure Written (fs : FileSystem) (dm : DirMeta) (L : List Nat) (f : Nat → Byte) (lo hi : Nat) (fs' : FileSystem)
    (dm' : DirMeta) (L' : List Nat) : Prop extends Growth fs dm L fs' dm' L' where
  inside : lo < hi → hi ≤ L'.length * fs.superBlock.bytsPerClus
  bytes : ∀ j < L'.length * fs.superBlock.bytsPerClus, chainByte fs' L' j =
    if lo ≤ j ∧ j < hi then f j else if j < L.length * fs.superBlock.bytsPerClus then chainByte fs L j else 0

/-- How many positions of the chain the bytes from `lo` to `hi - 1` need. -/
def span (sb : SuperBlock) (lo hi : Nat) : Nat := if lo < hi then (hi - 1) / sb.bytsPerClus + 1 else 0

section Written

variable {fs fs' fs'' : FileSystem} {dm dm' dm'' : DirMeta} {L L' L'' : List Nat} {f : Nat → Byte} {lo mid hi : Nat}
  {sb : SuperBlock}

theorem Ext.written (h : Ext fs dm L fs' dm' L') (f : Nat → Byte) (lo : Nat) :
    Written fs dm L f lo lo fs' dm' L' := by
  refine ⟨h.toGrowth, fun hlt => absurd hlt (Nat.lt_irrefl lo), fun j hj => ?_⟩
  rw [if_neg (by omega)]
  exact h.bytes j hj

/-- One write behind another. -/
theorem Written.trans (h : Written fs dm L f lo mid fs' dm' L') (h' : Written fs' dm' L' f mid hi fs'' dm'' L'')
    (hlo : lo ≤ mid) (hhi : mid ≤ hi) : Written fs dm L f lo hi fs'' dm'' L'' := by
  have hlen := h.length_le fs.superBlock.bytsPerClus
  have hlen' := h'.length_le fs.superBlock.bytsPerClus
  have hin := h.inside
  have hin' := h'.inside
  have hbytes' := h'.bytes
  rw [h.loc.superBlock] at hbytes' hin'
  refine ⟨h.toGrowth.trans h'.toGrowth, fun hlt => ?_, fun j hj => ?_⟩
  · by_cases hmid : mid < hi
    · exact hin' hmid
    · have := hin (by omega)
      omega
  rw [hbytes' j hj]
  by_cases hwin : mid ≤ j ∧ j < hi
  · rw [if_pos hwin, if_pos (by omega)]
  · rw [if_neg hwin]
    by_cases hlt : j < L'.length * fs.superBlock.bytsPerClus
    · have hiff : (lo ≤ j ∧ j < mid) ↔ (lo ≤ j ∧ j < hi) := by omega
      rw [if_pos hlt, h.bytes j hlt]
      simp only [hiff]
    · -- a byte written in the first part lies in the chain of that part
      have hout : ¬ (lo ≤ j ∧ j < hi) := fun hj' => by
        have := hin (by omega)
        omega
      rw [if_neg hlt, if_neg hout, if_neg (by omega)]

/-- `rwClus` on the cluster at the position of the file. -/
theorem written_clus (hok : fs.superBlock.Ok) (hb : BitmapOk fs) (h : FileOk fs dm L) {off m : Nat}
    (hcur : L[off / fs.superBlock.bytsPerClus]? = some dm.curClus)
    (hm : off % fs.superBlock.bytsPerClus + m ≤ fs.superBlock.bytsPerClus) {d' : Disk}
    (hd' : ∀ a, byteAt d' a =
      if clusAddr fs.superBlock dm.curClus + off % fs.superBlock.bytsPerClus ≤ a ∧
          a < clusAddr fs.superBlock dm.curClus + off % fs.superBlock.bytsPerClus + m then
        f (off + (a - (clusAddr fs.superBlock dm.curClus + off % fs.superBlock.bytsPerClus)))
      else byteAt fs.disk a) :
    Written fs dm L f off (off + m) { fs with disk := d' } dm L := by
  have hbpc := hok.bpc_pos
  have hcL := List.mem_of_getElem? hcur
  have hcR := h.chain.inRange _ hcL
  have hdiv := Nat.div_add_mod off fs.superBlock.bytsPerClus
  have hnum : off / fs.superBlock.bytsPerClus < L.length := (List.getElem?_eq_some_iff.mp hcur).1
  have hother : ∀ {x i : Nat}, fs.superBlock.InRange x → x ≠ dm.curClus → i < fs.superBlock.bytsPerClus →
      byteAt d' (clusAddr fs.superBlock x + i) = byteAt fs.disk (clusAddr fs.superBlock x + i) := by
    intro x i hx hne hi
    rw [hd']
    refine if_neg fun hin => ?_
    rcases clusAddr_disjoint hok hx hcR hne with hle | hle <;> omega
  have hentry : ∀ x, x < fs.superBlock.FATsz * 128 → fatEntry { fs with disk := d' } x = fatEntry fs x := by
    intro x hx
    refine fatEntry_congr fs hok rfl hx fun a ha => ?_
    rw [hd']
    refine if_neg fun hin => ha ?_
    obtain ⟨i, hi⟩ := Nat.exists_eq_add_of_le hin.1
    rw [hi, Nat.add_assoc]
    exact data_clusAddr _ _ _
  have hrange : ∀ {x : Nat}, fs.superBlock.InRange x → x < fs.superBlock.FATsz * 128 := fun hx =>
    (hok.inRange_bounds hx).1
  refine ⟨⟨⟨rfl, ⟨hb.zero, hb.one, fun x hx => ?_⟩, ⟨?_, h.first, h.pos, h.count, h.cached, ?_⟩, ?_, fun x hx => .inl hx,
    fun x hx _ => ⟨hx, rfl⟩, fun x hx => .inl hx, ⟨[], (List.append_nil _).symm, fun _ hx => absurd hx List.not_mem_nil⟩⟩,
    List.prefix_refl L, ⟨rfl, rfl, rfl⟩, rfl, Nat.le_refl _, ?_⟩, fun _ => ?_, fun j hj => ?_⟩
  · rw [hentry x (hrange hx)]
    exact hb.bit x hx
  · exact h.chain.congr rfl fun x hx => hentry x (hrange (h.chain.inRange x hx))
  · exact inodeOk_congr h.inodeOk rfl rfl
  · intro x hx hused hxL
    have hne : x ≠ dm.curClus := fun heq => hxL (heq ▸ hcL)
    exact ⟨hused, hentry x (hrange hx), fun i hi => hother hx hne hi⟩
  · show freeInodes fs + inodesBetween _ _ = freeInodes fs
    simp [inodesBetween]
  · have := Nat.mul_le_mul_right fs.superBlock.bytsPerClus (Nat.succ_le_of_lt hnum)
    rw [Nat.succ_mul, Nat.mul_comm] at this
    omega
  · have hidx : j / fs.superBlock.bytsPerClus < L.length := (Nat.div_lt_iff_lt_mul hbpc).mpr hj
    have hget : L[j / fs.superBlock.bytsPerClus]? = some (L.getD (j / fs.superBlock.bytsPerClus) 0) := by
      rw [List.getD_eq_getElem _ _ hidx]
      exact List.getElem?_eq_getElem hidx
    have hxR := h.chain.inRange _ (List.mem_of_getElem? hget)
    have hmod := Nat.mod_lt j hbpc
    have hdivj := Nat.div_add_mod j fs.superBlock.bytsPerClus
    rw [if_pos hj]
    unfold chainByte
    show byteAt d' (clusAddr fs.superBlock (L.getD (j / fs.superBlock.bytsPerClus) 0) +
      j % fs.superBlock.bytsPerClus) = _
    by_cases hsame : j / fs.superBlock.bytsPerClus = off / fs.superBlock.bytsPerClus
    · -- the same cluster: compare the offsets in it
      have hx : L.getD (j / fs.superBlock.bytsPerClus) 0 = dm.curClus := by
        rw [hsame] at hget ⊢
        exact Option.some.inj (hget.symm.trans hcur)
      rw [hsame] at hdivj
      rw [hx, hd']
      by_cases hin : off ≤ j ∧ j < off + m
      · rw [if_pos (by omega), if_pos hin]
        congr 1
        omega
      · rw [if_neg (by omega), if_neg hin]
    · have hne : L.getD (j / fs.superBlock.bytsPerClus) 0 ≠ dm.curClus := fun heq => hsame <| by
        rw [heq] at hget
        exact (List.getElem?_inj hidx h.chain.nodup).mp (hget.trans hcur.symm)
      rw [hother hxR hne hmod, if_neg]
      intro hin
      refine hsame ?_
      rw [Nat.div_eq_iff hbpc]
      constructor
      · rw [Nat.mul_comm]
        omega
      · rw [Nat.mul_comm]
        omega

/-! ## The loop of `metaWrite` -/

theorem metaTurn_le (hok : sb.Ok) (off : Nat) {tot n : Nat} (hlt : tot < n) :
    0 < metaTurn sb off tot n ∧ metaTurn sb off tot n ≤ n - tot ∧
      off % sb.bytsPerClus + metaTurn sb off tot n ≤ sb.bytsPerClus := by
  have := Nat.mod_lt off hok.bpc_pos
  unfold metaTurn
  simp only
  split <;> omega

/-- Where a turn ends, within its cluster or at its end. -/
theorem div_turn (hok : sb.Ok) {off m : Nat} (hpos : 0 < m)
    (hm : off % sb.bytsPerClus + m ≤ sb.bytsPerClus) : (off + m - 1) / sb.bytsPerClus = off / sb.bytsPerClus := by
  have hdiv := Nat.div_add_mod off sb.bytsPerClus
  rw [Nat.div_eq_iff hok.bpc_pos, Nat.mul_comm]
  omega

/-- The positions reached by a turn and by the rest. -/
theorem span_turn (hok : sb.Ok) {off m hi : Nat} (hpos : 0 < m) (hhi : off + m ≤ hi)
    (hm : off % sb.bytsPerClus + m ≤ sb.bytsPerClus) (x : Nat) :
    max (max x (off / sb.bytsPerClus + 1)) (span sb (off + m) hi) = max x (span sb off hi) ∧
      off / sb.bytsPerClus + 1 ≤ span sb off hi := by
  have hturn := div_turn hok hpos hm
  have hmono : (off + m - 1) / sb.bytsPerClus ≤ (hi - 1) / sb.bytsPerClus := Nat.div_le_div_right (by omega)
  unfold span
  rw [if_pos (show off < hi by omega)]
  split
  · omega
  · obtain rfl : hi = off + m := by omega
    omega

/-- What a `metaWrite` loop leaves behind. -/
structure WroteTo (fs : FileSystem) (dm : DirMeta) (L : List Nat) (f : Nat → Byte) (lo hi : Nat) (fs' : FileSystem)
    (dm' : DirMeta) (L' : List Nat) : Prop where
  written : Written fs dm L f lo hi fs' dm' L'
  count : dm'.inodeMaxCluster = max dm.inodeMaxCluster (span fs.superBlock lo hi)
  length : L'.length = max L.length (span fs.superBlock lo hi)
  cur : dm'.curClus ∈ L' ∨ dm'.curClus = dm.curClus

theorem span_self (sb : SuperBlock) (lo : Nat) : span sb lo lo = 0 := if_neg (Nat.lt_irrefl lo)

theorem WroteTo.refl (hb : BitmapOk fs) (h : FileOk fs dm L) (f : Nat → Byte) (lo : Nat) :
    WroteTo fs dm L f lo lo fs dm L := by
  refine ⟨(Ext.refl hb h).written f lo, ?_, ?_, .inr rfl⟩
  · rw [span_self, Nat.max_zero]
  · rw [span_self, Nat.max_zero]

variable {src : Nat → Byte} {n off : Nat}

/-- One turn of `metaWrite` after its `relocClus`. -/
theorem rwClusWrite_turn {tot : Nat} (hok : fs.superBlock.Ok) (hlt : tot < n) (hf : ∀ i, f (off + i) = src (tot + i))
    (hreach : Reached fs dm L (off / fs.superBlock.bytsPerClus) fs' dm' L') :
    ∃ fs'', rwClusWrite fs' dm'.curClus (fun i => src (tot + i)) (off % fs'.superBlock.bytsPerClus)
        (metaTurn fs'.superBlock off tot n) = .ok (metaTurn fs.superBlock off tot n, fs'') ∧
      Written fs dm L f off (off + metaTurn fs.superBlock off tot n) fs'' dm' L' := by
  have hext := hreach.ext
  have hsb := hext.loc.superBlock
  have hok' : fs'.superBlock.Ok := by rw [hsb]; exact hok
  have hcur : L'[off / fs'.superBlock.bytsPerClus]? = some dm'.curClus := by rw [hsb]; exact hreach.cur
  have hcR := hext.loc.fileOk.chain.inRange _ (List.mem_of_getElem? hcur)
  obtain ⟨-, -, hm⟩ := metaTurn_le hok' off hlt
  obtain ⟨d', heq, hd'⟩ := rwClusWrite_eq hok' hcR (fun i => src (tot + i)) (Nat.mod_lt off hok'.bpc_pos) hm
  have hw : Written fs' dm' L' f off (off + metaTurn fs'.superBlock off tot n) { fs' with disk := d' } dm' L' :=
    written_clus hok' hext.loc.bitmapOk hext.loc.fileOk hcur hm fun a => by rw [hd' a]; simp only [hf]
  rw [hsb] at heq hw ⊢
  exact ⟨_, heq, (hext.written f off).trans hw (Nat.le_refl _) (Nat.le_add_right _ _)⟩

/-- A turn of the loop, as its two calls have it. -/
theorem metaWriteLoop_turn {turns tot : Nat} {r : Int} (hlt : tot < n)
    (hreloc : relocClus fs dm off true = .ok (r, fs', dm')) (hsb : fs'.superBlock = fs.superBlock)
    (hrw : rwClusWrite fs' dm'.curClus (fun i => src (tot + i)) (off % fs'.superBlock.bytsPerClus)
      (metaTurn fs'.superBlock off tot n) = .ok (metaTurn fs.superBlock off tot n, fs'')) :
    metaWriteLoop src n (turns + 1) fs dm off tot =
      metaWriteLoop src n turns fs'' dm' (u32 (off + metaTurn fs.superBlock off tot n))
        (tot + metaTurn fs.superBlock off tot n) := by
  rw [metaWriteLoop, if_pos hlt, hreloc]
  show Except.bind (rwClusWrite fs' dm'.curClus _ _ _) _ = _
  rw [hrw]
  show (if metaTurn fs.superBlock off tot n = metaTurn fs'.superBlock off tot n then _ else _) = _
  rw [hsb, if_pos rfl]

/-- A turn in front of the rest. -/
theorem WroteTo.cons (hok : fs.superBlock.Ok) {m : Nat} (hpos : 0 < m) (hhi : off + m ≤ hi)
    (hm : off % fs.superBlock.bytsPerClus + m ≤ fs.superBlock.bytsPerClus) (hw : Written fs dm L f off (off + m) fs' dm' L')
    (hk : dm'.inodeMaxCluster = max dm.inodeMaxCluster (off / fs.superBlock.bytsPerClus + 1))
    (hlen : L'.length = max L.length (off / fs.superBlock.bytsPerClus + 1)) (hcur : dm'.curClus ∈ L')
    (h : WroteTo fs' dm' L' f (off + m) hi fs'' dm'' L'') : WroteTo fs dm L f off hi fs'' dm'' L'' := by
  have hcount := h.count
  have hlength := h.length
  have hcur' : dm''.curClus ∈ L'' := by
    rcases h.cur with hin | heq
    · exact hin
    · rw [heq]
      exact h.written.grow.subset hcur
  rw [hw.loc.superBlock, hk, (span_turn hok hpos hhi hm _).1] at hcount
  rw [hw.loc.superBlock, hlen, (span_turn hok hpos hhi hm _).1] at hlength
  exact ⟨hw.trans h.written (Nat.le_add_right _ _) hhi, hcount, hlength, .inl hcur'⟩

/-- The clusters left after a turn suffice for the rest. -/
theorem room_turn (hok : fs.superBlock.Ok) {m : Nat} (hpos : 0 < m) (hhi : off + m ≤ hi)
    (hm : off % fs.superBlock.bytsPerClus + m ≤ fs.superBlock.bytsPerClus) (hw : Written fs dm L f off (off + m) fs' dm' L')
    (hlen : L'.length = max L.length (off / fs.superBlock.bytsPerClus + 1))
    (hroom : span fs.superBlock off hi ≤ L.length + freeClusters fs) :
    span fs'.superBlock (off + m) hi ≤ L'.length + freeClusters fs' := by
  have hspan := (span_turn hok hpos hhi hm L.length).1
  have hfree := hw.free
  rw [hw.loc.superBlock]
  omega

/-- **The loop of `metaWrite`**, when it returns. -/
theorem metaWriteLoop_ok (turns tot : Nat) {tot' off' : Nat} (hok : fs.superBlock.Ok) (hb : BitmapOk fs)
    (h : FileOk fs dm L) (hne : L ≠ []) (htot : tot ≤ n) (hturns : n - tot ≤ turns)
    (hf : ∀ i, f (off + i) = src (tot + i)) (hoff : off + (n - tot) < 2 ^ 32)
    (hroom : span fs.superBlock off (off + (n - tot)) ≤ L.length + freeClusters fs)
    (hr : metaWriteLoop src n turns fs dm off tot = .ok (tot', off', fs', dm')) :
    tot' = n ∧ off' = off + (n - tot) ∧ ∃ L', WroteTo fs dm L f off (off + (n - tot)) fs' dm' L' := by
  have stop : ∀ {fs : FileSystem} {dm : DirMeta} {L : List Nat} {off tot : Nat}, BitmapOk fs → FileOk fs dm L →
      tot = n → Except.ok (tot, off, fs, dm) = (Except.ok (tot', off', fs', dm') : Except Panic _) →
      tot' = n ∧ off' = off + (n - tot) ∧ ∃ L', WroteTo fs dm L f off (off + (n - tot)) fs' dm' L' := by
    intro fs dm L off tot hb h htot hr
    obtain ⟨h₁, hr₁⟩ := Prod.mk.inj (Except.ok.inj hr)
    obtain ⟨h₂, hr₂⟩ := Prod.mk.inj hr₁
    obtain ⟨rfl, rfl⟩ := Prod.mk.inj hr₂
    rw [htot, Nat.sub_self]
    exact ⟨h₁.symm.trans htot, h₂.symm, L, WroteTo.refl hb h f _⟩
  induction turns generalizing fs dm L off tot with
  | zero =>
    exact stop hb h (by omega) hr
  | succ turns ih =>
    by_cases hlt : tot < n
    · have hr₀ := hr
      rw [metaWriteLoop, if_pos hlt] at hr₀
      obtain ⟨⟨r, fs₁, dm₁⟩, hreloc, -⟩ := except_bind_ok hr₀
      obtain ⟨hpos, hle, hm⟩ := metaTurn_le hok off hlt
      have hneed := (span_turn hok hpos (show off + metaTurn fs.superBlock off tot n ≤ off + (n - tot) by omega) hm 0).2
      obtain ⟨L₁, hreach⟩ := relocClus_ok hok hb h hne (by omega) hreloc
      obtain ⟨fs₂, hrw, hw⟩ := rwClusWrite_turn hok hlt hf hreach
      rw [metaWriteLoop_turn hlt hreloc hreach.ext.loc.superBlock hrw] at hr
      clear hrw hr₀
      generalize metaTurn fs.superBlock off tot n = m at *
      have hu : u32 (off + m) = off + m := Nat.mod_eq_of_lt (by omega)
      have hend : off + m + (n - (tot + m)) = off + (n - tot) := by omega
      rw [hu] at hr
      have hroom₂ := room_turn hok hpos (show off + m ≤ off + (n - tot) by omega) hm hw hreach.length hroom
      have hne₂ : L₁ ≠ [] := fun hnil => hne (List.prefix_nil.mp (hnil ▸ hreach.ext.grow))
      obtain ⟨htot', hoff', L', hrest⟩ := ih (tot + m) (by rw [hw.loc.superBlock]; exact hok) hw.loc.bitmapOk hw.loc.fileOk hne₂
        (by omega) (by omega) (fun i => by rw [Nat.add_assoc, hf, Nat.add_assoc]) (by omega)
        (by rw [hend]; exact hroom₂) hr
      rw [hend] at hoff' hrest
      exact ⟨htot', hoff', L', hrest.cons hok hpos (by omega) hm hw hreach.count hreach.length
        (List.mem_of_getElem? hreach.cur)⟩
    · rw [metaWriteLoop, if_neg hlt] at hr
      exact stop hb h (by omega) hr

theorem inodesBetween_mono {k k' k'' : Nat} (h : k' ≤ k'') : inodesBetween k k' ≤ inodesBetween k k'' :=
  Finset.sum_le_sum_of_subset (Finset.Ico_subset_Ico_right h)

/-- The loop of `metaWrite` returns where clusters and pool inodes suffice. -/
theorem exists_metaWriteLoop (src f : Nat → Byte) (n turns tot : Nat) (hok : fs.superBlock.Ok) (hb : BitmapOk fs) (h : FileOk fs dm L)
    (hne : L ≠ []) (hf : ∀ i, f (off + i) = src (tot + i)) (hoff : off + (n - tot) < 2 ^ 32)
    (hroom : span fs.superBlock off (off + (n - tot)) ≤ L.length + freeClusters fs)
    (htop : span fs.superBlock off (off + (n - tot)) ≤ INODE_THIRD_LEVEL_TOP)
    (hpool : inodesBetween dm.inodeMaxCluster (span fs.superBlock off (off + (n - tot))) ≤ freeInodes fs) :
    ∃ r, metaWriteLoop src n turns fs dm off tot = .ok r := by
  induction turns generalizing fs dm L off tot with
  | zero => exact ⟨_, rfl⟩
  | succ turns ih =>
    by_cases hlt : tot < n
    · obtain ⟨hpos, hle, hm⟩ := metaTurn_le hok off hlt
      have hhi : off + metaTurn fs.superBlock off tot n ≤ off + (n - tot) := by omega
      have hneed := (span_turn hok hpos hhi hm 0).2
      obtain ⟨⟨r, fs₁, dm₁⟩, hreloc⟩ := exists_relocClus hok hb h hne off (by omega) (by omega)
        ((inodesBetween_mono hneed).trans hpool)
      obtain ⟨L₁, hreach⟩ := relocClus_ok hok hb h hne (by omega) hreloc
      obtain ⟨fs₂, hrw, hw⟩ := rwClusWrite_turn hok hlt hf hreach
      have hsb := hreach.ext.loc.superBlock
      have hroom₂ := room_turn hok hpos hhi hm hw hreach.length hroom
      have hspan := (span_turn hok hpos hhi hm 0).1
      have hused := hw.pool
      have hne₂ : L₁ ≠ [] := fun hnil => hne (List.prefix_nil.mp (hnil ▸ hreach.ext.grow))
      rw [metaWriteLoop_turn hlt hreloc hsb hrw]
      generalize metaTurn fs.superBlock off tot n = m at *
      have hu : u32 (off + m) = off + m := Nat.mod_eq_of_lt (by omega)
      have hend : off + m + (n - (tot + m)) = off + (n - tot) := by omega
      rw [hu]
      refine ih (tot + m) (by rw [hw.loc.superBlock]; exact hok) hw.loc.bitmapOk hw.loc.fileOk hne₂
        (fun i => by rw [Nat.add_assoc, hf, Nat.add_assoc]) (by omega) (by rw [hend]; exact hroom₂) ?_ ?_
      · rw [hend, hw.loc.superBlock]
        omega
      · -- the inodes of the turn and of the rest are those of the whole
        rw [hend, hw.loc.superBlock]
        by_cases hrest : dm₁.inodeMaxCluster ≤ span fs.superBlock (off + m) (off + (n - tot))
        · have hsum := Finset.sum_Ico_consecutive needAt hw.count hrest
          have hmono := inodesBetween_mono (k := dm.inodeMaxCluster)
            (show span fs.superBlock (off + m) (off + (n - tot)) ≤ span fs.superBlock off (off + (n - tot)) by omega)
          unfold inodesBetween at *
          omega
        · unfold inodesBetween
          rw [Finset.Ico_eq_empty (by omega), Finset.sum_empty]
          exact Nat.zero_le _
    · exact ⟨_, if_neg hlt⟩

/-! ## `metaWrite` -/

/-- The calls `metaWrite` returns from at once. -/
def WriteRefused (dm : DirMeta) (off n : Nat) : Prop :=
  dm.dev = .none ∨ u32 (off + n) < off ∨ 0xffffffff < off + n ∨ dm.attr &&& ATTR_READ_ONLY ≠ 0

instance (dm : DirMeta) (off n : Nat) : Decidable (WriteRefused dm off n) := inferInstanceAs (Decidable (_ ∨ _))

/-- How long a chain `metaWrite` needs. -/
def writeSpan (sb : SuperBlock) (off n : Nat) : Nat := max 1 (span sb off (off + n))

theorem metaWrite_refused (fs : FileSystem) (src : Nat → Byte) (h : WriteRefused dm off n) : ∃ r, metaWrite fs dm src off n = .ok (r, fs, dm) := by
  unfold metaWrite
  by_cases hdev : dm.dev = .none
  · exact ⟨_, if_pos hdev⟩
  · rw [if_neg hdev]
    exact ⟨_, if_pos (h.resolve_left hdev)⟩

/-- An accepted `metaWrite`: the first cluster if the file has none, then the loop. -/
theorem metaWrite_accepted (fs : FileSystem) (src : Nat → Byte) (h : ¬ WriteRefused dm off n) :
    off + n < 2 ^ 32 ∧ metaWrite fs dm src off n =
      if dm.firstClus = 0 then
        (allocClus fs).bind fun r => metaWriteFrom r.2 { dm.start r.1 with clusCnt := 0 } src off n
      else metaWriteFrom fs dm src off n := by
  unfold WriteRefused at h
  push Not at h
  refine ⟨by omega, ?_⟩
  unfold metaWrite
  rw [if_neg h.1, if_neg (by omega)]
  rfl

/-- The file size after a write. -/
def grownSize (dm : DirMeta) (off n : Nat) : Nat := if 0 < n ∧ dm.fileSize < off + n then off + n else dm.fileSize

/-- What an accepted `metaWrite` does. -/
structure MetaWritten (fs : FileSystem) (dm : DirMeta) (L : List Nat) (src : Nat → Byte) (off n : Nat)
    (fs' : FileSystem) (dm' : DirMeta) (L' : List Nat) : Prop where
  written : ∃ dm₁, Written fs dm L (fun j => src (j - off)) off (off + n) fs' dm₁ L' ∧
    dm' = { dm₁ with fileSize := grownSize dm off n }
  length : L'.length = max L.length (writeSpan fs.superBlock off n)
  full : dm.inodeMaxCluster = L.length → dm'.inodeMaxCluster = L'.length
  cur : dm'.curClus ∈ L' ∨ dm'.curClus = dm.curClus

theorem FileOk.setSize (h : FileOk fs dm L) (size : Nat) : FileOk fs { dm with fileSize := size } L :=
  ⟨h.chain, h.first, h.pos, h.count, h.cached, h.inodeOk⟩

theorem MetaWritten.loc (h : MetaWritten fs dm L src off n fs' dm' L') : Local fs dm L fs' dm' L' := by
  obtain ⟨dm₁, hw, rfl⟩ := h.written
  have hl := hw.loc
  exact ⟨hl.superBlock, hl.bitmapOk, hl.fileOk.setSize _, hl.clusters, hl.grown, hl.pool, hl.owns, hl.calls⟩

/-- `metaWrite` on a file that has clusters. -/
theorem metaWriteFrom_ok {r : Int} (hok : fs.superBlock.Ok) (hb : BitmapOk fs) (h : FileOk fs dm L) (hne : L ≠ [])
    (hoff : off + n < 2 ^ 32) (hroom : span fs.superBlock off (off + n) ≤ L.length + freeClusters fs)
    (hr : metaWriteFrom fs dm src off n = .ok (r, fs', dm')) :
    r = i32 n ∧ ∃ dm₁ L', WroteTo fs dm L (fun j => src (j - off)) off (off + n) fs' dm₁ L' ∧
      dm' = { dm₁ with fileSize := grownSize dm off n } := by
  obtain ⟨⟨tot, off', fs₁, dm₁⟩, hloop, hr⟩ := except_bind_ok hr
  obtain ⟨rfl, rfl, L', hw⟩ := metaWriteLoop_ok n 0 hok hb h hne (Nat.zero_le n) (Nat.le_refl n)
    (f := fun j => src (j - off)) (fun i => by simp only [Nat.add_sub_cancel_left, Nat.zero_add]) hoff hroom hloop
  obtain ⟨h₁, hr₁⟩ := Prod.mk.inj (Except.ok.inj hr)
  obtain ⟨rfl, rfl⟩ := Prod.mk.inj hr₁
  refine ⟨h₁.symm, dm₁, L', hw, ?_⟩
  have hsize := hw.written.fields.2.1
  unfold grownSize
  simp only [hsize, Nat.sub_zero]
  split
  · rfl
  · rw [← hsize]

/-- **`metaWrite`**, when it accepts the call and returns. -/
theorem metaWrite_ok {r : Int} (hok : fs.superBlock.Ok) (hb : BitmapOk fs) (h : FileOk fs dm L)
    (hacc : ¬ WriteRefused dm off n) (hroom : writeSpan fs.superBlock off n ≤ L.length + freeClusters fs)
    (hr : metaWrite fs dm src off n = .ok (r, fs', dm')) :
    r = i32 n ∧ ∃ L', MetaWritten fs dm L src off n fs' dm' L' := by
  obtain ⟨hoff, heq⟩ := metaWrite_accepted fs src hacc
  unfold writeSpan at hroom
  rw [heq] at hr
  cases L with
  | nil =>
    have hfirst : dm.firstClus = 0 := h.first
    rw [if_pos hfirst] at hr
    obtain ⟨⟨c, fs₁⟩, ha, hr⟩ := except_bind_ok hr
    obtain ⟨c', fs₁', ha', hc, hall⟩ := exists_allocated hok hb (by simp at hroom; omega)
    rw [ha] at ha'
    cases ha'
    have hstart := ext_start hok hb h hc hall
    have hfree := hstart.free
    simp only [List.length_singleton, List.length_nil] at hfree hroom
    obtain ⟨hr', dm₁, L', hw, hdm⟩ := metaWriteFrom_ok (by rw [hall.superBlock]; exact hok) hstart.loc.bitmapOk
      hstart.loc.fileOk (List.cons_ne_nil c []) hoff (by rw [hall.superBlock, List.length_singleton]; omega) hr
    have hlen := hw.length
    have hcount := hw.count
    rw [hall.superBlock] at hlen hcount
    have hk : ({ dm.start c with clusCnt := 0 } : DirMeta).inodeMaxCluster = 1 := rfl
    rw [hk] at hcount
    refine ⟨hr', L', ⟨dm₁, (hstart.written _ off).trans hw.written (Nat.le_refl _) (Nat.le_add_right _ _), hdm⟩, ?_, ?_, ?_⟩
    · rw [hlen]
      unfold writeSpan
      simp
    · intro _
      rw [hdm, hlen]
      exact hcount
    · rw [hdm]
      refine .inl ?_
      rcases hw.cur with hin | hsame
      · exact hin
      · show dm₁.curClus ∈ L'
        rw [hsame]
        exact hw.written.grow.subset (List.mem_singleton_self c)
  | cons c L =>
    have hcR := h.chain.inRange c (List.mem_cons_self ..)
    have hfirst : dm.firstClus = c := h.first
    rw [if_neg (by have := hcR.1; omega)] at hr
    obtain ⟨hr', dm₁, L', hw, hdm⟩ := metaWriteFrom_ok hok hb h (List.cons_ne_nil c L) hoff
      ((Nat.le_max_right _ _).trans hroom) hr
    have hlen := hw.length
    have hcount := hw.count
    refine ⟨hr', L', ⟨dm₁, hw.written, hdm⟩, ?_, ?_, ?_⟩
    · rw [hlen, writeSpan, List.length_cons]
      omega
    · intro hfull
      rw [hdm]
      rw [hcount, hlen, hfull]
    · rw [hdm]
      exact hw.cur

/-- `metaWrite` returns where clusters and pool inodes suffice. -/
theorem exists_metaWrite (src : Nat → Byte) (hok : fs.superBlock.Ok) (hb : BitmapOk fs) (h : FileOk fs dm L)
    (hacc : ¬ WriteRefused dm off n) (hroom : writeSpan fs.superBlock off n ≤ L.length + freeClusters fs)
    (htop : span fs.superBlock off (off + n) ≤ INODE_THIRD_LEVEL_TOP)
    (hpool : inodesBetween dm.inodeMaxCluster (span fs.superBlock off (off + n)) ≤ freeInodes fs) :
    ∃ r, metaWrite fs dm src off n = .ok r := by
  obtain ⟨hoff, heq⟩ := metaWrite_accepted fs src hacc
  have hf : ∀ i, src (off + i - off) = src (0 + i) := fun i => by rw [Nat.add_sub_cancel_left, Nat.zero_add]
  unfold writeSpan at hroom
  rw [heq]
  cases L with
  | nil =>
    have hfirst : dm.firstClus = 0 := h.first
    obtain ⟨c, fs₁, ha, hc, hall⟩ := exists_allocated hok hb (by simp at hroom; omega)
    have hstart := ext_start hok hb h hc hall
    have hfree := hstart.free
    simp only [List.length_singleton, List.length_nil] at hfree hroom
    have hsb := hall.superBlock
    obtain ⟨r, hloop⟩ := exists_metaWriteLoop src (fun j => src (j - off)) n n 0
      (by rw [hsb]; exact hok) hstart.loc.bitmapOk hstart.loc.fileOk (List.cons_ne_nil c []) hf hoff
      (by rw [hsb, List.length_singleton, Nat.sub_zero]; omega) (by rw [hsb]; exact htop) (by
        rw [hsb, Nat.sub_zero]
        show inodesBetween 1 _ ≤ _
        have hk : dm.inodeMaxCluster ≤ 1 := by simpa using h.count
        have hle : inodesBetween 1 (span fs.superBlock off (off + n)) ≤
            inodesBetween dm.inodeMaxCluster (span fs.superBlock off (off + n)) :=
          Finset.sum_le_sum_of_subset (Finset.Ico_subset_Ico_left hk)
        have hinodes : freeInodes fs₁ = freeInodes fs := by
          unfold freeInodes
          rw [hall.inodeBitmap]
        omega)
    rw [if_pos hfirst, ha]
    refine ⟨(i32 r.1, r.2.2.1, if 0 < n ∧ r.2.2.2.fileSize < r.2.1 then { r.2.2.2 with fileSize := r.2.1 } else r.2.2.2), ?_⟩
    show (metaWriteLoop src n n fs₁ _ off 0).bind _ = _
    rw [hloop]
    rfl
  | cons c L =>
    have hcR := h.chain.inRange c (List.mem_cons_self ..)
    have hfirst : dm.firstClus = c := h.first
    obtain ⟨r, hloop⟩ := exists_metaWriteLoop src (fun j => src (j - off)) n n 0 hok hb h
      (List.cons_ne_nil c L) hf hoff ((Nat.le_max_right _ _).trans hroom) htop hpool
    rw [if_neg (by have := hcR.1; omega)]
    refine ⟨(i32 r.1, r.2.2.1, if 0 < n ∧ r.2.2.2.fileSize < r.2.1 then { r.2.2.2 with fileSize := r.2.1 } else r.2.2.2), ?_⟩
    show (metaWriteLoop src n n fs dm off 0).bind _ = _
    rw [hloop]
    rfl

/-! ## `metaRead` -/

/-- `relocClus` within the cache only moves the position. -/
theorem relocClus_cached (h : FileOk fs dm L) (hne : L ≠ []) {num : Nat} (hnum : off / fs.superBlock.bytsPerClus = num)
    (hcached : num < dm.inodeMaxCluster) (htop : num < INODE_THIRD_LEVEL_TOP) {c : Nat} (hc : L[num]? = some c) :
    ∃ r, relocClus fs dm off false = .ok (r, fs, { dm with curClus := c, clusCnt := num }) := by
  have hfind : metaFindInode fs dm num = .ok { dm with curClus := c, clusCnt := num } := by
    unfold metaFindInode
    rw [if_pos ⟨hcached, htop⟩, h.cached num c hcached htop hc]
  refine ⟨((off % fs.superBlock.bytsPerClus : Nat) : Int), ?_⟩
  unfold relocClus
  rw [if_neg (h.asserts hne)]
  rw [hnum, if_pos hcached, hfind]
  rfl

/-- The bytes of a chain within one cluster. -/
theorem chainByte_add (hok : fs.superBlock.Ok) {c i : Nat} (hc : L[off / fs.superBlock.bytsPerClus]? = some c)
    (hi : off % fs.superBlock.bytsPerClus + i < fs.superBlock.bytsPerClus) :
    chainByte fs L (off + i) = byteAt fs.disk (clusAddr fs.superBlock c + off % fs.superBlock.bytsPerClus + i) := by
  have hdiv := Nat.div_add_mod off fs.superBlock.bytsPerClus
  have hnum : (off + i) / fs.superBlock.bytsPerClus = off / fs.superBlock.bytsPerClus := by
    rw [Nat.div_eq_iff hok.bpc_pos, Nat.mul_comm]
    omega
  have hmod : (off + i) % fs.superBlock.bytsPerClus = off % fs.superBlock.bytsPerClus + i := by
    have := Nat.div_add_mod (off + i) fs.superBlock.bytsPerClus
    rw [hnum] at this
    omega
  unfold chainByte
  rw [hnum, hmod, List.getD_eq_getElem?_getD, hc, Nat.add_assoc]
  rfl

/-- **The loop of `metaRead`** on a file that is cached as a whole. -/
theorem metaReadLoop_eq (off turns tot : Nat) (dst : List Byte) (hok : fs.superBlock.Ok) (h : FileOk fs dm L)
    (hfull : dm.inodeMaxCluster = L.length) (htop : L.length ≤ INODE_THIRD_LEVEL_TOP) (htot : tot ≤ n)
    (hturns : n - tot ≤ turns) (hoff : off + (n - tot) < 2 ^ 32)
    (hin : off + (n - tot) ≤ L.length * fs.superBlock.bytsPerClus) (hcur : dm.curClus < FAT32_EOC) :
    ∃ cur cnt, cur < FAT32_EOC ∧ metaReadLoop n turns fs dm off tot dst =
      .ok (n, dst ++ (List.range (n - tot)).map fun i => chainByte fs L (off + i), fs,
        { dm with curClus := cur, clusCnt := cnt }) := by
  have stop : ∀ {dm : DirMeta} {off tot : Nat} {dst : List Byte}, dm.curClus < FAT32_EOC → tot = n →
      ∃ cur cnt, cur < FAT32_EOC ∧ (Except.ok (tot, dst, fs, dm) : Except Panic _) =
        .ok (n, dst ++ (List.range (n - tot)).map fun i => chainByte fs L (off + i), fs,
          { dm with curClus := cur, clusCnt := cnt }) := by
    intro dm off tot dst hcur htot
    refine ⟨dm.curClus, dm.clusCnt, hcur, ?_⟩
    rw [htot, Nat.sub_self, List.range_zero, List.map_nil, List.append_nil]
  induction turns generalizing dm off tot dst with
  | zero => exact stop hcur (by omega)
  | succ turns ih =>
    by_cases hlt : tot < n
    · obtain ⟨hpos, hle, hm⟩ := metaTurn_le hok off hlt
      have hbpc := hok.bpc_pos
      have hnum : off / fs.superBlock.bytsPerClus < L.length := (Nat.div_lt_iff_lt_mul hbpc).mpr (by omega)
      obtain ⟨c, hc⟩ : ∃ c, L[off / fs.superBlock.bytsPerClus]? = some c := ⟨_, List.getElem?_eq_getElem hnum⟩
      have hcL := List.mem_of_getElem? hc
      have hcR := h.chain.inRange c hcL
      obtain ⟨r, hreloc⟩ := relocClus_cached h (List.ne_nil_of_mem hcL) rfl (by omega) (by omega) hc
      have hread := rwClusRead_eq hok hcR (Nat.mod_lt off hbpc) hm
      have hbytes : ((List.range (metaTurn fs.superBlock off tot n)).map fun i =>
          byteAt fs.disk (clusAddr fs.superBlock c + off % fs.superBlock.bytsPerClus + i)) =
          (List.range (metaTurn fs.superBlock off tot n)).map fun i => chainByte fs L (off + i) := by
        refine List.map_congr_left fun i hi => (chainByte_add hok hc ?_).symm
        have := List.mem_range.mp hi
        omega
      rw [metaReadLoop, if_pos ⟨hcur, hlt⟩, hreloc]
      show ∃ cur cnt, cur < FAT32_EOC ∧ Except.bind (rwClusRead fs c _ _) _ = _
      rw [hread, hbytes]
      show ∃ cur cnt, cur < FAT32_EOC ∧ (if metaTurn fs.superBlock off tot n = _ then _ else _) = _
      rw [if_pos rfl]
      generalize metaTurn fs.superBlock off tot n = m at *
      have hu : u32 (off + m) = off + m := Nat.mod_eq_of_lt (by omega)
      have hsplit : n - tot = m + (n - (tot + m)) := by omega
      obtain ⟨cur, cnt, hcur', heq⟩ := ih (off + m) (tot + m)
        (dst ++ (List.range m).map fun i => chainByte fs L (off + i))
        (h.setCur c (off / fs.superBlock.bytsPerClus)) hfull (by omega) (by omega) (by omega) (by omega)
        (hok.inRange_bounds hcR).2
      refine ⟨cur, cnt, hcur', ?_⟩
      rw [hu, heq, hsplit, List.range_add, List.map_append, List.map_map, List.append_assoc]
      simp only [Function.comp_def, Nat.add_assoc]
    · rw [metaReadLoop, if_neg (fun hand => hlt hand.2)]
      exact stop hcur (by omega)

/-- **`metaRead`** of a regular file that is cached as a whole. -/
theorem metaRead_eq (hok : fs.superBlock.Ok) (h : FileOk fs dm L) (hdev : dm.dev ≠ .zero ∧ dm.dev ≠ .osrelease)
    (hattr : dm.attr &&& ATTR_DIRECTORY = 0) (hfull : dm.inodeMaxCluster = L.length)
    (htop : L.length ≤ INODE_THIRD_LEVEL_TOP) (hsize : dm.fileSize ≤ L.length * fs.superBlock.bytsPerClus)
    (hsize' : dm.fileSize < 2 ^ 32) (hcur : dm.curClus < FAT32_EOC) (hoff : off + n < 2 ^ 32) :
    ∃ cur cnt, cur < FAT32_EOC ∧ metaRead fs dm off n =
      .ok (i32 (min n (dm.fileSize - off)),
        (List.range (min n (dm.fileSize - off))).map fun i => chainByte fs L (off + i), fs,
        { dm with curClus := cur, clusCnt := cnt }) := by
  have hu : u32 (off + n) = off + n := Nat.mod_eq_of_lt hoff
  unfold metaRead
  rw [if_neg hdev.1, if_neg hdev.2, hu]
  by_cases hpast : dm.fileSize < off
  · refine ⟨dm.curClus, dm.clusCnt, hcur, ?_⟩
    rw [if_pos (.inl hpast), show min n (dm.fileSize - off) = 0 by omega]
    rfl
  · have hnot : ¬ (dm.fileSize < off ∨ off + n < off ∨ dm.attr &&& ATTR_DIRECTORY ≠ 0) := by
      rw [hattr]
      omega
    have hmin : (if dm.fileSize < off + n then dm.fileSize - off else n) = min n (dm.fileSize - off) := by
      split <;> omega
    rw [if_neg hnot, hmin]
    obtain ⟨cur, cnt, hcur', heq⟩ := metaReadLoop_eq (n := min n (dm.fileSize - off)) off (min n (dm.fileSize - off)) 0 []
      hok h hfull htop (Nat.zero_le _) (by omega) (show off + (min n (dm.fileSize - off) - 0) < 2 ^ 32 by omega)
      (by omega) hcur
    refine ⟨cur, cnt, hcur', ?_⟩
    show Except.bind (metaReadLoop _ _ fs dm off 0 []) _ = _
    rw [heq, Nat.sub_zero, List.nil_append]
    rfl

end Written

end Exaros.Fat
