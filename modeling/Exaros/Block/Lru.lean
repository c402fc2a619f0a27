import Exaros.Block.Group
import Mathlib.Data.Finset.Card

/-!
# Runs of the block cache

Clients read blocks, change and write the buffers they hold and release them, in any order. A run
carries its history, the events so far with the latest first, and what the cache should do is said
over the history: which buffers were ever handed out, how many references are out, and when a buffer
was last released. `Runs.inv` is the invariant of all runs in which no count of references passes
`2^32 - 1`; `lruSpec_of_runs` reads the cache's contract off it.

**What it does not establish.** What the blocks hold, and what the disk answers.
-/

namespace Exaros.Block

inductive Event
  | bread (dev : Int) (blockno : UInt32) (b : Ptr)
  | bwrite (blockno : UInt32) (b : Ptr) (data : Sector)
  | brelse (blockno : UInt32) (b : Ptr)

/-- The references to `b` that clients hold for block `blockno`. -/
def held : List Event → UInt32 → Ptr → Nat
  | [], _, _ => 0
  | .bread _ bn p :: tr, blockno, b => held tr blockno b + if p = b ∧ bn = blockno then 1 else 0
  | .brelse bn p :: tr, blockno, b => held tr blockno b - if p = b ∧ bn = blockno then 1 else 0
  | .bwrite .. :: tr, blockno, b => held tr blockno b

def handedOut : List Event → Ptr → Prop
  | [], _ => False
  | .bread _ _ p :: tr, b => p = b ∨ handedOut tr b
  | _ :: tr, b => handedOut tr b

/-- When `b` was last released; zero for never. -/
def lastRelease : List Event → Ptr → Nat
  | [], _ => 0
  | .brelse _ p :: tr, b => if p = b then tr.length + 1 else lastRelease tr b
  | _ :: tr, b => lastRelease tr b

/-- Runs from `binit` whose calls of `bread` meet `ok`. A client writes and releases only what it
holds. -/
inductive Runs (build : Build) (disk : UInt32 → Sector) (ok : List Event → Store → Int → UInt32 → Prop) :
    List Event → Store → Prop
  | binit : Runs build disk ok [] ⟨binit bss, disk⟩
  | bread {tr : List Event} {s s' : Store} {dev : Int} {blockno : UInt32} {b : Ptr} : Runs build disk ok tr s →
      0 ≤ dev → ok tr s dev blockno → bread build dev blockno s = .ok (b, s') →
      Runs build disk ok (.bread dev blockno b :: tr) s'
  | bwrite {tr : List Event} {s : Store} {blockno : UInt32} {b : Ptr} : Runs build disk ok tr s →
      0 < held tr blockno b → ∀ data : Sector, Runs build disk ok (.bwrite blockno b data :: tr) (bwrite build b (modify b data s))
  | brelse {tr : List Event} {s : Store} {blockno : UInt32} {b : Ptr} : Runs build disk ok tr s →
      0 < held tr blockno b → Runs build disk ok (.brelse blockno b :: tr) (brelse b s)

/-- The count of references a `bread` adds to fits in `refcnt`. -/
def Counted (tr : List Event) (_ : Store) (_ : Int) (blockno : UInt32) : Prop :=
  ∀ b, held tr blockno b + 1 < 2 ^ 32

variable {tr : List Event} {disk : UInt32 → Sector} {s : Store}

theorem Runs.mono {build : Build} {ok ok' : List Event → Store → Int → UInt32 → Prop}
    (h : Runs build disk ok tr s) (hok : ∀ tr s dev bn, ok tr s dev bn → ok' tr s dev bn) :
    Runs build disk ok' tr s := by
  induction h with
  | binit => exact .binit
  | bread _ hdev hg hr ih => exact .bread ih hdev (hok _ _ _ _ hg) hr
  | bwrite _ hh data ih => exact .bwrite ih hh data
  | brelse _ hh ih => exact .brelse ih hh

/-! ## The invariant -/

/-- `x` stands before `y` in its group's list. An unreferenced buffer that was handed out has been
released, later than every such buffer behind it; an untouched buffer, which looks like block 0 of
device 0, does not stand before a buffer that holds that block. -/
structure Ahead (tr : List Event) (c : BCache) (x y : Ptr) : Prop where
  newer : (c x).refcnt = 0 → (c y).refcnt = 0 → handedOut tr y → handedOut tr x ∧ lastRelease tr y < lastRelease tr x
  unmasked : handedOut tr y → Carries c 0 0 y → handedOut tr x

structure Inv (tr : List Event) (c : BCache) : Prop where
  rings : ∀ g : UInt32, g.toNat < BCACHE_GROUP_NUM → ∃ l, GroupRing c g l ∧ l.Pairwise (Ahead tr c)
  out : ∀ b, handedOut tr b → b ∈ bufs (groupOf (c b).blockno) ∧ (c b).valid
  fresh : ∀ b, ¬ handedOut tr b → Carries c 0 0 b ∧ (c b).refcnt = 0 ∧ (c b).valid = false
  unique : ∀ b b', handedOut tr b → handedOut tr b' → (c b).dev = (c b').dev → (c b).blockno = (c b').blockno → b = b'
  count : ∀ blockno b, held tr blockno b = if (c b).blockno = blockno then (c b).refcnt.toNat else 0
  past : ∀ b, lastRelease tr b ≤ tr.length
  dev : ∀ b, 0 ≤ (c b).dev

/-- The buffers that carry a pair are in its group. -/
theorem Inv.mem_of_carries {c : BCache} {dev : Int} {blockno : UInt32} {b : Ptr} {l : List Ptr}
    (h : Inv tr c) (hl : GroupRing c (groupOf blockno) l) (hb : handedOut tr b) (hc : Carries c dev blockno b) : b ∈ l := by
  have := (h.out b hb).1
  rw [hc.2] at this
  exact hl.perm.mem_iff.mpr this

theorem inv_binit : Inv [] (binit bss) := by
  have hbody := fun b => body_binit bss b
  simp only [Buf.body, Prod.mk.injEq] at hbody
  refine ⟨fun g hg => ⟨_, binit_ring hg bss, ?_⟩, fun b hb => hb.elim, fun b _ => ?_, fun b _ hb => hb.elim, ?_, ?_, ?_⟩
  · refine List.pairwise_of_forall fun x y => ⟨fun _ _ hy => hy.elim, fun hy => hy.elim⟩
  · exact ⟨⟨(hbody b).2.1, (hbody b).2.2.1⟩, (hbody b).2.2.2.1, (hbody b).1⟩
  · intro blockno b
    rw [(hbody b).2.2.2.1]
    simp [held, bss]
  · exact fun b => Nat.le_refl _
  · intro b
    rw [(hbody b).2.1]
    exact le_refl _

/-! ## `bread` keeps it -/

section Bread

variable {tr : List Event} {s s' : Store} {dev : Int} {blockno refcnt : UInt32} {p : Ptr} {data : Sector} {l : List Ptr}

theorem Given.carries_other {q : Ptr} (hg : Given s p dev blockno refcnt data s') (hq : q ≠ p) {d : Int} {bn : UInt32} :
    Carries s'.cache d bn q ↔ Carries s.cache d bn q := by
  rw [Carries, Carries, hg.other q hq]

theorem Given.links_eq (hg : Given s p dev blockno refcnt data s') (q : Ptr) :
    (s'.cache q).next = (s.cache q).next ∧ (s'.cache q).prev = (s.cache q).prev := by
  by_cases hq : q = p
  · subst hq
    rw [hg.self]
    exact ⟨rfl, rfl⟩
  · rw [hg.other q hq]
    exact ⟨rfl, rfl⟩

theorem Given.ring {g : UInt32} (hg : Given s p dev blockno refcnt data s') (hl : GroupRing s.cache g l) :
    GroupRing s'.cache g l :=
  hl.congr fun q _ => hg.links_eq q

/-- Giving out `p` keeps the order of the lists, if an untouched buffer before `p` does not carry the
pair asked for. -/
theorem Ahead.given {x y : Ptr} (h : Ahead tr s.cache x y) (hg : Given s p dev blockno refcnt data s') (hr : refcnt ≠ 0)
    (hp : y = p → dev = 0 → blockno = 0 → x ≠ p → handedOut tr x) :
    Ahead (.bread dev blockno p :: tr) s'.cache x y := by
  have hself := hg.self
  refine ⟨fun hx hy ho => ?_, fun ho hc => ?_⟩
  · have hxp : x ≠ p := fun e => hr (by rw [← hx, e, hself])
    have hyp : y ≠ p := fun e => hr (by rw [← hy, e, hself])
    rw [hg.other x hxp] at hx
    rw [hg.other y hyp] at hy
    obtain ⟨hxo, hlt⟩ := h.newer hx hy (ho.resolve_left fun e => hyp e.symm)
    exact ⟨.inr hxo, hlt⟩
  · by_cases hxp : x = p
    · exact .inl hxp.symm
    · by_cases hyp : y = p
      · subst hyp
        rw [Carries, hself] at hc
        exact .inr (hp rfl hc.1 hc.2 hxp)
      · rw [hg.carries_other hyp] at hc
        exact .inr (h.unmasked (ho.resolve_left fun e => hyp e.symm) hc)

/-- The lists after `p` is given out. -/
theorem Inv.given_rings {l₁ l₂ : List Ptr} (h : Inv tr s.cache) (hg : Given s p dev blockno refcnt data s') (hr : refcnt ≠ 0)
    (hl : GroupRing s.cache (groupOf blockno) (l₁ ++ p :: l₂)) (hal : (l₁ ++ p :: l₂).Pairwise (Ahead tr s.cache))
    (hfirst : dev = 0 → blockno = 0 → ∀ x ∈ l₁, handedOut tr x) (g : UInt32) (hlt : g.toNat < BCACHE_GROUP_NUM) :
    ∃ l, GroupRing s'.cache g l ∧ l.Pairwise (Ahead (.bread dev blockno p :: tr) s'.cache) := by
  have hnodup := List.nodup_middle.mp (List.nodup_cons.mp hl.ring.nodup).2
  by_cases hgg : g = groupOf blockno
  · subst hgg
    refine ⟨_, hg.ring hl, ?_⟩
    rw [List.pairwise_append, List.pairwise_cons] at hal ⊢
    obtain ⟨h₁, ⟨hp, h₂⟩, h₁₂⟩ := hal
    have hne₁ : ∀ y ∈ l₁, y ≠ p := fun y hy e =>
      (List.nodup_cons.mp hnodup).1 (List.mem_append_left _ (e ▸ hy))
    have hne₂ : ∀ y ∈ l₂, y ≠ p := fun y hy e =>
      (List.nodup_cons.mp hnodup).1 (List.mem_append_right _ (e ▸ hy))
    refine ⟨h₁.imp_of_mem fun _ hy hxy => hxy.given hg hr fun e => (hne₁ _ hy e).elim,
      ⟨fun y hy => (hp y hy).given hg hr fun e => (hne₂ _ hy e).elim,
        h₂.imp_of_mem fun _ hy hxy => hxy.given hg hr fun e => (hne₂ _ hy e).elim⟩, fun x hx y hy => ?_⟩
    exact (h₁₂ x hx y hy).given hg hr fun _ hd hb _ => hfirst hd hb x hx
  · obtain ⟨l, hl', hal'⟩ := h.rings g hlt
    refine ⟨l, hg.ring hl', hal'.imp_of_mem fun _ hy hxy => hxy.given hg hr fun e => ?_⟩
    have hpg : p.group = groupOf blockno := hl.group_eq (by simp)
    exact (hgg (by rw [← hl'.group_eq hy, e, hpg])).elim

theorem Inv.given {l₁ l₂ : List Ptr} (h : Inv tr s.cache) (hg : Given s p dev blockno refcnt data s') (hr : refcnt ≠ 0)
    (hl : GroupRing s.cache (groupOf blockno) (l₁ ++ p :: l₂)) (hal : (l₁ ++ p :: l₂).Pairwise (Ahead tr s.cache))
    (hfirst : dev = 0 → blockno = 0 → ∀ x ∈ l₁, handedOut tr x)
    (hother : ∀ b, b ≠ p → handedOut tr b → ¬ Carries s.cache dev blockno b)
    (hcount : ∀ bn, held tr bn p + (if blockno = bn then 1 else 0) = if blockno = bn then refcnt.toNat else 0)
    (hdev : 0 ≤ dev) : Inv (.bread dev blockno p :: tr) s'.cache := by
  have hself := hg.self
  refine ⟨h.given_rings hg hr hl hal hfirst, fun b hb => ?_, fun b hb => ?_, fun b b' hb hb' hdev hbn => ?_,
    fun bn b => ?_, fun b => ?_, fun b => ?_⟩
  · by_cases hbp : b = p
    · subst hbp
      rw [hself]
      exact ⟨hl.perm.mem_iff.mp (by simp), rfl⟩
    · rw [hg.other b hbp]
      exact h.out b (hb.resolve_left fun e => hbp e.symm)
  · have hb' : p ≠ b ∧ ¬ handedOut tr b := not_or.mp hb
    rw [hg.carries_other (Ne.symm hb'.1), hg.other b (Ne.symm hb'.1)]
    exact h.fresh b hb'.2
  · by_cases hbp : b = p
    · by_cases hbp' : b' = p
      · rw [hbp, hbp']
      · subst hbp
        rw [hself, hg.other b' hbp'] at hdev hbn
        exact (hother b' hbp' (hb'.resolve_left fun e => hbp' e.symm) ⟨hdev.symm, hbn.symm⟩).elim
    · by_cases hbp' : b' = p
      · subst hbp'
        rw [hself, hg.other b hbp] at hdev hbn
        exact (hother b hbp (hb.resolve_left fun e => hbp e.symm) ⟨hdev, hbn⟩).elim
      · rw [hg.other b hbp, hg.other b' hbp'] at hdev hbn
        exact h.unique b b' (hb.resolve_left fun e => hbp e.symm) (hb'.resolve_left fun e => hbp' e.symm) hdev hbn
  · by_cases hbp : b = p
    · subst hbp
      rw [hself, held]
      simpa using hcount bn
    · rw [hg.other b hbp, held, if_neg (fun e => hbp e.1.symm), Nat.add_zero]
      exact h.count bn b
  · exact (h.past b).trans (Nat.le_succ _)
  · by_cases hbp : b = p
    · subst hbp
      rw [hself]
      exact hdev
    · rw [hg.other b hbp]
      exact h.dev b

/-- One `bread` from a state of the invariant. -/
theorem Inv.bread {build : Build} (h : Inv tr s.cache) (hdev : 0 ≤ dev) (hok : Counted tr s dev blockno)
    (hb : Block.bread build dev blockno s = .ok (p, s')) : Inv (.bread dev blockno p :: tr) s'.cache := by
  obtain ⟨l, hl, hal⟩ := h.rings (groupOf blockno) (groupOf_lt blockno)
  have hlook := bread_lookup build hdev hl
  rw [hb] at hlook
  cases hlook with
  | hit _ l₁ l₂ _ hsplit hc hbefore hg =>
    subst hsplit
    have hcount := h.count blockno p
    rw [if_pos hc.2] at hcount
    have hfit : (s.cache p).refcnt.toNat + 1 < 2 ^ 32 := by
      rw [← hcount]
      exact hok p
    have hsucc : ((s.cache p).refcnt + 1).toNat = (s.cache p).refcnt.toNat + 1 := by
      rw [UInt32.toNat_add, UInt32.toNat_one, Nat.mod_eq_of_lt hfit]
    refine h.given hg ?_ hl hal ?_ ?_ ?_ hdev
    · intro e
      rw [e] at hsucc
      simp at hsucc
    · intro hd hbn x hx
      by_contra hno
      exact hbefore x hx (hd ▸ hbn ▸ (h.fresh x hno).1)
    · intro b hbp hbo hbc
      by_cases hpo : handedOut tr p
      · exact hbp (h.unique b p hbo hpo (by rw [hbc.1, hc.1]) (by rw [hbc.2, hc.2]))
      · -- `p` is untouched, so the pair is block 0 of device 0 and `b` does not stand behind `p`
        obtain ⟨hd, hbn⟩ := (h.fresh p hpo).1
        rw [hc.1] at hd
        rw [hc.2] at hbn
        have hmem := h.mem_of_carries hl hbo hbc
        rcases List.mem_append.mp hmem with hm | hm
        · exact hbefore b hm hbc
        · have hahead := (List.pairwise_cons.mp (List.pairwise_append.mp hal).2.1).1 b ((List.mem_cons.mp hm).resolve_left hbp)
          exact hpo (hahead.unmasked hbo (hd ▸ hbn ▸ hbc))
    · intro bn
      rw [h.count bn p, hc.2, hsucc]
      by_cases e : blockno = bn
      · simp [e]
      · simp [e]
  | miss _ l₁ l₂ _ hnone hsplit hfree hafter hg =>
    subst hsplit
    refine h.given hg (by decide) hl hal ?_ ?_ ?_ hdev
    · intro hd hbn x hx
      by_contra hno
      exact hnone x (by simp [hx]) (hd ▸ hbn ▸ (h.fresh x hno).1)
    · intro b hbp hbo hbc
      exact hnone b (h.mem_of_carries hl hbo hbc) hbc
    · intro bn
      rw [h.count bn p, hfree]
      by_cases e : blockno = bn
      · simp [e]
      · simp [e]

end Bread

/-! ## `brelse` and `bwrite` keep it -/

section Brelse

variable {tr : List Event} {s : Store} {blockno : UInt32} {b : Ptr}

/-- What a client holds was handed out for the block it asked for. -/
theorem Inv.of_held (h : Inv tr s.cache) (hh : 0 < held tr blockno b) :
    handedOut tr b ∧ (s.cache b).blockno = blockno ∧ 0 < (s.cache b).refcnt.toNat := by
  rw [h.count] at hh
  by_cases hbn : (s.cache b).blockno = blockno
  · rw [if_pos hbn] at hh
    refine ⟨?_, hbn, hh⟩
    by_contra hno
    rw [(h.fresh b hno).2.1] at hh
    simp at hh
  · simp [hbn] at hh

theorem brelse_fields (s : Store) (b q : Ptr) :
    ((brelse b s).cache q).valid = (s.cache q).valid ∧ ((brelse b s).cache q).dev = (s.cache q).dev ∧
      ((brelse b s).cache q).blockno = (s.cache q).blockno ∧
      ((brelse b s).cache q).refcnt = (if q = b then (s.cache q).refcnt - 1 else (s.cache q).refcnt) ∧
      ((brelse b s).cache q).data = (s.cache q).data := by
  have hbody := brelse_body s b q
  simp only [Buf.body, Prod.mk.injEq] at hbody
  by_cases hq : q = b
  · subst hq
    simpa using hbody
  · simpa [hq] using hbody

theorem Ahead.brelse {x y : Ptr} (h : Ahead tr s.cache x y) (hx : x = b → (s.cache b).refcnt - 1 ≠ 0)
    (hy : y = b → (s.cache b).refcnt - 1 ≠ 0) :
    Ahead (.brelse blockno b :: tr) (Block.brelse b s).cache x y := by
  obtain ⟨_, _, _, hxr, _⟩ := brelse_fields s b x
  obtain ⟨_, hyd, hyb, hyr, _⟩ := brelse_fields s b y
  refine ⟨fun hx0 hy0 ho => ?_, fun ho hc => h.unmasked ho ?_⟩
  · have hxb : x ≠ b := fun e => hx e (by rw [← hx0, hxr, if_pos e, e])
    have hyb : y ≠ b := fun e => hy e (by rw [← hy0, hyr, if_pos e, e])
    rw [hxr, if_neg hxb] at hx0
    rw [hyr, if_neg hyb] at hy0
    rw [lastRelease, lastRelease, if_neg (Ne.symm hxb), if_neg (Ne.symm hyb)]
    exact h.newer hx0 hy0 ho
  · rwa [Carries, hyd, hyb] at hc

/-- The released buffer comes in front, the others keep their order. -/
theorem Inv.brelse_rings (h : Inv tr s.cache) (ho : handedOut tr b) (g : UInt32) (hlt : g.toNat < BCACHE_GROUP_NUM) :
    ∃ l, GroupRing (Block.brelse b s).cache g l ∧ l.Pairwise (Ahead (.brelse blockno b :: tr) (Block.brelse b s).cache) := by
  obtain ⟨l, hl, hal⟩ := h.rings g hlt
  have hbufs := (h.out b ho).1
  by_cases hg : g = groupOf (s.cache b).blockno
  · subst hg
    obtain ⟨l₁, l₂, rfl⟩ := List.append_of_mem (hl.perm.mem_iff.mpr hbufs)
    by_cases h0 : (s.cache b).refcnt - 1 = 0
    · refine ⟨_, hl.brelse rfl h0, ?_⟩
      have hnodup := (List.nodup_cons.mp (List.nodup_middle.mp (List.nodup_cons.mp hl.ring.nodup).2)).1
      have hne : ∀ y ∈ l₁ ++ l₂, y ≠ b := fun y hy e => hnodup (e ▸ hy)
      rw [List.pairwise_cons]
      constructor
      · -- the buffer just released is the newest of its group
        intro y hy
        refine ⟨fun _ _ _ => ⟨ho, ?_⟩, fun _ _ => ho⟩
        rw [lastRelease, lastRelease, if_neg (Ne.symm (hne y hy)), if_pos rfl]
        exact Nat.lt_succ_of_le (h.past y)
      · refine (hal.sublist (by simp)).imp_of_mem fun hx hy hxy => hxy.brelse ?_ ?_
        · exact fun e => (hne _ hx e).elim
        · exact fun e => (hne _ hy e).elim
    · rw [brelse_keep h0]
      refine ⟨_, hl.congr fun q _ => ?_, hal.imp fun hxy => ?_⟩
      · by_cases hq : q = b
        · subst hq
          simp
        · simp [hq]
      · have : Ahead (.brelse blockno b :: tr) _ _ _ := hxy.brelse (fun _ => h0) fun _ => h0
        rwa [brelse_keep h0] at this
  · obtain ⟨l', hl', _⟩ := h.rings _ (groupOf_lt (s.cache b).blockno)
    have hbl := hl'.perm.mem_iff.mpr hbufs
    have hne : ∀ y ∈ l, y ≠ b := fun y hy e => hg (by rw [← hl.group_eq hy, e, hl'.group_eq hbl])
    refine ⟨l, hl.congr fun q hq => ?_, hal.imp_of_mem fun hx hy hxy => hxy.brelse ?_ ?_⟩
    · rw [hl'.brelse_other hbl rfl (by rw [hq]; exact hg)]
      exact ⟨rfl, rfl⟩
    · exact fun e => (hne _ hx e).elim
    · exact fun e => (hne _ hy e).elim

/-- A release keeps the order by last use. -/
theorem Inv.brelse (h : Inv tr s.cache) (hh : 0 < held tr blockno b) :
    Inv (.brelse blockno b :: tr) (Block.brelse b s).cache := by
  obtain ⟨ho, hbn, hpos⟩ := h.of_held hh
  have hf := brelse_fields s b
  refine ⟨h.brelse_rings ho, fun q hq => ?_, fun q hq => ?_, fun q q' hq hq' hd hb => ?_, fun bn q => ?_,
    fun q => ?_, fun q => ?_⟩
  · rw [(hf q).2.2.1, (hf q).1]
    exact h.out q hq
  · have hqb : q ≠ b := fun e => hq (by rw [e]; exact ho)
    rw [Carries, (hf q).1, (hf q).2.1, (hf q).2.2.1, (hf q).2.2.2.1, if_neg hqb]
    exact h.fresh q hq
  · rw [(hf q).2.1, (hf q').2.1] at hd
    rw [(hf q).2.2.1, (hf q').2.2.1] at hb
    exact h.unique q q' hq hq' hd hb
  · rw [(hf q).2.2.1, (hf q).2.2.2.1, held, h.count]
    by_cases hqb : q = b
    · subst hqb
      have hone : (1 : UInt32).toNat ≤ (s.cache q).refcnt.toNat := hpos
      rw [if_pos rfl, UInt32.toNat_sub_of_le _ _ hone, hbn, UInt32.toNat_one]
      by_cases e : blockno = bn
      · simp [e]
      · simp [e]
    · rw [if_neg hqb, if_neg (show ¬ (b = q ∧ blockno = bn) from fun e => hqb e.1.symm), Nat.sub_zero]
  · rw [lastRelease]
    split
    · exact Nat.le_refl _
    · exact (h.past q).trans (Nat.le_succ _)
  · rw [(hf q).2.1]
    exact h.dev q

/-- A write changes data only. -/
theorem Inv.bwrite {build : Build} {data : Sector} (h : Inv tr s.cache) :
    Inv (.bwrite blockno b data :: tr) (Block.bwrite build b (modify b data s)).cache := by
  have hcache : (Block.bwrite build b (modify b data s)).cache = (modify b data s).cache := by
    cases build with
    | virt => rfl
    | sd => rfl
  have hf : ∀ q, ∃ d, (modify b data s).cache q = { s.cache q with data := d } := fun q => by
    by_cases hq : q = b
    · subst hq
      exact ⟨data, by simp [modify]⟩
    · exact ⟨(s.cache q).data, by simp [modify, hq]⟩
  choose d hd using hf
  rw [hcache]
  refine ⟨fun g hg => ?_, fun q hq => ?_, fun q hq => ?_, fun q q' hq hq' hdev hbn => ?_, fun bn q => ?_,
    fun q => ?_, fun q => ?_⟩
  · obtain ⟨l, hl, hal⟩ := h.rings g hg
    refine ⟨l, hl.congr fun q _ => ?_, hal.imp fun hxy => ⟨fun hx hy ho => ?_, fun ho hc => ?_⟩⟩
    · rw [hd q]
      exact ⟨rfl, rfl⟩
    · rw [hd] at hx hy
      exact hxy.newer hx hy ho
    · rw [Carries, hd] at hc
      exact hxy.unmasked ho hc
  · rw [hd q]
    exact h.out q hq
  · rw [Carries, hd q]
    exact h.fresh q hq
  · rw [hd q, hd q'] at hdev hbn
    exact h.unique q q' hq hq' hdev hbn
  · rw [hd q]
    exact h.count bn q
  · exact (h.past q).trans (Nat.le_succ _)
  · rw [hd q]
    exact h.dev q

end Brelse

/-- Every run that keeps the counts below `2^32` keeps the invariant. -/
theorem Runs.inv {build : Build} (h : Runs build disk Counted tr s) : Inv tr s.cache := by
  induction h with
  | binit => exact inv_binit
  | bread _ hdev hok hb ih => exact ih.bread hdev hok hb
  | bwrite _ _ _ ih => exact ih.bwrite
  | brelse _ hh ih => exact ih.brelse hh

/-! ## The contract -/

/-- What the cache promises its clients after the history `tr`. -/
structure LruSpec (build : Build) (tr : List Event) (s : Store) : Prop where
  /-- Each group's list is a ring through its 16 buffers. -/
  ring : ∀ g : UInt32, g.toNat < BCACHE_GROUP_NUM → ∃ l : List Ptr, l.Perm (bufs g) ∧ Linked.Ring (links s.cache) (headOf g) l
  /-- One buffer ever handed out carries a pair, and a lookup of the pair finds it. -/
  unique : ∀ b b', handedOut tr b → handedOut tr b' → (s.cache b).dev = (s.cache b').dev →
    (s.cache b).blockno = (s.cache b').blockno → b = b'
  found : ∀ b, handedOut tr b → ∃ s', bread build (s.cache b).dev (s.cache b).blockno s = .ok (b, s')
  /-- A referenced buffer keeps its block. -/
  kept : ∀ dev blockno p s', 0 ≤ dev → bread build dev blockno s = .ok (p, s') → ∀ b, (s.cache b).refcnt ≠ 0 →
    (s'.cache b).dev = (s.cache b).dev ∧ (s'.cache b).blockno = (s.cache b).blockno
  /-- A miss takes an untouched buffer, or the unreferenced one released the longest ago. -/
  recycled : ∀ dev blockno p s', 0 ≤ dev → bread build dev blockno s = .ok (p, s') →
    (∀ b ∈ bufs (groupOf blockno), ¬ Carries s.cache dev blockno b) →
    p ∈ bufs (groupOf blockno) ∧ (s.cache p).refcnt = 0 ∧ Carries s'.cache dev blockno p ∧
      ∀ b ∈ bufs (groupOf blockno), b ≠ p → (s.cache b).refcnt = 0 →
        ¬ handedOut tr p ∨ handedOut tr b ∧ lastRelease tr p < lastRelease tr b
  /-- The only failure is the panic, with all 16 buffers referenced. -/
  panics : ∀ dev blockno e, 0 ≤ dev → bread build dev blockno s = .error e →
    e = .noBuffers ∧ ∀ b ∈ bufs (groupOf blockno), (s.cache b).refcnt ≠ 0

section Spec

variable {build : Build} {tr : List Event} {s : Store} {blockno : UInt32}

/-- The block of a buffer that is handed out is found again. -/
theorem Inv.found (build : Build) (h : Inv tr s.cache) {b : Ptr} (hb : handedOut tr b) :
    ∃ s', Block.bread build (s.cache b).dev (s.cache b).blockno s = .ok (b, s') := by
  obtain ⟨l, hl, hal⟩ := h.rings _ (groupOf_lt (s.cache b).blockno)
  have hc : Carries s.cache (s.cache b).dev (s.cache b).blockno b := ⟨rfl, rfl⟩
  have hmem := h.mem_of_carries hl hb hc
  have hlook := bread_lookup build (h.dev b) hl
  generalize Block.bread build (s.cache b).dev (s.cache b).blockno s = r at hlook
  cases hlook with
  | hit p l₁ l₂ s' hsplit hp hbefore hg =>
    have hpb : p = b := by
      by_cases hpo : handedOut tr p
      · exact h.unique p b hpo hb hp.1 hp.2
      · -- an untouched `p` before `b` would be masked by it
        by_contra hne
        subst hsplit
        rcases List.mem_append.mp hmem with hm | hm
        · exact hbefore b hm hc
        · have hahead := (List.pairwise_cons.mp (List.pairwise_append.mp hal).2.1).1 b
            ((List.mem_cons.mp hm).resolve_left fun e => hne e.symm)
          obtain ⟨hd, hbn⟩ := (h.fresh p hpo).1
          rw [hp.1] at hd
          rw [hp.2] at hbn
          exact hpo (hahead.unmasked hb ⟨hd, hbn⟩)
    exact ⟨s', by rw [hpb]⟩
  | miss p l₁ l₂ s' hnone => exact (hnone b hmem hc).elim
  | full hnone => exact (hnone b hmem hc).elim

theorem Inv.kept (h : Inv tr s.cache) {dev : Int} {p b : Ptr} {s' : Store} (hdev : 0 ≤ dev)
    (hr : Block.bread build dev blockno s = .ok (p, s')) (hb : (s.cache b).refcnt ≠ 0) :
    (s'.cache b).dev = (s.cache b).dev ∧ (s'.cache b).blockno = (s.cache b).blockno := by
  obtain ⟨l, hl, _⟩ := h.rings _ (groupOf_lt blockno)
  have hlook := bread_lookup build hdev hl
  rw [hr] at hlook
  cases hlook with
  | hit _ l₁ l₂ _ hsplit hp hbefore hg =>
    by_cases hbp : b = p
    · subst hbp
      rw [hg.self]
      exact ⟨hp.1.symm, hp.2.symm⟩
    · rw [hg.other b hbp]
      exact ⟨rfl, rfl⟩
  | miss _ l₁ l₂ _ hnone hsplit hfree hafter hg =>
    have hbp : b ≠ p := fun e => hb (e ▸ hfree)
    rw [hg.other b hbp]
    exact ⟨rfl, rfl⟩

/-- A buffer taken for another block had no reference left. -/
theorem Inv.recycled (h : Inv tr s.cache) {dev : Int} {p : Ptr} {s' : Store} (hdev : 0 ≤ dev)
    (hr : Block.bread build dev blockno s = .ok (p, s'))
    (hmiss : ∀ b ∈ bufs (groupOf blockno), ¬ Carries s.cache dev blockno b) :
    p ∈ bufs (groupOf blockno) ∧ (s.cache p).refcnt = 0 ∧ Carries s'.cache dev blockno p ∧
      ∀ b ∈ bufs (groupOf blockno), b ≠ p → (s.cache b).refcnt = 0 →
        ¬ handedOut tr p ∨ handedOut tr b ∧ lastRelease tr p < lastRelease tr b := by
  obtain ⟨l, hl, hal⟩ := h.rings _ (groupOf_lt blockno)
  have hlook := bread_lookup build hdev hl
  rw [hr] at hlook
  cases hlook with
  | hit _ l₁ l₂ _ hsplit hp hbefore hg =>
    have hpl : p ∈ l := by simp [hsplit]
    exact (hmiss p (hl.perm.mem_iff.mp hpl) hp).elim
  | miss _ l₁ l₂ _ hnone hsplit hfree hafter hg =>
    subst hsplit
    refine ⟨hl.perm.mem_iff.mp (by simp), hfree, by rw [Carries, hg.self]; exact ⟨rfl, rfl⟩, fun b hb hbp h0 => ?_⟩
    -- every buffer behind `p` is referenced, so `b` stands before it
    rcases List.mem_append.mp (hl.perm.mem_iff.mpr hb) with hm | hm
    · have hahead := (List.pairwise_append.mp hal).2.2 b hm p (by simp)
      by_cases hpo : handedOut tr p
      · exact .inr (hahead.newer h0 hfree hpo)
      · exact .inl hpo
    · exact (hafter b ((List.mem_cons.mp hm).resolve_left hbp) h0).elim

theorem Inv.panics (h : Inv tr s.cache) {dev : Int} {e : Panic} (hdev : 0 ≤ dev)
    (hr : Block.bread build dev blockno s = .error e) :
    e = .noBuffers ∧ ∀ b ∈ bufs (groupOf blockno), (s.cache b).refcnt ≠ 0 := by
  obtain ⟨l, hl, _⟩ := h.rings _ (groupOf_lt blockno)
  have hlook := bread_lookup build hdev hl
  rw [hr] at hlook
  cases hlook with
  | full hnone hfull => exact ⟨rfl, fun b hb => hfull b (hl.perm.mem_iff.mpr hb)⟩

theorem Inv.lruSpec (h : Inv tr s.cache) : LruSpec build tr s where
  ring g hg := by
    obtain ⟨l, hl, _⟩ := h.rings g hg
    exact ⟨l, hl.perm, hl.ring⟩
  unique := h.unique
  found _ hb := h.found build hb
  kept _ _ _ _ hdev hr _ hb := h.kept hdev hr hb
  recycled _ _ _ _ hdev hr hmiss := h.recycled hdev hr hmiss
  panics _ _ _ hdev hr := h.panics hdev hr

end Spec

/-- In every run in which no buffer has `2^32` references at once, the cache keeps its contract. -/
theorem lruSpec_of_runs (build : Build) (disk : UInt32 → Sector) (tr : List Event) (s : Store)
    (h : Runs build disk Counted tr s) : LruSpec build tr s :=
  h.inv.lruSpec

/-- A `bread` succeeds while some buffer of its group is unreferenced. -/
theorem Inv.exists_bread (build : Build) (h : Inv tr s.cache) {dev : Int} (hdev : 0 ≤ dev)
    {blockno : UInt32} {b : Ptr} (hb : b ∈ bufs (groupOf blockno)) (h0 : (s.cache b).refcnt = 0) :
    ∃ p s', Block.bread build dev blockno s = .ok (p, s') := by
  cases hr : Block.bread build dev blockno s with
  | ok r => exact ⟨r.1, r.2, rfl⟩
  | error e => exact ((h.panics hdev hr).2 b hb h0).elim

theorem mem_bufs_zero (g : UInt32) : (⟨g, .buf ⟨0, by decide⟩⟩ : Ptr) ∈ bufs g := mem_bufs.mpr ⟨_, rfl⟩

/-! ## Seventeen blocks of one group -/

/-- The last buffer of group 0, the first one a miss takes. -/
def lastBuf : Ptr := ⟨0, .buf ⟨0, by decide⟩⟩

/-- Block `i` of those in group 0. -/
def nthBlock (i : Nat) : UInt32 := UInt32.ofNat (BCACHE_GROUP_NUM * i)

/-- A block is read and released, with no other reference out. -/
theorem Runs.readRelease (h : Runs .virt disk Counted tr s) (blockno : UInt32) (hnone : ∀ bn b, held tr bn b = 0) :
    ∃ p ∈ bufs (groupOf blockno), ∃ s', Runs .virt disk Counted (.brelse blockno p :: .bread 1 blockno p :: tr) s' := by
  have hzero : ∀ b, (s.cache b).refcnt = 0 := fun b => by
    have hcount := h.inv.count (s.cache b).blockno b
    rw [hnone, if_pos rfl] at hcount
    exact UInt32.toNat_inj.mp hcount.symm
  obtain ⟨p, s', hr⟩ := h.inv.exists_bread .virt Int.one_nonneg (mem_bufs_zero (groupOf blockno)) (hzero _)
  have hread : Runs .virt disk Counted (.bread 1 blockno p :: tr) s' := h.bread Int.one_nonneg (fun b => by rw [hnone]; decide) hr
  have hheld : held (.bread 1 blockno p :: tr) blockno p = 1 := by
    show held tr blockno p + (if p = p ∧ blockno = blockno then 1 else 0) = 1
    rw [hnone, if_pos ⟨rfl, rfl⟩]
  have hblock : (s'.cache p).blockno = blockno := by
    by_contra hne
    have hcount := hread.inv.count blockno p
    rw [hheld, if_neg hne] at hcount
    cases hcount
  have hmem := (hread.inv.out p (.inl rfl)).1
  rw [hblock] at hmem
  exact ⟨p, hmem, _, hread.brelse (by rw [hheld]; decide)⟩

theorem exists_reads (disk : UInt32 → Sector) (n : Nat) : ∃ tr s, ∃ f : Nat → Ptr, Runs .virt disk Counted tr s ∧
    (∀ bn b, held tr bn b = 0) ∧ ∀ i < n, f i ∈ bufs (groupOf (nthBlock i)) ∧ Event.bread 1 (nthBlock i) (f i) ∈ tr := by
  induction n with
  | zero => exact ⟨[], _, fun _ => lastBuf, .binit, fun _ _ => rfl, fun i hi => absurd hi (Nat.not_lt_zero i)⟩
  | succ n ih =>
    obtain ⟨tr, s, f, hrun, hnone, hf⟩ := ih
    obtain ⟨p, hp, s', hrun'⟩ := hrun.readRelease (nthBlock n) hnone
    refine ⟨_, s', fun i => if i = n then p else f i, hrun', fun bn b => ?_, fun i hi => ?_⟩
    · show held tr bn b + _ - _ = 0
      rw [hnone, Nat.zero_add, Nat.sub_self]
    · dsimp only
      by_cases hin : i = n
      · rw [if_pos hin, hin]
        exact ⟨hp, List.mem_cons_of_mem _ List.mem_cons_self⟩
      · rw [if_neg hin]
        obtain ⟨hmem, hread⟩ := hf i (by omega)
        exact ⟨hmem, List.mem_cons_of_mem _ (List.mem_cons_of_mem _ hread)⟩

/-- Of 17 blocks of a group, each read and released in its turn, two are given the same buffer: the later read is a miss
that takes a released buffer for another block. -/
theorem lruSpec_of_runs_reused : ∃ tr s p bn bn', Runs .virt (fun _ => Vector.replicate _ 0) Counted tr s ∧ bn ≠ bn' ∧
    Event.bread 1 bn p ∈ tr ∧ Event.bread 1 bn' p ∈ tr ∧ LruSpec .virt tr s := by
  obtain ⟨tr, s, f, hrun, -, hf⟩ := exists_reads (fun _ => Vector.replicate _ 0) (NBUF + 1)
  have hgroup : ∀ i < NBUF + 1, groupOf (nthBlock i) = 0 := by decide
  have hblocks : ∀ i < NBUF + 1, ∀ j < NBUF + 1, nthBlock i = nthBlock j → i = j := by decide
  have hmaps : ∀ i ∈ Finset.range (NBUF + 1), f i ∈ (bufs 0).toFinset := fun i hi => by
    have hlt := Finset.mem_range.mp hi
    exact List.mem_toFinset.mpr (hgroup i hlt ▸ (hf i hlt).1)
  have hcard : (bufs 0).toFinset.card < (Finset.range (NBUF + 1)).card := by decide
  obtain ⟨i, hi, j, hj, hne, heq⟩ := Finset.exists_ne_map_eq_of_card_lt_of_maps_to hcard hmaps
  have hi' := Finset.mem_range.mp hi
  have hj' := Finset.mem_range.mp hj
  refine ⟨tr, s, f i, nthBlock i, nthBlock j, hrun, fun h => hne (hblocks i hi' j hj' h), (hf i hi').2, ?_,
    lruSpec_of_runs .virt _ tr s hrun⟩
  rw [heq]
  exact (hf j hj').2

/-! ## Where the counts wrap -/

/-- `n` references to block 0 of device 1 are out, and nothing else was ever asked for. -/
structure OnlyOne (n : Nat) (tr : List Event) (s : Store) : Prop where
  ring : GroupRing s.cache 0 (bufs 0).reverse
  self : Carries s.cache 1 0 lastBuf
  count : (s.cache lastBuf).refcnt = UInt32.ofNat n
  out : handedOut tr lastBuf
  other : ∀ q, q ≠ lastBuf → Carries s.cache 0 0 q ∧ (s.cache q).refcnt = 0 ∧ ¬ handedOut tr q

/-- The buffer at the end of the list as `binit` builds it. -/
theorem eq_lastBuf {l₁ : List Ptr} {p : Ptr} (h : (bufs 0).reverse = l₁ ++ [p]) : p = lastBuf := by
  have hlast := congrArg List.getLast? h
  rw [List.getLast?_reverse, show (bufs 0).head? = some lastBuf from rfl] at hlast
  simpa using hlast.symm

/-- A miss with every count at zero takes the last buffer of the list. -/
theorem eq_lastBuf_of_free {c : BCache} {l₁ l₂ : List Ptr} {p : Ptr} (h : (bufs 0).reverse = l₁ ++ p :: l₂)
    (hafter : ∀ q ∈ l₂, (c q).refcnt ≠ 0) (hfree : ∀ q, (c q).refcnt = 0) : p = lastBuf := by
  cases l₂ with
  | nil => exact eq_lastBuf h
  | cons q l₂ => exact (hafter q List.mem_cons_self (hfree q)).elim

theorem onlyOne_first (disk : UInt32 → Sector) :
    ∃ tr s, Runs .virt disk (fun _ _ _ _ => True) tr s ∧ OnlyOne 1 tr s := by
  have hinit : Inv [] (Store.mk (binit bss) disk).cache := inv_binit
  have hfresh := fun b => hinit.fresh b (fun h => h)
  have hring : GroupRing (Store.mk (binit bss) disk).cache 0 (bufs 0).reverse := binit_ring (by decide) bss
  have hlook : Lookup ⟨binit bss, disk⟩ 1 0 _ _ := bread_lookup .virt Int.one_nonneg hring
  generalize hr : bread .virt 1 0 ⟨binit bss, disk⟩ = r at hlook
  cases hlook with
  | hit p l₁ l₂ s' hsplit hp hbefore hg =>
    have := hp.1.symm.trans (hfresh p).1.1
    simp at this
  | miss p l₁ l₂ s' hnone hsplit hfree hafter hg =>
    have hp := eq_lastBuf_of_free hsplit hafter fun q => (hfresh q).2.1
    subst hp
    refine ⟨_, s', .bread .binit Int.one_nonneg trivial hr, hg.ring hring, ?_, ?_, .inl rfl, fun q hq => ?_⟩
    · rw [Carries, hg.self]
      exact ⟨rfl, rfl⟩
    · rw [hg.self]
      rfl
    · rw [hg.carries_other hq, hg.other q hq]
      exact ⟨(hfresh q).1, (hfresh q).2.1, fun ho => hq (ho.resolve_right fun h => h).symm⟩
  | full hnone hfull => exact (hfull lastBuf (List.mem_reverse.mpr (mem_bufs_zero 0)) (hfresh _).2.1).elim

theorem OnlyOne.again {n : Nat} (h : OnlyOne n tr s) (hrun : Runs .virt disk (fun _ _ _ _ => True) tr s) :
    ∃ tr' s', Runs .virt disk (fun _ _ _ _ => True) tr' s' ∧ OnlyOne (n + 1) tr' s' := by
  have hlook : Lookup s 1 0 _ _ := bread_lookup .virt Int.one_nonneg h.ring
  have hmem : lastBuf ∈ (bufs 0).reverse := List.mem_reverse.mpr (mem_bufs_zero 0)
  generalize hr : bread .virt 1 0 s = r at hlook
  cases hlook with
  | hit p l₁ l₂ s' hsplit hp hbefore hg =>
    have hpl : p = lastBuf := by
      by_contra hne
      have := hp.1.symm.trans (h.other p hne).1.1
      simp at this
    subst hpl
    refine ⟨_, s', .bread hrun Int.one_nonneg trivial hr, hg.ring h.ring, ?_, ?_, .inl rfl, fun q hq => ?_⟩
    · rw [Carries, hg.self]
      exact ⟨rfl, rfl⟩
    · rw [hg.self, h.count]
      exact (UInt32.ofNat_add n 1).symm
    · rw [hg.carries_other hq, hg.other q hq]
      obtain ⟨hc, h0, ho⟩ := h.other q hq
      exact ⟨hc, h0, fun hq' => ho (hq'.resolve_left fun e => hq e.symm)⟩
  | miss p l₁ l₂ s' hnone => exact (hnone lastBuf hmem h.self).elim
  | full hnone => exact (hnone lastBuf hmem h.self).elim

theorem exists_onlyOne (disk : UInt32 → Sector) (n : Nat) :
    ∃ tr s, Runs .virt disk (fun _ _ _ _ => True) tr s ∧ OnlyOne (n + 1) tr s := by
  induction n with
  | zero => exact onlyOne_first disk
  | succ n ih =>
    obtain ⟨tr, s, hrun, hone⟩ := ih
    exact hone.again hrun

/-- After `2^32` reads of one block its count is zero again, and the next miss takes its buffer while
15 others were never used. -/
theorem not_lruSpec_of_wrap : ¬ ∀ (build : Build) (disk : UInt32 → Sector) (tr : List Event) (s : Store),
    Runs build disk (fun _ _ _ _ => True) tr s → LruSpec build tr s := by
  intro hall
  obtain ⟨tr, s, hrun, hone⟩ := exists_onlyOne (fun _ => Vector.replicate _ 0) (2 ^ 32 - 1)
  have hspec := hall _ _ tr s hrun
  have hzero : ∀ q, (s.cache q).refcnt = 0 := fun q => by
    by_cases hq : q = lastBuf
    · rw [hq, hone.count]
      rfl
    · exact (hone.other q hq).2.1
  have hnone : ∀ b ∈ bufs (groupOf 1024), ¬ Carries s.cache 1 1024 b := fun b _ hc => by
    by_cases hb : b = lastBuf
    · have := hc.2.symm.trans (hb ▸ hone.self.2)
      simp at this
    · have := hc.1.symm.trans (hone.other b hb).1.1
      simp at this
  have hlook : Lookup s 1 1024 _ _ := bread_lookup .virt Int.one_nonneg hone.ring
  generalize hr : bread .virt 1 1024 s = r at hlook
  cases hlook with
  | hit p l₁ l₂ s' hsplit hp hbefore hg => exact hnone p (by rw [← List.mem_reverse]; exact hsplit ▸ (by simp)) hp
  | miss p l₁ l₂ s' _ hsplit hfree hafter hg =>
    have hp := eq_lastBuf_of_free hsplit hafter hzero
    subst hp
    obtain ⟨-, -, -, hfirst⟩ := hspec.recycled 1 1024 lastBuf s' Int.one_nonneg hr hnone
    have hother : (⟨0, .buf ⟨1, by decide⟩⟩ : Ptr) ≠ lastBuf := by decide
    rcases hfirst ⟨0, .buf ⟨1, by decide⟩⟩ (mem_bufs.mpr ⟨_, rfl⟩) hother (hzero _) with hno | ⟨ho, -⟩
    · exact hno hone.out
    · exact (hone.other _ hother).2.2 ho
  | full _ hfull => exact hfull lastBuf (List.mem_reverse.mpr (mem_bufs_zero 0)) (hzero _)

end Exaros.Block
