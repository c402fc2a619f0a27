import Exaros.Block.Bio

/-!
# The groups of the block cache

Each group's list is a ring through its 16 buffers: what `binit` builds, what `bget` finds along it,
and where `brelse` puts a buffer.
-/

namespace Exaros.Block

open Function (update)

def headOf (g : UInt32) : Ptr := ⟨g, .head⟩

/-- The buffers of a group, in memory order. -/
def bufs (g : UInt32) : List Ptr := (List.finRange NBUF).map fun i => ⟨g, .buf i⟩

/-- The list of group `g` runs through `l`, an order of its 16 buffers. -/
structure GroupRing (c : BCache) (g : UInt32) (l : List Ptr) : Prop where
  perm : l.Perm (bufs g)
  ring : Linked.Ring (links c) (headOf g) l

variable {g : UInt32} {s : Store} {blockno : UInt32} {dev : Int}

theorem mem_bufs {p : Ptr} : p ∈ bufs g ↔ ∃ i, p = ⟨g, .buf i⟩ := by
  simp [bufs, eq_comm]

namespace GroupRing

variable {c c' : BCache} {g : UInt32} {l : List Ptr} {p : Ptr}

theorem mem_iff (h : GroupRing c g l) : p ∈ l ↔ ∃ i, p = ⟨g, .buf i⟩ := by
  rw [h.perm.mem_iff, mem_bufs]

theorem group_eq (h : GroupRing c g l) (hp : p ∈ l) : p.group = g := by
  obtain ⟨i, rfl⟩ := h.mem_iff.mp hp
  rfl

theorem group_eq_of_mem (h : GroupRing c g l) (hp : p ∈ headOf g :: l) : p.group = g := by
  rcases List.mem_cons.mp hp with rfl | hp
  · rfl
  · exact h.group_eq hp

theorem length_eq (h : GroupRing c g l) : l.length = NBUF := by
  rw [h.perm.length_eq, bufs, List.length_map, List.length_finRange]

/-- A ring reads only the links of its group. -/
theorem congr (h : GroupRing c g l) (heq : ∀ p, p.group = g → (c' p).next = (c p).next ∧ (c' p).prev = (c p).prev) :
    GroupRing c' g l :=
  ⟨h.perm, h.ring.congr (fun x hx => (heq x (h.group_eq_of_mem hx)).1) fun x hx => (heq x (h.group_eq_of_mem hx)).2⟩

end GroupRing

/-! ## `binit` -/

/-- Buffers pushed in front one after another come out in reverse. -/
theorem foldl_pushFront {c : BCache} {h : Ptr} {done : List Ptr} (l : List Ptr)
    (hr : Linked.Ring (links c) h done) (hl : (l ++ h :: done).Nodup) :
    Linked.Ring (links (l.foldl (fun c b => pushFront c h b) c)) h (l.reverse ++ done) ∧
      ∀ p, p ∉ l ++ h :: done → l.foldl (fun c b => pushFront c h b) c p = c p := by
  induction l generalizing c done with
  | nil => exact ⟨hr, fun _ _ => rfl⟩
  | cons b l ih =>
    rw [List.cons_append, List.nodup_cons] at hl
    have hb : b ∉ h :: done := fun hm => hl.1 (List.mem_append_right _ hm)
    have hbh : b ≠ h := fun e => hb (by simp [e])
    have hr₁ : Linked.Ring (links (pushFront c h b)) h (b :: done) := by
      rw [links_pushFront]
      exact hr.pushFront hb
    have hnodup : (l ++ h :: b :: done).Nodup := by
      have hperm : (l ++ h :: b :: done).Perm (b :: (l ++ h :: done)) :=
        ((List.Perm.swap b h done).append_left l).trans List.perm_middle
      exact hperm.nodup_iff.mpr (List.nodup_cons.mpr hl)
    obtain ⟨hring, hframe⟩ := ih hr₁ hnodup
    refine ⟨by simpa using hring, fun p hp => ?_⟩
    simp only [List.cons_append, List.mem_cons, List.mem_append, not_or] at hp
    rw [List.foldl_cons, hframe p (by simp [hp])]
    have hnext : p ≠ (c h).next := fun e => by
      have := hr.next_mem List.mem_cons_self
      rw [show (links c).next h = p from e.symm] at this
      simp [hp] at this
    exact pushFront_of_ne hp.1 hp.2.2.1 hnext hbh

theorem bufs_nodup (g : UInt32) : (bufs g).Nodup := by
  refine (List.nodup_finRange NBUF).map fun i j h => ?_
  simpa using h

theorem headOf_notMem_bufs (g : UInt32) : headOf g ∉ bufs g := by
  simp [mem_bufs, headOf]

theorem binitGroup_eq (c : BCache) (i : UInt32) :
    binitGroup c i =
      (bufs i).foldl (fun c b => pushFront c (headOf i) b) (setNext (setPrev c (headOf i) (headOf i)) (headOf i) (headOf i)) := by
  rw [bufs, List.foldl_map]
  rfl

/-- The group is a ring of its buffers, and the others are left alone. -/
theorem binitGroup_ring (c : BCache) (i : UInt32) :
    GroupRing (binitGroup c i) i (bufs i).reverse ∧ ∀ p, p.group ≠ i → binitGroup c i p = c p := by
  rw [binitGroup_eq]
  set c₀ := setNext (setPrev c (headOf i) (headOf i)) (headOf i) (headOf i) with hc₀
  have hself : Linked.Ring (links c₀) (headOf i) [] := by
    rw [hc₀, links_setNext, links_setPrev]
    exact Linked.ring_self (by simp [Linked.Links.setNext]) (by simp [Linked.Links.setNext, Linked.Links.setPrev])
  have hnodup : (bufs i ++ [headOf i]).Nodup := by
    rw [List.nodup_append]
    refine ⟨bufs_nodup i, by simp, fun x hx y hy e => ?_⟩
    rw [List.mem_singleton.mp hy] at e
    exact headOf_notMem_bufs i (e ▸ hx)
  obtain ⟨hring, hframe⟩ := foldl_pushFront (bufs i) hself hnodup
  refine ⟨⟨List.reverse_perm _, by simpa using hring⟩, fun p hp => ?_⟩
  have hne : p ≠ headOf i := fun e => hp (by rw [e]; rfl)
  rw [hframe p ?_]
  · simp [hc₀, setNext, setPrev, hne]
  · simp only [List.mem_append, List.mem_singleton, not_or]
    refine ⟨fun hm => ?_, hne⟩
    obtain ⟨j, rfl⟩ := mem_bufs.mp hm
    exact hp rfl

theorem body_binitGroup (c : BCache) (i : UInt32) (p : Ptr) : (binitGroup c i p).body = (c p).body := by
  rw [binitGroup_eq]
  have hfold : ∀ (l : List Ptr) (c : BCache), (l.foldl (fun c b => pushFront c (headOf i) b) c p).body = (c p).body := by
    intro l
    induction l with
    | nil => exact fun _ => rfl
    | cons b l ih =>
      intro c
      rw [List.foldl_cons, ih, body_pushFront]
  rw [hfold, body_setNext, body_setPrev]

theorem foldl_binitGroup (gs : List UInt32) (c : BCache) :
    (∀ g ∈ gs, GroupRing (gs.foldl binitGroup c) g (bufs g).reverse) ∧
      (∀ p, p.group ∉ gs → gs.foldl binitGroup c p = c p) ∧
      ∀ p, (gs.foldl binitGroup c p).body = (c p).body := by
  induction gs generalizing c with
  | nil => exact ⟨by simp, fun _ _ => rfl, fun _ => rfl⟩
  | cons i gs ih =>
    obtain ⟨hring, hframe, hbody⟩ := ih (binitGroup c i)
    obtain ⟨hi, hoff⟩ := binitGroup_ring c i
    refine ⟨fun g hg => ?_, fun p hp => ?_, fun p => ?_⟩
    · by_cases hgs : g ∈ gs
      · exact hring g hgs
      · have hgi : g = i := (List.mem_cons.mp hg).resolve_right hgs
        subst hgi
        rw [List.foldl_cons]
        refine hi.congr fun p hp => ?_
        rw [hframe p (by rw [hp]; exact hgs)]
        exact ⟨rfl, rfl⟩
    · rw [List.mem_cons, not_or] at hp
      rw [List.foldl_cons, hframe p hp.2, hoff p hp.1]
    · rw [List.foldl_cons, hbody, body_binitGroup]

theorem groupOf_toNat (blockno : UInt32) : (groupOf blockno).toNat = blockno.toNat % BCACHE_GROUP_NUM := by
  rw [groupOf, UInt32.toNat_and]
  exact Nat.and_two_pow_sub_one_eq_mod _ 10

theorem groupOf_lt (blockno : UInt32) : (groupOf blockno).toNat < BCACHE_GROUP_NUM := by
  rw [groupOf_toNat]
  exact Nat.mod_lt _ (by decide)

theorem binit_ring (hg : g.toNat < BCACHE_GROUP_NUM) (c : BCache) :
    GroupRing (binit c) g (bufs g).reverse := by
  have := (foldl_binitGroup ((List.range BCACHE_GROUP_NUM).map UInt32.ofNat) c).1 g
    (List.mem_map.mpr ⟨g.toNat, List.mem_range.mpr hg, by simp⟩)
  rw [List.foldl_map] at this
  unfold binit
  exact this

theorem body_binit (c : BCache) (p : Ptr) : (binit c p).body = (c p).body := by
  have := (foldl_binitGroup ((List.range BCACHE_GROUP_NUM).map UInt32.ofNat) c).2.2 p
  rw [List.foldl_map] at this
  unfold binit
  exact this

/-! ## `bread` -/

/-- `b` is the buffer `bget` looks for. -/
def Carries (c : BCache) (dev : Int) (blockno : UInt32) (b : Ptr) : Prop := (c b).dev = dev ∧ (c b).blockno = blockno

instance (c : BCache) (dev : Int) (blockno : UInt32) (b : Ptr) : Decidable (Carries c dev blockno b) :=
  inferInstanceAs (Decidable (_ ∧ _))

/-- `s'` is `s` with buffer `p` given out for `(dev, blockno)` with count `refcnt` and contents `data`. -/
structure Given (s : Store) (p : Ptr) (dev : Int) (blockno refcnt : UInt32) (data : Sector) (s' : Store) : Prop where
  disk : s'.disk = s.disk
  self : s'.cache p =
    { s.cache p with valid := true, dev := dev, blockno := blockno, refcnt := refcnt, data := data }
  other : ∀ q, q ≠ p → s'.cache q = s.cache q

/-- What `bread` of `(dev, blockno)` comes to, when the group's list is `l`: the first buffer that
carries the pair; else the last one without references; else the panic. -/
inductive Lookup (s : Store) (dev : Int) (blockno : UInt32) (l : List Ptr) : Except Panic (Ptr × Store) → Prop
  | hit (p : Ptr) (l₁ l₂ : List Ptr) (s' : Store) : l = l₁ ++ p :: l₂ → Carries s.cache dev blockno p →
      (∀ q ∈ l₁, ¬ Carries s.cache dev blockno q) →
      Given s p dev blockno ((s.cache p).refcnt + 1)
        (if (s.cache p).valid then (s.cache p).data else s.disk blockno) s' →
      Lookup s dev blockno l (.ok (p, s'))
  | miss (p : Ptr) (l₁ l₂ : List Ptr) (s' : Store) : (∀ q ∈ l, ¬ Carries s.cache dev blockno q) →
      l = l₁ ++ p :: l₂ → (s.cache p).refcnt = 0 → (∀ q ∈ l₂, (s.cache q).refcnt ≠ 0) →
      Given s p dev blockno 1 (s.disk blockno) s' → Lookup s dev blockno l (.ok (p, s'))
  | full : (∀ q ∈ l, ¬ Carries s.cache dev blockno q) → (∀ q ∈ l, (s.cache q).refcnt ≠ 0) →
      Lookup s dev blockno l (.error .noBuffers)

/-- The second half of `bread`: the buffer is filled from the disk when it is not valid. -/
theorem bread_of_bget (build : Build) {p : Ptr} {b : Buf} (h : bget dev blockno s.cache = .ok (p, update s.cache p b)) :
    ∃ s', bread build dev blockno s = .ok (p, s') ∧ s'.disk = s.disk ∧ (∀ q, q ≠ p → s'.cache q = s.cache q) ∧
      s'.cache p = { b with valid := true, data := if b.valid then b.data else s.disk b.blockno } := by
  let filled : Buf := { b with valid := true, data := if b.valid then b.data else s.disk b.blockno }
  refine ⟨{ s with cache := update s.cache p filled }, ?_, rfl, fun q hq => by simp [hq], by simp [filled]⟩
  show Except.bind (bget dev blockno s.cache) _ = _
  rw [h]
  by_cases hv : b.valid
  · have hb : { b with valid := true } = b := by rw [← hv]
    simp [Except.bind, hv, pure, Except.pure, hb, filled]
  · cases build with
    | virt => simp [Except.bind, hv, pure, Except.pure, filled, virtioDiskRW, BUFFER_SIZE]
    | sd => simp [Except.bind, hv, pure, Except.pure, filled, sdRead]

theorem bread_error {build : Build} {e : Panic}
    (h : bget dev blockno s.cache = .error e) : bread build dev blockno s = .error e := by
  show Except.bind (bget dev blockno s.cache) _ = _
  rw [h]
  rfl

/-- `bget` by the results of its two loops. -/
theorem bget_of_scan {c : BCache} {found free : Option Ptr} (hdev : 0 ≤ dev)
    (hnext : Linked.scan (fun p => (c p).next) (headOf (groupOf blockno))
      (fun p => decide ((c p).dev = dev ∧ (c p).blockno = blockno)) scanFuel (c (headOf (groupOf blockno))).next = some found)
    (hprev : Linked.scan (fun p => (c p).prev) (headOf (groupOf blockno)) (fun p => decide ((c p).refcnt = 0)) scanFuel
      (c (headOf (groupOf blockno))).prev = some free) :
    bget dev blockno c = found.elim
      (free.elim (.error .noBuffers) fun b =>
        .ok (b, update c b { c b with dev := dev, blockno := blockno, valid := false, refcnt := 1 }))
      fun b => .ok (b, update c b { c b with refcnt := (c b).refcnt + 1 }) := by
  unfold headOf at hnext hprev
  unfold bget
  simp only [hdev, if_true, hnext, hprev]
  cases found with
  | some p => rfl
  | none =>
    cases free with
    | some p => rfl
    | none => rfl

/-- What `bread` does with the buffers of the group. -/
theorem bread_lookup (build : Build) {l : List Ptr} (hdev : 0 ≤ dev)
    (hl : GroupRing s.cache (groupOf blockno) l) : Lookup s dev blockno l (bread build dev blockno s) := by
  have hfuel : l.length < scanFuel := by rw [hl.length_eq]; decide
  have hnext := hl.ring.scan_next (fun p => decide ((s.cache p).dev = dev ∧ (s.cache p).blockno = blockno)) hfuel
  have hprev := hl.ring.scan_prev (fun p => decide ((s.cache p).refcnt = 0)) hfuel
  have hget := bget_of_scan hdev hnext hprev
  cases hfind : l.find? fun p => decide ((s.cache p).dev = dev ∧ (s.cache p).blockno = blockno) with
  | some p =>
    rw [hfind] at hget
    obtain ⟨hp, l₁, l₂, hsplit, hbefore⟩ := List.find?_eq_some_iff_append.mp hfind
    have hp : Carries s.cache dev blockno p := by simpa [Carries] using hp
    obtain ⟨s', hs', hdisk, hother, hself⟩ := bread_of_bget build hget
    rw [hs']
    refine .hit p l₁ l₂ s' hsplit hp (fun q hq hc => ?_) ⟨hdisk, ?_, hother⟩
    · have := hbefore q hq
      rw [Bool.not_eq_true', decide_eq_false_iff_not] at this
      exact this hc
    · rw [hself]
      simp only [hp.1, hp.2]
  | none =>
    rw [hfind] at hget
    have hnone : ∀ q ∈ l, ¬ Carries s.cache dev blockno q := fun q hq hc => by
      have := List.find?_eq_none.mp hfind q hq
      exact this (decide_eq_true hc)
    cases hfree : l.reverse.find? fun p => decide ((s.cache p).refcnt = 0) with
    | some p =>
      rw [hfree] at hget
      obtain ⟨hp, l₂, l₁, hsplit, hafter⟩ := List.find?_eq_some_iff_append.mp hfree
      obtain ⟨s', hs', hdisk, hother, hself⟩ := bread_of_bget build hget
      rw [hs']
      refine .miss p l₁.reverse l₂.reverse s' hnone ?_ (of_decide_eq_true hp) (fun q hq => ?_)
        ⟨hdisk, by rw [hself]; rfl, hother⟩
      · have := congrArg List.reverse hsplit
        simpa using this
      · have := hafter q (List.mem_reverse.mp hq)
        rw [Bool.not_eq_true', decide_eq_false_iff_not] at this
        exact this
    | none =>
      rw [hfree] at hget
      rw [bread_error hget]
      refine .full hnone fun q hq h0 => ?_
      have := List.find?_eq_none.mp hfree q (List.mem_reverse.mpr hq)
      exact this (decide_eq_true h0)

/-! ## `brelse` -/

/-- `brelse` with references left. -/
theorem brelse_keep {b : Ptr} (h : (s.cache b).refcnt - 1 ≠ 0) :
    brelse b s = { s with cache := update s.cache b { s.cache b with refcnt := (s.cache b).refcnt - 1 } } := by
  simp [brelse, h]

theorem brelse_front {b : Ptr} (h : (s.cache b).refcnt - 1 = 0) :
    brelse b s = { s with cache := pushFront (unlink
      (update s.cache b { s.cache b with refcnt := (s.cache b).refcnt - 1 }) b) (headOf (groupOf (s.cache b).blockno)) b } := by
  simp [brelse, h, headOf]

theorem brelse_disk (s : Store) (b : Ptr) : (brelse b s).disk = s.disk := by
  by_cases h : (s.cache b).refcnt - 1 = 0
  · rw [brelse_front h]
  · rw [brelse_keep h]

/-- `brelse` changes one count and links. -/
theorem brelse_body (s : Store) (b q : Ptr) : ((brelse b s).cache q).body =
    (update s.cache b { s.cache b with refcnt := (s.cache b).refcnt - 1 } q).body := by
  by_cases h : (s.cache b).refcnt - 1 = 0
  · rw [brelse_front h]
    simp only [body_pushFront, body_unlink]
  · rw [brelse_keep h]

/-- The count of `b` falls to zero: `b` goes to the front of its group. -/
theorem GroupRing.brelse {b : Ptr} {l₁ l₂ : List Ptr}
    (h : GroupRing s.cache g (l₁ ++ b :: l₂)) (hg : groupOf (s.cache b).blockno = g) (h0 : (s.cache b).refcnt - 1 = 0) :
    GroupRing (brelse b s).cache g (b :: (l₁ ++ l₂)) := by
  rw [brelse_front h0, hg]
  have hupd : GroupRing (update s.cache b { s.cache b with refcnt := (s.cache b).refcnt - 1 }) g (l₁ ++ b :: l₂) := by
    refine h.congr fun p _ => ?_
    by_cases hp : p = b
    · subst hp
      simp
    · simp [hp]
  have hnodup := hupd.ring.nodup
  refine ⟨List.perm_middle.symm.trans h.perm, ?_⟩
  rw [links_pushFront, links_unlink]
  refine hupd.ring.unlink.pushFront ?_
  simp only [List.nodup_cons, List.nodup_middle, List.mem_append, List.mem_cons, not_or] at hnodup ⊢
  exact ⟨fun e => hnodup.1.2.1 e.symm, hnodup.2.1⟩

/-- `brelse` leaves the rings of the other groups alone. -/
theorem GroupRing.brelse_other {b : Ptr} {l : List Ptr} (h : GroupRing s.cache g l)
    (hb : b ∈ l) (hg : groupOf (s.cache b).blockno = g) {p : Ptr} (hp : p.group ≠ g) :
    (Block.brelse b s).cache p = s.cache p := by
  have hbg : b.group = g := h.group_eq hb
  have hpb : p ≠ b := fun e => hp (e ▸ hbg)
  by_cases h0 : (s.cache b).refcnt - 1 = 0
  · rw [brelse_front h0, hg]
    set c := update s.cache b { s.cache b with refcnt := (s.cache b).refcnt - 1 } with hc
    have hring : GroupRing c g l := h.congr fun q _ => by
      by_cases hq : q = b
      · subst hq
        simp [hc]
      · simp [hc, hq]
    obtain ⟨l₁, l₂, rfl⟩ := List.append_of_mem hb
    have hnodup := hring.ring.nodup
    -- every node the two edits write is in group `g`
    have hin : ∀ q ∈ headOf g :: (l₁ ++ b :: l₂), p ≠ q := fun q hq e => hp (e ▸ hring.group_eq_of_mem hq)
    have hbm : b ∈ headOf g :: (l₁ ++ b :: l₂) := List.mem_cons_of_mem _ hb
    have hself : (c b).next ≠ b := hring.ring.next_ne hb
    have hfirst : p ≠ (unlink c b (headOf g)).next := by
      have hmem := hring.ring.unlink.next_mem List.mem_cons_self
      rw [← links_unlink] at hmem
      refine hin _ ?_
      have hsub : headOf g :: (l₁ ++ l₂) ⊆ headOf g :: (l₁ ++ b :: l₂) := by
        intro q hq
        simp only [List.mem_cons, List.mem_append] at hq ⊢
        rcases hq with hq | hq | hq
        · exact .inl hq
        · exact .inr (.inl hq)
        · exact .inr (.inr (.inr hq))
      exact hsub hmem
    show pushFront (unlink c b) (headOf g) b p = _
    rw [pushFront_of_ne hpb (hin _ List.mem_cons_self) hfirst (fun e => ?_),
      unlink_of_ne (hin _ (hring.ring.next_mem hbm)) (hin _ (hring.ring.prev_mem hbm)) hself]
    · simp [hpb]
    · simp only [List.nodup_cons, List.mem_append, List.mem_cons, not_or] at hnodup
      exact hnodup.1.2.1 e.symm
  · rw [brelse_keep h0]
    simp [hpb]

end Exaros.Block
