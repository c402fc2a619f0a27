import Exaros.Driver.Virtio
import Exaros.Lib.Fifo
import Mathlib.Data.List.GetD

/-!
# The requests in flight

Each thread past `alloc3Desc` has a chain of three descriptors of its own until it leaves, and the heads
between the driver and the device are those of the requests whose buffer is still marked.

**What it does not establish.** That the device ever answers. No thread is killed here.
-/

namespace Exaros.Driver

open Function (update update_self update_of_ne update_eq_self)

variable {T B : Type}

/-! ## Chains of descriptors -/

section Chains

/-- The descriptors are linked in this order, and the last one ends the chain. -/
def Chain (desc : Nat → VirtqDesc B) : List Nat → Prop
  | [] => False
  | [i] => (desc i).flags &&& VRING_DESC_F_NEXT = 0
  | i :: j :: l => (desc i).flags &&& VRING_DESC_F_NEXT ≠ 0 ∧ (desc i).next = j ∧ Chain desc (j :: l)

theorem chain_congr {desc desc' : Nat → VirtqDesc B} {l : List Nat} (h : Chain desc l)
    (hd : ∀ i ∈ l, desc' i = desc i) : Chain desc' l := by
  induction l with
  | nil => exact h
  | cons i l ih =>
    cases l with
    | nil =>
      show (desc' i).flags &&& VRING_DESC_F_NEXT = 0
      rw [hd i List.mem_cons_self]
      exact h
    | cons j l =>
      refine ⟨?_, ?_, ih h.2.2 fun k hk => hd k (List.mem_cons_of_mem _ hk)⟩
      · rw [hd i List.mem_cons_self]
        exact h.1
      · rw [hd i List.mem_cons_self]
        exact h.2.1

/-- The world after the descriptors `l` have been given back. -/
structure Freed (s s' : World T B) (l : List Nat) : Prop where
  rest : s' = { s with disk := { s.disk with desc := s'.disk.desc, free := s'.disk.free }, asleep := s'.asleep }
  free : ∀ j, s'.disk.free j = (decide (j ∈ l) || s.disk.free j)
  desc : ∀ j, j ∉ l → s'.disk.desc j = s.disk.desc j

theorem Freed.nil (s : World T B) : Freed s s [] where
  rest := rfl
  free := fun j => by simp
  desc := fun j _ => rfl

theorem Freed.trans {s s₁ s' : World T B} {l l' : List Nat} (h : Freed s s₁ l) (h' : Freed s₁ s' l') :
    Freed s s' (l ++ l') where
  rest := by
    rw [h'.rest, h.rest]
  free := fun j => by
    rw [h'.free, h.free]
    simp only [List.mem_append, Bool.decide_or]
    cases decide (j ∈ l) with
    | true => simp
    | false => simp
  desc := fun j hj => by
    rw [List.mem_append, not_or] at hj
    rw [h'.desc j hj.2, h.desc j hj.1]

variable [DecidableEq B] {s : World T B} {idx : List Nat}

theorem freeDesc_ok {i : Nat} (hlt : i < RING_SIZE) (hfree : s.disk.free i = false) :
    ∃ s', freeDesc s i = .ok s' ∧ Freed s s' [i] := by
  refine ⟨_, by rw [freeDesc, if_neg (Nat.not_le_of_lt hlt), hfree, if_neg Bool.false_ne_true], rfl, fun j => ?_,
    fun j hj => ?_⟩
  · by_cases hj : j = i
    · subst hj
      simp [World.wakeup]
    · simp [World.wakeup, hj]
  · exact update_of_ne (fun e => hj (List.mem_singleton.mpr e)) ..

theorem foldl_freeDesc {l : List Nat} (hl : l.Nodup) (hlt : ∀ i ∈ l, i < RING_SIZE)
    (hfree : ∀ i ∈ l, s.disk.free i = false) : ∃ s', l.foldlM freeDesc s = .ok s' ∧ Freed s s' l := by
  induction l generalizing s with
  | nil => exact ⟨s, rfl, .nil s⟩
  | cons i l ih =>
    obtain ⟨hi, hl⟩ := List.nodup_cons.mp hl
    obtain ⟨s₁, h₁, hs₁⟩ := freeDesc_ok (hlt i List.mem_cons_self) (hfree i List.mem_cons_self)
    obtain ⟨s', h', hs'⟩ := ih hl (fun j hj => hlt j (List.mem_cons_of_mem _ hj)) fun j hj => by
      rw [hs₁.free, hfree j (List.mem_cons_of_mem _ hj), Bool.or_false, decide_eq_false_iff_not, List.mem_singleton]
      rintro rfl
      exact hi hj
    refine ⟨s', ?_, hs₁.trans hs'⟩
    rw [List.foldlM_cons, h₁]
    exact h'

/-- Following a chain gives back just its descriptors. -/
theorem freeLoop_ok {n i : Nat} {l : List Nat} (hn : l.length < n) (hchain : Chain s.disk.desc (i :: l))
    (hl : (i :: l).Nodup) (hlt : ∀ j ∈ i :: l, j < RING_SIZE) (hfree : ∀ j ∈ i :: l, s.disk.free j = false) :
    ∃ s', freeLoop n s i = .ok s' ∧ Freed s s' (i :: l) := by
  induction l generalizing n i s with
  | nil =>
    cases n with
    | zero => cases hn
    | succ n =>
      obtain ⟨s', h', hs'⟩ := freeDesc_ok (hlt i List.mem_cons_self) (hfree i List.mem_cons_self)
      refine ⟨s', ?_, hs'⟩
      have hend : (s.disk.desc i).flags &&& VRING_DESC_F_NEXT = 0 := hchain
      rw [freeLoop, h', Loop.ok_bind, hend, if_neg fun h => h rfl]
  | cons j l ih =>
    cases n with
    | zero => cases hn
    | succ n =>
      obtain ⟨hi, hl⟩ := List.nodup_cons.mp hl
      obtain ⟨hflag, hnext, hrest⟩ := hchain
      obtain ⟨s₁, h₁, hs₁⟩ := freeDesc_ok (hlt i List.mem_cons_self) (hfree i List.mem_cons_self)
      have hne : ∀ k ∈ j :: l, k ∉ [i] := fun k hk e => hi (List.mem_singleton.mp e ▸ hk)
      obtain ⟨s', h', hs'⟩ := ih (Nat.lt_of_succ_lt_succ hn) (chain_congr hrest fun k hk => hs₁.desc k (hne k hk)) hl
        (fun k hk => hlt k (List.mem_cons_of_mem _ hk)) fun k hk => by
          rw [hs₁.free, hfree k (List.mem_cons_of_mem _ hk), Bool.or_false, decide_eq_false_iff_not]
          exact hne k hk
      refine ⟨s', ?_, hs₁.trans hs'⟩
      rw [freeLoop, h₁, Loop.ok_bind, if_pos hflag, hnext]
      exact h'

/-- Where a call of `alloc3Desc` stands: it has taken the descriptors `idx`, and nothing else moved. -/
structure Taken (s s' : World T B) (idx : List Nat) : Prop where
  rest : s' = { s with disk := { s.disk with free := s'.disk.free } }
  free : ∀ j, s'.disk.free j = (decide (j ∉ idx) && s.disk.free j)
  nodup : idx.Nodup
  lt : ∀ i ∈ idx, i < RING_SIZE
  avail : ∀ i ∈ idx, s.disk.free i = true

omit [DecidableEq B] in

/-- One descriptor more, or there is none. -/
theorem Taken.allocDesc {s s₁ : World T B} (h : Taken s s₁ idx) :
    (∃ i s', allocDesc s₁ = (some i, s') ∧ Taken s s' (idx ++ [i])) ∨ allocDesc s₁ = (none, s₁) := by
  cases hfind : (List.range RING_SIZE).find? s₁.disk.free with
  | none => exact .inr (by rw [Driver.allocDesc, hfind])
  | some i =>
    have hi : s₁.disk.free i = true := List.find?_some hfind
    have hlt : i < RING_SIZE := List.mem_range.mp (List.mem_of_find?_eq_some hfind)
    rw [h.free, Bool.and_eq_true, decide_eq_true_eq] at hi
    refine .inl ⟨i, _, by rw [Driver.allocDesc, hfind], ?_, fun j => ?_, ?_, fun j hj => ?_, fun j hj => ?_⟩
    · rw [h.rest]
    · by_cases hj : j = i
      · subst hj
        simp
      · simp [hj, h.free]
    · exact List.nodup_append.mpr ⟨h.nodup, List.nodup_singleton i, fun a ha b hb e =>
        hi.1 (List.mem_singleton.mp hb ▸ e ▸ ha)⟩
    · rcases List.mem_append.mp hj with hj | hj
      · exact h.lt j hj
      · exact List.mem_singleton.mp hj ▸ hlt
    · rcases List.mem_append.mp hj with hj | hj
      · exact h.avail j hj
      · exact List.mem_singleton.mp hj ▸ hi.2

/-- The world after an allocation that failed: only descriptors that are free again were touched. -/
structure RolledBack (s s' : World T B) : Prop where
  rest : s' = { s with disk := { s.disk with desc := s'.disk.desc, free := s'.disk.free }, asleep := s'.asleep }
  free : s'.disk.free = s.disk.free
  desc : ∀ j, s.disk.free j = false → s'.disk.desc j = s.disk.desc j

omit [DecidableEq B] in
theorem Taken.freed {s s₁ s' : World T B} (h : Taken s s₁ idx) (hf : Freed s₁ s' idx) :
    RolledBack s s' where
  rest := by
    rw [hf.rest, h.rest]
  free := by
    funext j
    rw [hf.free, h.free]
    by_cases hj : j ∈ idx
    · simp [hj, h.avail j hj]
    · simp [hj]
  desc := fun j hj => by
    have hmem : j ∉ idx := fun hmem => by
      rw [h.avail j hmem] at hj
      cases hj
    rw [hf.desc j hmem, h.rest]

/-- The loop of `alloc3Desc` takes all the descriptors it wants or gives back those it took. -/
theorem allocLoop_ok {n : Nat} {s s₁ : World T B} (h : Taken s s₁ idx) :
    (∃ l s', allocLoop n idx s₁ = .ok (some l, s') ∧ l.length = idx.length + n ∧ Taken s s' l) ∨
      ∃ s', allocLoop n idx s₁ = .ok (none, s') ∧ RolledBack s s' := by
  induction n generalizing idx s₁ with
  | zero => exact .inl ⟨idx, s₁, rfl, rfl, h⟩
  | succ n ih =>
    rcases h.allocDesc with ⟨i, s₂, hi, h₂⟩ | hnone
    · rw [allocLoop, hi]
      rcases ih h₂ with ⟨l, s', hl, hlen, h'⟩ | hfail
      · refine .inl ⟨l, s', hl, ?_, h'⟩
        rw [hlen, List.length_append, List.length_singleton, Nat.add_assoc, Nat.add_comm 1]
      · exact .inr hfail
    · rw [allocLoop, hnone]
      obtain ⟨s', h', hf⟩ := foldl_freeDesc h.nodup h.lt fun i hi => by
        rw [h.free, Bool.and_eq_false_iff]
        exact .inl (by simpa using hi)
      refine .inr ⟨s', ?_, h.freed hf⟩
      show (idx.foldlM freeDesc s₁ >>= fun s => .ok (none, s)) = _
      rw [h']
      rfl

theorem alloc3Desc_ok (s : World T B) :
    (∃ l s', alloc3Desc s = .ok (some l, s') ∧ l.length = 3 ∧ Taken s s' l) ∨
      ∃ s', alloc3Desc s = .ok (none, s') ∧ RolledBack s s' := by
  have hstart : Taken s s [] := ⟨rfl, fun j => by simp, List.nodup_nil, fun i hi => (List.not_mem_nil hi).elim,
    fun i hi => (List.not_mem_nil hi).elim⟩
  exact allocLoop_ok hstart

end Chains

/-! ## The invariant -/

section Invariant

/-- The request a thread has handed to the device. -/
def Pc.sent : Pc B → Option (Request B)
  | .waiting r => some r
  | .parked r => some r
  | _ => none

/-- The thread has the lock at these points. -/
def Pc.Inside : Pc B → Prop
  | .alloc _ _ => True
  | .built _ => True
  | .waiting _ => True
  | _ => False

theorem Pc.request_of_sent {pc : Pc B} {r : Request B} (h : pc.sent = some r) : pc.request = some r := by
  cases pc with
  | waiting q => exact h
  | parked q => exact h
  | out => cases h
  | enter b write => cases h
  | alloc b write => cases h
  | built q => cases h

theorem Pc.buf_of_request {pc : Pc B} {r : Request B} (h : pc.request = some r) : pc.buf = some r.b := by
  cases pc with
  | waiting q => exact congrArg (Option.map Request.b) h
  | parked q => exact congrArg (Option.map Request.b) h
  | built q => exact congrArg (Option.map Request.b) h
  | out => cases h
  | enter b write => cases h
  | alloc b write => cases h

/-- The descriptors of a request are its own chain, and its head leads the handler to its buffer. -/
structure Owns (d : Disk B) (r : Request B) : Prop where
  length : r.idx.length = 3
  nodup : r.idx.Nodup
  lt : ∀ i ∈ r.idx, i < RING_SIZE
  taken : ∀ i ∈ r.idx, d.free i = false
  chain : Chain d.desc r.idx
  buffer : (d.info (r.at 0)).b = some r.b

theorem Owns.at_mem {d : Disk B} {r : Request B} (h : Owns d r) {j : Nat} (hj : j < 3) : r.at j ∈ r.idx := by
  rw [Request.at, List.getD_eq_getElem _ _ (h.length ▸ hj)]
  exact List.getElem_mem _

theorem Owns.at_ne {d : Disk B} {r : Request B} (h : Owns d r) : r.at 1 ≠ r.at 0 := by
  intro e
  rw [Request.at, Request.at, List.getD_eq_getElem _ _ (by rw [h.length]; decide),
    List.getD_eq_getElem _ _ (by rw [h.length]; decide)] at e
  exact absurd (h.nodup.getElem_inj_iff.mp e) (by decide)

theorem Owns.congr {d d' : Disk B} {r : Request B} (h : Owns d r) (hfree : ∀ i ∈ r.idx, d'.free i = d.free i)
    (hdesc : ∀ i ∈ r.idx, d'.desc i = d.desc i) (hinfo : (d'.info (r.at 0)).b = (d.info (r.at 0)).b) : Owns d' r where
  length := h.length
  nodup := h.nodup
  lt := h.lt
  taken := fun i hi => (hfree i hi).trans (h.taken i hi)
  chain := chain_congr h.chain hdesc
  buffer := hinfo.trans h.buffer

/-- `pend` are the heads the device has not fetched, `done` those the handler has not seen. -/
structure Inv (s : World T B) (pend done : List Nat) : Prop where
  owns : ∀ t r, (s.pc t).request = some r → Owns s.disk r
  apart : ∀ t u r q, t ≠ u → (s.pc t).request = some r → (s.pc u).request = some q → r.idx.Disjoint q.idx
  free : ∀ i < RING_SIZE, s.disk.free i = false → ∃ t r, (s.pc t).request = some r ∧ i ∈ r.idx
  bufs : ∀ t u b, (s.pc t).buf = some b → (s.pc u).buf = some b → t = u
  status : ∀ i, (s.disk.info i).status = 0
  avail : Fifo.Queue (2 ^ 16) RING_SIZE s.disk.availRing s.seen s.disk.availIdx pend
  used : Fifo.Queue (2 ^ 16) RING_SIZE s.disk.usedRing s.disk.usedIndex s.disk.usedIdx done
  nodup : (pend ++ s.working ++ done).Nodup
  heads : ∀ i ∈ pend ++ s.working ++ done, ∃ t r, (s.pc t).sent = some r ∧ r.at 0 = i ∧ (s.bufs r.b).disk = 1
  built : ∀ t r, s.pc t = .built r → s.disk.availRing (s.disk.availIdx % RING_SIZE) = r.at 0 ∧ (s.bufs r.b).disk = 1
  inside : ∀ t, (s.pc t).Inside → s.vdiskLock = some (.thread t)

variable {s s' : World T B} {pend done : List Nat} {t u : T} {r q : Request B}

theorem Inv.eq_of_mem (h : Inv s pend done) (hr : (s.pc t).request = some r) (hq : (s.pc u).request = some q) {i : Nat}
    (hi : i ∈ r.idx) (hi' : i ∈ q.idx) : t = u ∧ r = q := by
  by_cases htu : t = u
  · subst htu
    exact ⟨rfl, Option.some.inj (hr.symm.trans hq)⟩
  · exact (h.apart t u r q htu hr hq hi hi').elim

/-- A head on its way belongs to one thread. -/
theorem Inv.head_of (h : Inv s pend done) (hr : (s.pc t).request = some r) {i : Nat} (hi : i ∈ r.idx)
    (hmem : i ∈ pend ++ s.working ++ done) : (s.pc t).sent = some r ∧ r.at 0 = i ∧ (s.bufs r.b).disk = 1 := by
  obtain ⟨u, q, hq, rfl, hflag⟩ := h.heads i hmem
  have hreq := Pc.request_of_sent hq
  obtain ⟨rfl, rfl⟩ := h.eq_of_mem hr hreq hi ((h.owns _ _ hreq).at_mem (by decide))
  exact ⟨hq, rfl, hflag⟩

/-- There is always room for another head in either ring. -/
theorem Inv.length_lt (h : Inv s pend done) : (pend ++ s.working ++ done).length < RING_SIZE := by
  by_cases hnil : pend ++ s.working ++ done = []
  · rw [hnil]
    decide
  · obtain ⟨i, hi⟩ := List.exists_mem_of_ne_nil _ hnil
    obtain ⟨t, r, hr, rfl, -⟩ := h.heads i hi
    have hreq := Pc.request_of_sent hr
    have hown := h.owns t r hreq
    -- the second descriptor of the request is no head
    have hsecond : r.at 1 ∉ pend ++ s.working ++ done := fun hmem =>
      hown.at_ne (h.head_of hreq (hown.at_mem (by decide)) hmem).2.1.symm
    have hsub : pend ++ s.working ++ done ⊆ (List.range RING_SIZE).erase (r.at 1) := by
      intro j hj
      obtain ⟨u, q, hq, rfl, -⟩ := h.heads j hj
      have hq' := h.owns u q (Pc.request_of_sent hq)
      rw [List.nodup_range.mem_erase_iff, List.mem_range]
      exact ⟨fun e => hsecond (e ▸ hj), hq'.lt _ (hq'.at_mem (by decide))⟩
    have hle := (List.subperm_of_subset h.nodup hsub).length_le
    rw [List.length_erase_of_mem (List.mem_range.mpr (hown.lt _ (hown.at_mem (by decide)))), List.length_range] at hle
    exact Nat.lt_of_le_of_lt hle (by decide)

theorem Inv.pend_lt (h : Inv s pend done) : pend.length < RING_SIZE := by
  have := h.length_lt
  simp only [List.length_append] at this
  omega

theorem Inv.done_lt (h : Inv s pend done) : done.length < RING_SIZE := by
  have := h.length_lt
  simp only [List.length_append] at this
  omega

/-- At the start nothing is under way. -/
theorem Initial.inv (h : Initial s) : Inv s [] [] where
  owns := fun t r hr => by
    rw [h.pc t] at hr
    cases hr
  apart := fun t u r q _ hr _ => by
    rw [h.pc t] at hr
    cases hr
  free := fun i _ hi => by
    rw [h.disk] at hi
    cases hi
  bufs := fun t u b hb _ => by
    rw [h.pc t] at hb
    cases hb
  status := fun i => by
    rw [h.disk]
    rfl
  avail := by
    rw [h.disk, h.seen]
    exact .nil (by decide)
  used := by
    rw [h.disk]
    exact .nil (show 0 < 2 ^ 16 by decide)
  nodup := by
    rw [h.working]
    exact List.nodup_nil
  heads := fun i hi => by
    rw [h.working] at hi
    cases hi
  built := fun t r hr => by
    rw [h.pc t] at hr
    cases hr
  inside := fun t ht => by
    rw [h.pc t] at ht
    cases ht

end Invariant

/-! ## The steps of a thread -/

section Threads

variable [DecidableEq T] {s s' : World T B} {pend done : List Nat} {t : T} {r : Request B}

theorem setPc_self {pc : Pc B} : (s.setPc t pc).pc t = pc := update_self ..

theorem setPc_of_ne {pc : Pc B} {u : T} (h : u ≠ t) : (s.setPc t pc).pc u = s.pc u := update_of_ne h ..

/-- A thread moves to a point with the same request, and takes or leaves the lock. -/
theorem Inv.move (h : Inv s pend done) {pc : Pc B} (hreq : pc.request = (s.pc t).request) (hsent : pc.sent = (s.pc t).sent)
    (hbuf : pc.buf = (s.pc t).buf) (hbuilt : ∀ r, pc ≠ .built r) {asleep : T → Option (Chan B)}
    {vdiskLock : Option (Holder T)} (hself : pc.Inside → vdiskLock = some (.thread t))
    (hother : ∀ u, u ≠ t → (s.pc u).Inside → vdiskLock = some (.thread u)) :
    Inv { s.setPc t pc with asleep := asleep, vdiskLock := vdiskLock } pend done := by
  have hpc : ∀ {γ : Type} (f : Pc B → Option γ), f pc = f (s.pc t) → ∀ u, f ((s.setPc t pc).pc u) = f (s.pc u) := by
    intro γ f hf u
    by_cases hu : u = t
    · subst hu
      rw [setPc_self]
      exact hf
    · rw [setPc_of_ne hu]
  have hreq := hpc Pc.request hreq
  have hsent := hpc Pc.sent hsent
  have hbuf := hpc Pc.buf hbuf
  refine ⟨fun u r hr => h.owns u r ((hreq u).symm.trans hr), fun u v r q huv hr hq => ?_, fun i hi hfree => ?_,
    fun u v b hu hv => h.bufs u v b ((hbuf u).symm.trans hu) ((hbuf v).symm.trans hv), h.status, h.avail, h.used, h.nodup,
    fun i hi => ?_, fun u r hr => ?_, fun u hu => ?_⟩
  · exact h.apart u v r q huv ((hreq u).symm.trans hr) ((hreq v).symm.trans hq)
  · obtain ⟨u, r, hr, hmem⟩ := h.free i hi hfree
    exact ⟨u, r, (hreq u).trans hr, hmem⟩
  · obtain ⟨u, r, hr, hhead⟩ := h.heads i hi
    exact ⟨u, r, (hsent u).trans hr, hhead⟩
  · by_cases htu : u = t
    · subst htu
      exact absurd (setPc_self.symm.trans hr) (hbuilt r)
    · exact h.built u r ((setPc_of_ne htu).symm.trans hr)
  · by_cases htu : u = t
    · subst htu
      exact hself ((congrArg Pc.Inside setPc_self).mp hu)
    · exact hother u htu ((congrArg Pc.Inside (setPc_of_ne htu)).mp hu)

/-- A thread comes in with a buffer that no other has. -/
theorem Inv.call (h : Inv s pend done) (hout : s.pc t = .out) {b : B} (hb : ∀ u, (s.pc u).buf ≠ some b) (write : Bool) :
    Inv (s.setPc t (.enter b write)) pend done := by
  have hpc : ∀ {γ : Type} (f : Pc B → Option γ), f (.enter b write) = none → f .out = none →
      ∀ u, f ((s.setPc t (.enter b write)).pc u) = f (s.pc u) := by
    intro γ f hf hf' u
    by_cases hu : u = t
    · subst hu
      rw [setPc_self, hout, hf, hf']
    · rw [setPc_of_ne hu]
  have hreq := hpc Pc.request rfl rfl
  have hsent := hpc Pc.sent rfl rfl
  refine ⟨fun u r hr => h.owns u r ((hreq u).symm.trans hr), fun u v r q huv hr hq => ?_, fun i hi hfree => ?_,
    fun u v c hu hv => ?_, h.status, h.avail, h.used, h.nodup, fun i hi => ?_, fun u r hr => ?_, fun u hu => ?_⟩
  · exact h.apart u v r q huv ((hreq u).symm.trans hr) ((hreq v).symm.trans hq)
  · obtain ⟨u, r, hr, hmem⟩ := h.free i hi hfree
    exact ⟨u, r, (hreq u).trans hr, hmem⟩
  · by_cases hut : u = t
    · subst hut
      rw [setPc_self] at hu
      cases hu
      by_cases hvu : v = u
      · exact hvu.symm
      · exact (hb v ((congrArg Pc.buf (setPc_of_ne hvu)).symm.trans hv)).elim
    · have hu' := (congrArg Pc.buf (setPc_of_ne hut)).symm.trans hu
      by_cases hvt : v = t
      · subst hvt
        rw [setPc_self] at hv
        cases hv
        exact (hb u hu').elim
      · exact h.bufs u v c hu' ((congrArg Pc.buf (setPc_of_ne hvt)).symm.trans hv)
  · obtain ⟨u, r, hr, hhead⟩ := h.heads i hi
    exact ⟨u, r, (hsent u).trans hr, hhead⟩
  · by_cases hut : u = t
    · subst hut
      rw [setPc_self] at hr
      cases hr
    · exact h.built u r ((setPc_of_ne hut).symm.trans hr)
  · by_cases hut : u = t
    · subst hut
      rw [setPc_self] at hu
      exact hu.elim
    · exact h.inside u ((congrArg Pc.Inside (setPc_of_ne hut)).mp hu)

/-- A thread takes the lock. -/
theorem Inv.acquire (h : Inv s pend done) (hlock : s.vdiskLock = none) : Inv (acquire s t) pend done := by
  have hnot : ∀ u, ¬ (s.pc u).Inside := fun u hu => by
    rw [h.inside u hu] at hlock
    cases hlock
  cases hpc : s.pc t with
  | enter b write =>
    rw [Driver.acquire, hpc]
    exact h.move (by rw [hpc]; rfl) (by rw [hpc]; rfl) (by rw [hpc]; rfl) (fun r e => by cases e) (fun _ => rfl)
      fun u _ hu => (hnot u hu).elim
  | parked r =>
    rw [Driver.acquire, hpc]
    exact h.move (by rw [hpc]; rfl) (by rw [hpc]; rfl) (by rw [hpc]; rfl) (fun r e => by cases e) (fun _ => rfl)
      fun u _ hu => (hnot u hu).elim
  | out =>
    rw [Driver.acquire, hpc]
    exact h
  | alloc b write =>
    rw [Driver.acquire, hpc]
    exact h
  | built r =>
    rw [Driver.acquire, hpc]
    exact h
  | waiting r =>
    rw [Driver.acquire, hpc]
    exact h

omit [DecidableEq T] in
/-- Another thread than the holder of the lock is not inside. -/
theorem Inv.not_inside (h : Inv s pend done) (hlock : s.vdiskLock = some (.thread t)) {u : T} (hu : u ≠ t) :
    ¬ (s.pc u).Inside := fun hin => by
  have := hlock.symm.trans (h.inside u hin)
  cases this
  exact hu rfl

/-- The head of a request goes into the ring. -/
theorem Inv.publish (h : Inv s pend done) (hpc : s.pc t = .built r) : Inv (publish s t r) (pend ++ [r.at 0]) done := by
  obtain ⟨hslot, hflag⟩ := h.built t r hpc
  have hreq : (s.pc t).request = some r := by rw [hpc]; rfl
  have hlock := h.inside t (by rw [hpc]; trivial)
  have hown := h.owns t r hreq
  have hnew : r.at 0 ∉ pend ++ s.working ++ done := fun hmem => by
    have := (h.head_of hreq (hown.at_mem (by decide)) hmem).1
    rw [hpc] at this
    cases this
  have hself : (Driver.publish s t r).pc t = .waiting r := setPc_self
  have hreqs : ∀ u, ((Driver.publish s t r).pc u).request = (s.pc u).request := by
    intro u
    by_cases hu : u = t
    · subst hu
      rw [hreq, hself]
      rfl
    · exact congrArg Pc.request (setPc_of_ne hu)
  have hbufs : ∀ u, ((Driver.publish s t r).pc u).buf = (s.pc u).buf := by
    intro u
    by_cases hu : u = t
    · subst hu
      rw [hpc, hself]
      rfl
    · exact congrArg Pc.buf (setPc_of_ne hu)
  have hperm : (pend ++ [r.at 0] ++ s.working ++ done).Perm (r.at 0 :: (pend ++ s.working ++ done)) := by
    simp only [List.append_assoc, List.singleton_append]
    exact List.perm_middle
  refine ⟨fun u q hq => (h.owns u q ((hreqs u).symm.trans hq)).congr (fun _ _ => rfl) (fun _ _ => rfl) rfl,
    fun u v q q' huv hq hq' => h.apart u v q q' huv ((hreqs u).symm.trans hq) ((hreqs v).symm.trans hq'), fun i hi hfree => ?_,
    fun u v b hu hv => h.bufs u v b ((hbufs u).symm.trans hu) ((hbufs v).symm.trans hv), h.status,
    h.avail.extend (by decide) hslot, h.used, ?_, fun i hi => ?_, fun u q hq => ?_, fun u hu => ?_⟩
  · obtain ⟨u, q, hq, hmem⟩ := h.free i hi hfree
    exact ⟨u, q, (hreqs u).trans hq, hmem⟩
  · exact hperm.nodup_iff.mpr (List.nodup_cons.mpr ⟨hnew, h.nodup⟩)
  · rcases List.mem_cons.mp (hperm.mem_iff.mp hi) with rfl | hold
    · exact ⟨t, r, congrArg Pc.sent setPc_self, rfl, hflag⟩
    · obtain ⟨u, q, hq, hhead⟩ := h.heads i hold
      have hut : u ≠ t := by
        rintro rfl
        rw [hpc] at hq
        cases hq
      exact ⟨u, q, (congrArg Pc.sent (setPc_of_ne hut)).trans hq, hhead⟩
  · have hut : u ≠ t := by
      rintro rfl
      rw [hself] at hq
      cases hq
    exact (h.not_inside hlock hut (by rw [(setPc_of_ne hut).symm.trans hq]; trivial)).elim
  · by_cases hut : u = t
    · subst hut
      exact hlock
    · exact h.inside u ((congrArg Pc.Inside (setPc_of_ne hut)).mp hu)

end Threads

section Allocation

variable [DecidableEq T] [DecidableEq B] {s s' : World T B} {pend done : List Nat} {t : T} {b : B} {write : Bool}

omit [DecidableEq T] [DecidableEq B] in
/-- An allocation that failed leaves the requests alone. -/
theorem Inv.rolledBack (h : Inv s pend done) (hs : RolledBack s s') : Inv s' pend done := by
  have hdisk : s'.disk = { s.disk with desc := s'.disk.desc, free := s'.disk.free } := by rw [hs.rest]
  have hpc : s'.pc = s.pc := by rw [hs.rest]
  have hbufs : s'.bufs = s.bufs := by rw [hs.rest]
  have hworking : s'.working = s.working := by rw [hs.rest]
  have hseen : s'.seen = s.seen := by rw [hs.rest]
  have hlock : s'.vdiskLock = s.vdiskLock := by rw [hs.rest]
  have hinfo : s'.disk.info = s.disk.info := by rw [hdisk]
  refine ⟨fun u r hr => ?_, ?_, ?_, ?_, ?_, ?_, ?_, ?_, ?_, ?_, ?_⟩
  · rw [hpc] at hr
    have hown := h.owns u r hr
    exact hown.congr (fun i _ => by rw [hs.free]) (fun i hi => hs.desc i (hown.taken i hi)) (by rw [hinfo])
  · rw [hpc]
    exact h.apart
  · rw [hpc, hs.free]
    exact h.free
  · rw [hpc]
    exact h.bufs
  · rw [hinfo]
    exact h.status
  · rw [hdisk, hseen]
    exact h.avail
  · rw [hdisk]
    exact h.used
  · rw [hworking]
    exact h.nodup
  · rw [hworking, hpc, hbufs]
    exact h.heads
  · rw [hpc, hbufs, hdisk]
    exact h.built
  · rw [hpc, hlock]
    exact h.inside

/-- What `fill` leaves of the disk, for three different descriptors. -/
structure Filled (s s' : World T B) (r : Request B) : Prop where
  rest : s' = { s with
    disk := { s.disk with ops := s'.disk.ops, desc := s'.disk.desc, info := s'.disk.info, availRing := s'.disk.availRing }
    bufs := s'.bufs }
  desc : ∀ i, i ∉ r.idx → s'.disk.desc i = s.disk.desc i
  chain : Chain s'.disk.desc r.idx
  info : s'.disk.info = update s.disk.info (r.at 0) ⟨some r.b, 0⟩
  availRing : s'.disk.availRing = update s.disk.availRing (s.disk.availIdx % RING_SIZE) (r.at 0)
  bufs : s'.bufs = update s.bufs r.b { s.bufs r.b with disk := 1 }

omit [DecidableEq T] in
/-- The chain of three descriptors, once it is filled. -/
theorem fill_filled {r : Request B} (hlen : r.idx.length = 3) (hnodup : r.idx.Nodup) : Filled s (fill s r) r := by
  obtain ⟨b, write, idx⟩ := r
  obtain ⟨i, j, k, rfl⟩ := List.length_eq_three.mp hlen
  simp only [List.nodup_cons, List.mem_cons, List.not_mem_nil, or_false, not_or, not_false_eq_true, List.nodup_nil,
    and_true] at hnodup
  obtain ⟨⟨hij, hik⟩, hjk⟩ := hnodup
  refine ⟨rfl, fun l hl => ?_, ?_, rfl, rfl, rfl⟩
  · simp only [List.mem_cons, List.not_mem_nil, or_false, not_or] at hl
    simp [fill, World.setBuf, Request.at, hl.1, hl.2.1, hl.2.2]
  · have hi : (fill s ⟨b, write, [i, j, k]⟩).disk.desc i = ⟨.ops i, 16, VRING_DESC_F_NEXT, j⟩ := by
      simp [fill, World.setBuf, Request.at, hij, hik]
    have hj : (fill s ⟨b, write, [i, j, k]⟩).disk.desc j =
        ⟨.data b, BUFFER_SIZE, (if write then 0 else VRING_DESC_F_WRITE) ||| VRING_DESC_F_NEXT, k⟩ := by
      simp [fill, World.setBuf, Request.at, hjk]
    have hk : (fill s ⟨b, write, [i, j, k]⟩).disk.desc k = ⟨.status i, 1, VRING_DESC_F_WRITE, 0⟩ := by
      simp [fill, World.setBuf, Request.at]
    refine ⟨?_, by rw [hi], ?_, by rw [hj], ?_⟩
    · rw [hi]
      exact (by decide : VRING_DESC_F_NEXT &&& VRING_DESC_F_NEXT ≠ 0)
    · rw [hj]
      cases write with
      | true => exact (by decide : (0 ||| VRING_DESC_F_NEXT) &&& VRING_DESC_F_NEXT ≠ 0)
      | false => exact (by decide : (VRING_DESC_F_WRITE ||| VRING_DESC_F_NEXT) &&& VRING_DESC_F_NEXT ≠ 0)
    · show ((fill s ⟨b, write, [i, j, k]⟩).disk.desc k).flags &&& VRING_DESC_F_NEXT = 0
      rw [hk]
      exact (by decide : VRING_DESC_F_WRITE &&& VRING_DESC_F_NEXT = 0)

/-- A thread that has three descriptors builds its request of them. -/
theorem Inv.fill (h : Inv s pend done) (hpc : s.pc t = .alloc b write) {s₁ : World T B} {idx : List Nat}
    (hlen : idx.length = 3) (htaken : Taken s s₁ idx) :
    Inv ((fill s₁ ⟨b, write, idx⟩).setPc t (.built ⟨b, write, idx⟩)) pend done := by
  have hlock := h.inside t (by rw [hpc]; trivial)
  generalize hs' : Driver.fill s₁ ⟨b, write, idx⟩ = s'
  have hf : Filled s₁ s' ⟨b, write, idx⟩ := hs' ▸ fill_filled hlen htaken.nodup
  have hdisk : s'.disk = { s.disk with
      free := s₁.disk.free, ops := s'.disk.ops, desc := s'.disk.desc, info := s'.disk.info, availRing := s'.disk.availRing } := by
    rw [hf.rest, htaken.rest]
  have hfree : s'.disk.free = s₁.disk.free := by rw [hdisk]
  have hrest : s'.pc = s.pc ∧ s'.seen = s.seen ∧ s'.working = s.working ∧ s'.vdiskLock = s.vdiskLock := by
    rw [hf.rest, htaken.rest]
    exact ⟨rfl, rfl, rfl, rfl⟩
  have hold : s₁.disk.desc = s.disk.desc ∧ s₁.disk.info = s.disk.info ∧ s₁.disk.availRing = s.disk.availRing ∧
      s₁.disk.availIdx = s.disk.availIdx ∧ s₁.bufs = s.bufs := by
    rw [htaken.rest]
    exact ⟨rfl, rfl, rfl, rfl, rfl⟩
  have hring : s'.disk.availRing = update s.disk.availRing (s.disk.availIdx % RING_SIZE) (idx.getD 0 0) := by
    rw [hf.availRing, hold.2.2.1, hold.2.2.2.1]
    rfl
  have hself : (s'.setPc t (.built ⟨b, write, idx⟩)).pc t = .built ⟨b, write, idx⟩ := setPc_self
  have hother : ∀ u, u ≠ t → (s'.setPc t (.built ⟨b, write, idx⟩)).pc u = s.pc u := fun u hu =>
    (setPc_of_ne hu).trans (congrFun hrest.1 u)
  -- the descriptors of the other requests were not free
  have hapart : ∀ u r, (s.pc u).request = some r → r.idx.Disjoint idx := fun u r hr i hi hidx => by
    have := (h.owns u r hr).taken i hi
    rw [htaken.avail i hidx] at this
    cases this
  have hmine : Owns s'.disk ⟨b, write, idx⟩ := by
    refine ⟨hlen, htaken.nodup, htaken.lt, fun i hi => ?_, hf.chain, ?_⟩
    · rw [hfree, htaken.free, Bool.and_eq_false_iff]
      exact .inl (by simpa using hi)
    · rw [hf.info, update_self]
  have howns : ∀ u r, (s.pc u).request = some r → Owns s'.disk r := fun u r hr => by
    have hown := h.owns u r hr
    refine hown.congr (fun i hi => ?_) (fun i hi => ?_) ?_
    · rw [hfree, htaken.free, hown.taken i hi, Bool.and_false]
    · rw [hf.desc i (hapart u r hr hi), hold.1]
    · rw [hf.info, hold.2.1, update_of_ne]
      intro e
      exact hapart u r hr (hown.at_mem (by decide)) (e ▸ hmine.at_mem (by decide))
  have hflag : ∀ c, (s.bufs c).disk = 1 → (s'.bufs c).disk = 1 := fun c hc => by
    rw [hf.bufs, hold.2.2.2.2]
    by_cases hcb : c = b
    · rw [hcb, update_self]
    · rw [update_of_ne hcb]
      exact hc
  have hreq : ∀ u r, ((s'.setPc t (.built ⟨b, write, idx⟩)).pc u).request = some r →
      u = t ∧ r = ⟨b, write, idx⟩ ∨ u ≠ t ∧ (s.pc u).request = some r := fun u r hr => by
    by_cases hu : u = t
    · subst hu
      rw [hself] at hr
      exact .inl ⟨rfl, (Option.some.inj hr).symm⟩
    · rw [hother u hu] at hr
      exact .inr ⟨hu, hr⟩
  refine ⟨fun u r hr => ?_, fun u v r q huv hr hq => ?_, fun i hi hi' => ?_, fun u v c hu hv => ?_, fun i => ?_, ?_, ?_, ?_,
    fun i hi => ?_, fun u r hr => ?_, fun u hu => ?_⟩
  · rcases hreq u r hr with ⟨-, rfl⟩ | ⟨-, hr⟩
    · exact hmine
    · exact howns u r hr
  · rcases hreq u r hr with ⟨rfl, rfl⟩ | ⟨-, hr⟩
    · rcases hreq v q hq with ⟨rfl, -⟩ | ⟨-, hq⟩
      · exact (huv rfl).elim
      · exact (hapart v q hq).symm
    · rcases hreq v q hq with ⟨-, rfl⟩ | ⟨-, hq⟩
      · exact hapart u r hr
      · exact h.apart u v r q huv hr hq
  · have hi' : s'.disk.free i = false := hi'
    rw [hfree, htaken.free, Bool.and_eq_false_iff] at hi'
    rcases hi' with hmem | hi'
    · exact ⟨t, ⟨b, write, idx⟩, by rw [hself]; rfl, by simpa using hmem⟩
    · obtain ⟨u, r, hr, hmem⟩ := h.free i hi hi'
      have hu : u ≠ t := by
        rintro rfl
        rw [hpc] at hr
        cases hr
      exact ⟨u, r, by rw [hother u hu]; exact hr, hmem⟩
  · have hbuf : ∀ u, ((s'.setPc t (.built ⟨b, write, idx⟩)).pc u).buf = (s.pc u).buf := fun u => by
      by_cases hu : u = t
      · subst hu
        rw [hself, hpc]
        rfl
      · rw [hother u hu]
    exact h.bufs u v c ((hbuf u).symm.trans hu) ((hbuf v).symm.trans hv)
  · show (s'.disk.info i).status = 0
    rw [hf.info, hold.2.1]
    by_cases hi : i = Request.at ⟨b, write, idx⟩ 0
    · rw [hi, update_self]
    · rw [update_of_ne hi]
      exact h.status i
  · show Fifo.Queue (2 ^ 16) RING_SIZE s'.disk.availRing s'.seen s'.disk.availIdx pend
    rw [hring, hrest.2.1, hdisk]
    exact h.avail.write (by decide) h.pend_lt _
  · show Fifo.Queue (2 ^ 16) RING_SIZE s'.disk.usedRing s'.disk.usedIndex s'.disk.usedIdx done
    rw [hdisk]
    exact h.used
  · show (pend ++ s'.working ++ done).Nodup
    rw [hrest.2.2.1]
    exact h.nodup
  · have hi : i ∈ pend ++ s'.working ++ done := hi
    rw [hrest.2.2.1] at hi
    obtain ⟨u, r, hr, hhead, hdisk⟩ := h.heads i hi
    have hu : u ≠ t := by
      rintro rfl
      rw [hpc] at hr
      cases hr
    exact ⟨u, r, by rw [hother u hu]; exact hr, hhead, hflag _ hdisk⟩
  · by_cases hu : u = t
    · subst hu
      rw [hself] at hr
      cases hr
      refine ⟨?_, ?_⟩
      · show s'.disk.availRing (s'.disk.availIdx % RING_SIZE) = _
        rw [hring, show s'.disk.availIdx = s.disk.availIdx by rw [hdisk], update_self]
        rfl
      · show (s'.bufs b).disk = 1
        rw [hf.bufs, update_self]
    · rw [hother u hu] at hr
      exact (h.not_inside hlock hu (by rw [hr]; trivial)).elim
  · show s'.vdiskLock = some (.thread u)
    rw [hrest.2.2.2]
    by_cases hut : u = t
    · subst hut
      exact hlock
    · rw [hother u hut] at hu
      exact h.inside u hu

/-- A thread gets its descriptors, or goes to sleep until some are free. -/
theorem Inv.prepare (h : Inv s pend done) (hpc : s.pc t = .alloc b write) :
    ∃ s', prepare s t b write = .ok s' ∧ Inv s' pend done ∧ (∀ u, u ≠ t → s'.pc u = s.pc u) ∧
      ∀ c, (s.bufs c).disk = 1 → (s'.bufs c).disk = 1 := by
  rcases alloc3Desc_ok s with ⟨idx, s₁, halloc, hlen, htaken⟩ | ⟨s₁, halloc, hrolled⟩
  · have hpc₁ : s₁.pc = s.pc := by rw [htaken.rest]
    have hbufs₁ : s₁.bufs = s.bufs := by rw [htaken.rest]
    refine ⟨(Driver.fill s₁ ⟨b, write, idx⟩).setPc t (.built ⟨b, write, idx⟩), ?_, h.fill hpc hlen htaken,
      fun u hu => (setPc_of_ne hu).trans (congrFun hpc₁ u), fun c hc => ?_⟩
    · rw [Driver.prepare, halloc]
      rfl
    · show (update s₁.bufs b _ c).disk = 1
      by_cases hcb : c = b
      · rw [hcb, update_self]
      · rw [update_of_ne hcb, hbufs₁]
        exact hc
  · have hpc' : s₁.pc t = .alloc b write := by
      rw [hrolled.rest]
      exact hpc
    have hlock' : s₁.vdiskLock = some (.thread t) := by
      rw [hrolled.rest]
      exact h.inside t (by rw [hpc]; trivial)
    have hold := h.rolledBack hrolled
    refine ⟨(s₁.setPc t (.enter b write)).sleep t .free, by rw [Driver.prepare, halloc]; rfl, ?_, fun u hu => ?_,
      fun c hc => ?_⟩
    · exact hold.move (by rw [hpc']; rfl) (by rw [hpc']; rfl) (by rw [hpc']; rfl) (fun r e => by cases e)
        (fun hin => hin.elim) fun u hu hin => (hold.not_inside hlock' hu hin).elim
    · exact (setPc_of_ne hu).trans (congrFun (by rw [hrolled.rest]) u)
    · show (s₁.bufs c).disk = 1
      rw [hrolled.rest]
      exact hc

end Allocation

/-! ## The end of a request -/

section Leaving

variable [DecidableEq T] [DecidableEq B] {s s' : World T B} {pend done : List Nat} {t : T} {r : Request B}

/-- A thread whose buffer is no longer marked gives its three descriptors back, and those only. -/
theorem Inv.leave (h : Inv s pend done) (hpc : s.pc t = .waiting r) (hflag : (s.bufs r.b).disk ≠ 1) :
    ∃ s', Driver.leave s t r = .ok s' ∧ Inv s' pend done ∧ s'.pc = update s.pc t .out ∧
      (∀ i, s'.disk.free i = (decide (i ∈ r.idx) || s.disk.free i)) ∧ s'.bufs = s.bufs := by
  have hreq : (s.pc t).request = some r := by rw [hpc]; rfl
  have hown := h.owns t r hreq
  have hlock := h.inside t (by rw [hpc]; trivial)
  obtain ⟨i, l, hidx⟩ := List.exists_cons_of_length_eq_add_one hown.length
  have hhead : r.at 0 = i := by
    rw [Request.at, hidx]
    rfl
  have hlen : l.length < RING_SIZE := by
    have := hown.length
    rw [hidx, List.length_cons] at this
    exact Nat.lt_of_lt_of_le (by omega : l.length < 3) (by decide)
  obtain ⟨s₁, hfree, hs₁⟩ := freeLoop_ok (n := RING_SIZE) (i := i) (l := l)
    (s := { s with disk := { s.disk with info := update s.disk.info (r.at 0) { s.disk.info (r.at 0) with b := none } } })
    hlen (hidx ▸ hown.chain) (hidx ▸ hown.nodup) (hidx ▸ hown.lt) (hidx ▸ hown.taken)
  rw [← hidx] at hs₁
  have hrest : s₁.pc = s.pc ∧ s₁.bufs = s.bufs ∧ s₁.seen = s.seen ∧ s₁.working = s.working := by
    rw [hs₁.rest]
    exact ⟨rfl, rfl, rfl, rfl⟩
  have hdisk : s₁.disk = { s.disk with
      desc := s₁.disk.desc, free := s₁.disk.free
      info := update s.disk.info (r.at 0) { s.disk.info (r.at 0) with b := none } } := by
    rw [hs₁.rest]
  generalize hs' : ({ s₁.setPc t .out with vdiskLock := none } : World T B) = s'
  have hrun : Driver.leave s t r = .ok s' := by
    rw [Driver.leave, freeDescChain, hhead]
    rw [hhead] at hfree
    rw [hfree, ← hs']
    rfl
  have hd : s'.disk = s₁.disk := by rw [← hs']; rfl
  have hpc' : s'.pc = update s.pc t .out := by
    rw [← hs', ← hrest.1]
    rfl
  have hb : s'.bufs = s.bufs := by rw [← hs', ← hrest.2.1]; rfl
  have hw : s'.working = s.working := by rw [← hs', ← hrest.2.2.2]; rfl
  have hse : s'.seen = s.seen := by rw [← hs', ← hrest.2.2.1]; rfl
  have hother : ∀ {γ : Type} (f : Pc B → Option γ) {u : T} {x : γ}, f .out = none → f (s'.pc u) = some x →
      u ≠ t ∧ f (s.pc u) = some x := by
    intro γ f u x hf hx
    rw [hpc'] at hx
    by_cases hu : u = t
    · subst hu
      rw [update_self, hf] at hx
      cases hx
    · rw [update_of_ne hu] at hx
      exact ⟨hu, hx⟩
  have hkept : ∀ {γ : Type} (f : Pc B → Option γ) {u : T}, u ≠ t → f (s'.pc u) = f (s.pc u) := by
    intro γ f u hu
    rw [hpc', update_of_ne hu]
  refine ⟨s', hrun, ⟨fun u q hq => ?_, fun u v q q' huv hq hq' => ?_, fun j hj hfree' => ?_, fun u v b hu hv => ?_, fun j => ?_,
    ?_, ?_, ?_, fun j hj => ?_, fun u q hq => ?_, fun u hu => ?_⟩, hpc', fun j => ?_, hb⟩
  · obtain ⟨hu, hq⟩ := hother Pc.request rfl hq
    have hown' := h.owns u q hq
    have hapart : ∀ j ∈ q.idx, j ∉ r.idx := fun j hj hj' => h.apart u t q r hu hq hreq hj hj'
    rw [hd]
    refine hown'.congr (fun j hj => ?_) (fun j hj => hs₁.desc j (hapart j hj)) ?_
    · rw [hs₁.free, decide_eq_false (hapart j hj), Bool.false_or]
    · have hne : q.at 0 ≠ r.at 0 := fun e =>
        hapart _ (hown'.at_mem (by decide)) (e ▸ hown.at_mem (by decide))
      rw [hdisk]
      show (update s.disk.info (r.at 0) _ (q.at 0)).b = _
      rw [update_of_ne hne]
  · obtain ⟨hu, hq⟩ := hother Pc.request rfl hq
    obtain ⟨hv, hq'⟩ := hother Pc.request rfl hq'
    exact h.apart u v q q' huv hq hq'
  · rw [hd, hs₁.free, Bool.or_eq_false_iff, decide_eq_false_iff_not] at hfree'
    obtain ⟨u, q, hq, hmem⟩ := h.free j hj hfree'.2
    have hu : u ≠ t := by
      rintro rfl
      rw [hreq] at hq
      cases hq
      exact hfree'.1 hmem
    exact ⟨u, q, (hkept Pc.request hu).trans hq, hmem⟩
  · exact h.bufs u v b (hother Pc.buf rfl hu).2 (hother Pc.buf rfl hv).2
  · rw [hd, hdisk]
    by_cases hj : j = r.at 0
    · rw [hj]
      show (update s.disk.info (r.at 0) _ (r.at 0)).status = 0
      rw [update_self]
      exact h.status _
    · show (update s.disk.info (r.at 0) _ j).status = 0
      rw [update_of_ne hj]
      exact h.status j
  · rw [hd, hdisk, hse]
    exact h.avail
  · rw [hd, hdisk]
    exact h.used
  · rw [hw]
    exact h.nodup
  · rw [hw] at hj
    obtain ⟨u, q, hq, hat, hone⟩ := h.heads j hj
    have hu : u ≠ t := by
      rintro rfl
      have hq' := hreq.symm.trans (Pc.request_of_sent hq)
      cases hq'
      exact hflag hone
    exact ⟨u, q, (hkept Pc.sent hu).trans hq, hat, by rw [hb]; exact hone⟩
  · rw [hpc'] at hq
    by_cases hu : u = t
    · subst hu
      rw [update_self] at hq
      cases hq
    · rw [update_of_ne hu] at hq
      exact (h.not_inside hlock hu (by rw [hq]; trivial)).elim
  · rw [hpc'] at hu
    by_cases hut : u = t
    · subst hut
      rw [update_self] at hu
      exact hu.elim
    · rw [update_of_ne hut] at hu
      exact (h.not_inside hlock hut hu).elim
  · rw [hd]
    exact hs₁.free j

end Leaving

/-! ## The handler and the device -/

section Device

variable [DecidableEq B] {s s' : World T B} {pend done : List Nat} {t : T} {r : Request B}

omit [DecidableEq B] in
/-- Steps that leave the threads, the descriptors and the buffers alone. -/
theorem Inv.rings (h : Inv s pend done) {pend' done' : List Nat} (hpc : s'.pc = s.pc) (hbufs : s'.bufs = s.bufs)
    (hfree : s'.disk.free = s.disk.free) (hdesc : s'.disk.desc = s.disk.desc) (hinfo : s'.disk.info = s.disk.info)
    (hring : s'.disk.availRing = s.disk.availRing) (hidx : s'.disk.availIdx = s.disk.availIdx)
    (havail : Fifo.Queue (2 ^ 16) RING_SIZE s.disk.availRing s'.seen s.disk.availIdx pend')
    (hused : Fifo.Queue (2 ^ 16) RING_SIZE s'.disk.usedRing s'.disk.usedIndex s'.disk.usedIdx done')
    (hperm : (pend' ++ s'.working ++ done').Perm (pend ++ s.working ++ done))
    (hlock : ∀ t, (s.pc t).Inside → s'.vdiskLock = some (.thread t)) : Inv s' pend' done' := by
  refine ⟨fun t r hr => ?_, ?_, ?_, ?_, ?_, ?_, hused, hperm.nodup_iff.mpr h.nodup, fun i hi => ?_, ?_, ?_⟩
  · rw [hpc] at hr
    exact (h.owns t r hr).congr (fun i _ => by rw [hfree]) (fun i _ => by rw [hdesc]) (by rw [hinfo])
  · rw [hpc]
    exact h.apart
  · rw [hpc, hfree]
    exact h.free
  · rw [hpc]
    exact h.bufs
  · rw [hinfo]
    exact h.status
  · rw [hring, hidx]
    exact havail
  · rw [hpc, hbufs]
    exact h.heads i (hperm.mem_iff.mp hi)
  · rw [hpc, hbufs, hring, hidx]
    exact h.built
  · rw [hpc]
    exact hlock

omit [DecidableEq B] in
theorem Inv.fetch (h : Inv s pend done) (hsome : s.seen ≠ s.disk.availIdx) : ∃ pend', Inv (fetch s) pend' done := by
  cases pend with
  | nil => exact (hsome ((h.avail.eq_nil_iff (by decide)).mpr rfl)).elim
  | cons i pend =>
    obtain ⟨hcell, hrest⟩ := h.avail.pop (by decide)
    refine ⟨pend, h.rings rfl rfl rfl rfl rfl rfl rfl hrest h.used ?_ h.inside⟩
    show (pend ++ (s.working ++ [s.disk.availRing (s.seen % RING_SIZE)]) ++ done).Perm _
    rw [hcell]
    simp only [List.append_assoc, List.cons_append]
    refine List.Perm.trans ?_ List.perm_middle
    exact List.Perm.append_left pend List.perm_middle

omit [DecidableEq B] in
/-- The status the device writes is there already. -/
theorem Inv.complete_info (h : Inv s pend done) (i : Nat) : (complete s i).disk.info = s.disk.info := by
  unfold complete
  dsimp only
  split
  · rename_i j hj
    rw [show ({ s.disk.info j with status := 0 } : Info B) = s.disk.info j by rw [← h.status j], update_eq_self]
  · rfl

omit [DecidableEq B] in
theorem Inv.complete (h : Inv s pend done) {i : Nat} (hi : i ∈ s.working) : Inv (complete s i) pend (done ++ [i]) := by
  refine h.rings rfl rfl rfl rfl (h.complete_info i) rfl rfl h.avail ?_ ?_ h.inside
  · exact (h.used.write (by decide) h.done_lt i).extend (by decide) (update_self ..)
  · show (pend ++ s.working.erase i ++ (done ++ [i])).Perm _
    have hw := List.perm_cons_erase hi
    refine List.Perm.trans ?_ ((hw.append_left pend).append_right done).symm
    rw [← List.append_assoc]
    refine (List.perm_append_singleton i _).trans ?_
    exact (List.perm_middle.append_right done).symm

/-- The head of the next completion the handler takes. -/
def World.completed (s : World T B) : Option Nat :=
  if s.disk.usedIndex % RING_SIZE ≠ s.disk.usedIdx % RING_SIZE then some (s.disk.usedRing (s.disk.usedIndex % RING_SIZE))
  else none

/-- The handler looks at one entry of the used ring. -/
theorem Inv.service (h : Inv s pend done) (hlock : s.vdiskLock = some .handler) :
    ∃ s', service s = .ok s' ∧ s'.pc = s.pc ∧ (∃ done', Inv s' pend done') ∧
      (s.completed = none → s'.bufs = s.bufs) ∧
      ∀ i, s.completed = some i → ∃ t r, (s.pc t).request = some r ∧ r.at 0 = i ∧ (s.bufs r.b).disk = 1 ∧
        s'.bufs = update s.bufs r.b { s.bufs r.b with disk := 0 } := by
  have hnot : ∀ t, ¬ (s.pc t).Inside := fun t ht => by
    have := hlock.symm.trans (h.inside t ht)
    cases this
  cases done with
  | nil =>
    have heq := (h.used.cell_eq_iff (by decide) h.done_lt).mpr rfl
    have hnone : s.completed = none := if_neg fun hne => hne heq
    refine ⟨{ s with vdiskLock := none }, by rw [Driver.service, if_neg fun hne => hne heq], rfl, ⟨[], ?_⟩, fun _ => rfl,
      fun i hi => ?_⟩
    · exact h.rings rfl rfl rfl rfl rfl rfl rfl h.avail h.used (.refl _) fun t ht => (hnot t ht).elim
    · rw [hnone] at hi
      cases hi
  | cons i done =>
    obtain ⟨hcell, hrest⟩ := h.used.pop (by decide)
    have hne : s.disk.usedIndex % RING_SIZE ≠ s.disk.usedIdx % RING_SIZE := fun heq =>
      List.cons_ne_nil _ _ ((h.used.cell_eq_iff (by decide) h.done_lt).mp heq)
    have hsome : s.completed = some i := (if_pos hne).trans (congrArg some hcell)
    have hmem : i ∈ pend ++ s.working ++ i :: done := List.mem_append_right _ List.mem_cons_self
    obtain ⟨t, r, hsent, rfl, hflag⟩ := h.heads i hmem
    have hreq := Pc.request_of_sent hsent
    have hbuffer := (h.owns t r hreq).buffer
    have hperm : (pend ++ s.working ++ r.at 0 :: done).Perm (r.at 0 :: (pend ++ s.working ++ done)) := List.perm_middle
    obtain ⟨hfresh, hnodup⟩ := List.nodup_cons.mp (hperm.nodup_iff.mp h.nodup)
    -- another head belongs to another thread, whose buffer is another one
    have hothers : ∀ u q, (s.pc u).sent = some q → q.at 0 ∈ pend ++ s.working ++ done → q.b ≠ r.b := fun u q hq hmem e => by
      have hq' := Pc.request_of_sent hq
      have hut := h.bufs u t r.b (e ▸ Pc.buf_of_request hq') (Pc.buf_of_request hreq)
      subst hut
      cases Option.some.inj (hsent.symm.trans hq)
      exact hfresh hmem
    refine ⟨{ (s.setBuf r.b 0).wakeup (.buf r.b) with
      disk := { s.disk with usedIndex := (s.disk.usedIndex + 1) % 2 ^ 16 } }, ?_, rfl, ⟨done, ?_⟩, fun hnone => ?_, fun j hj => ?_⟩
    · rw [Driver.service, if_pos hne]
      rw [hcell, if_neg (by rw [h.status]; exact fun e => e rfl), hbuffer]
      rfl
    · refine ⟨fun u q hq => (h.owns u q hq).congr (fun _ _ => rfl) (fun _ _ => rfl) rfl, h.apart, h.free, h.bufs, h.status,
        h.avail, hrest, hnodup, fun j hj => ?_, fun u q hq => ?_, h.inside⟩
      · obtain ⟨u, q, hq, rfl, hone⟩ := h.heads j (hperm.mem_iff.mpr (List.mem_cons_of_mem _ hj))
        refine ⟨u, q, hq, rfl, ?_⟩
        show (update s.bufs r.b _ q.b).disk = 1
        rw [update_of_ne (hothers u q hq hj)]
        exact hone
      · exact (hnot u (by rw [show s.pc u = .built q from hq]; trivial)).elim
    · rw [hsome] at hnone
      cases hnone
    · cases Option.some.inj (hsome.symm.trans hj)
      exact ⟨t, r, hreq, rfl, hflag, rfl⟩

end Device

/-! ## Runs -/

section Runs

variable [DecidableEq T] [DecidableEq B] {s s' : World T B} {pend done : List Nat} {e : Event T B}

/-- What an event does to the requests in flight, and to the marks of the buffers. -/
structure Effect (s s' : World T B) (e : Event T B) : Prop where
  completes : ∀ i, e = .service → s.completed = some i → ∃ t r, (s.pc t).request = some r ∧ r.at 0 = i ∧
    (s.bufs r.b).disk = 1 ∧ s'.bufs = update s.bufs r.b { s.bufs r.b with disk := 0 }
  marks : e ≠ .service ∨ s.completed = none → ∀ b, (s.bufs b).disk = 1 → (s'.bufs b).disk = 1
  frees : ∀ t r, (s.pc t).request = some r → (s'.pc t).request = some r ∨
    e = .advance t ∧ (s.bufs r.b).disk ≠ 1 ∧ s'.pc t = .out ∧ ∀ i, s'.disk.free i = (decide (i ∈ r.idx) || s.disk.free i)

omit [DecidableEq T] in
theorem Effect.quiet (he : e ≠ .service) (hbufs : s'.bufs = s.bufs)
    (hreq : ∀ t r, (s.pc t).request = some r → (s'.pc t).request = some r) : Effect s s' e where
  completes := fun i h => (he h).elim
  marks := fun _ b hb => by rw [hbufs]; exact hb
  frees := fun t r hr => .inl (hreq t r hr)

/-- A step of the thread that has the lock. -/
theorem Inv.advance (h : Inv s pend done) {t : T} (hlock : s.vdiskLock = some (.thread t)) :
    ∃ s', advance s t = .ok s' ∧ (∃ pend' done', Inv s' pend' done') ∧ Effect s s' (.advance t) := by
  have hne : Event.advance (B := B) t ≠ .service := fun e => by cases e
  cases hpc : s.pc t with
  | alloc b write =>
    obtain ⟨s', hrun, hinv, hother, hmarks⟩ := h.prepare hpc
    refine ⟨s', by rw [Driver.advance, hpc]; exact hrun, ⟨pend, done, hinv⟩, fun i e => (hne e).elim, fun _ => hmarks,
      fun u r hr => .inl ?_⟩
    have hu : u ≠ t := by
      rintro rfl
      rw [hpc] at hr
      cases hr
    rw [hother u hu]
    exact hr
  | built r =>
    refine ⟨Driver.publish s t r, by rw [Driver.advance, hpc], ⟨_, _, h.publish hpc⟩, .quiet hne rfl fun u q hq => ?_⟩
    by_cases hu : u = t
    · subst hu
      rw [hpc] at hq
      rw [show (Driver.publish s u r).pc u = .waiting r from setPc_self]
      exact hq
    · rw [show (Driver.publish s t r).pc u = s.pc u from setPc_of_ne hu]
      exact hq
  | waiting r =>
    by_cases hflag : (s.bufs r.b).disk = 1
    · refine ⟨(s.setPc t (.parked r)).sleep t (.buf r.b), by rw [Driver.advance, hpc]; exact if_pos hflag, ⟨pend, done, ?_⟩,
        .quiet hne rfl fun u q hq => ?_⟩
      · exact h.move (by rw [hpc]; rfl) (by rw [hpc]; rfl) (by rw [hpc]; rfl) (fun r e => by cases e)
          (fun hin => hin.elim) fun u hu hin => (h.not_inside hlock hu hin).elim
      · show ((s.setPc t (.parked r)).pc u).request = some q
        by_cases hu : u = t
        · subst hu
          rw [hpc] at hq
          rw [setPc_self]
          exact hq
        · rw [setPc_of_ne hu]
          exact hq
    · obtain ⟨s', hrun, hinv, hpc', hfree, hbufs⟩ := h.leave hpc hflag
      refine ⟨s', by rw [Driver.advance, hpc]; exact (if_neg hflag).trans hrun, ⟨pend, done, hinv⟩, fun i e => (hne e).elim,
        fun _ c hc => by rw [hbufs]; exact hc, fun u q hq => ?_⟩
      by_cases hu : u = t
      · subst hu
        rw [hpc] at hq
        cases hq
        exact .inr ⟨rfl, hflag, by rw [hpc', update_self], hfree⟩
      · refine .inl ?_
        rw [hpc', update_of_ne hu]
        exact hq
  | out => exact ⟨s, by rw [Driver.advance, hpc], ⟨pend, done, h⟩, .quiet hne rfl fun u q hq => hq⟩
  | enter b write => exact ⟨s, by rw [Driver.advance, hpc], ⟨pend, done, h⟩, .quiet hne rfl fun u q hq => hq⟩
  | parked r => exact ⟨s, by rw [Driver.advance, hpc], ⟨pend, done, h⟩, .quiet hne rfl fun u q hq => hq⟩

omit [DecidableEq B] in
theorem acquire_request (s : World T B) (t u : T) : ((acquire s t).pc u).request = (s.pc u).request := by
  cases hpc : s.pc t with
  | enter b write =>
    rw [acquire, hpc]
    by_cases hu : u = t
    · subst hu
      rw [setPc_self, hpc]
      rfl
    · rw [setPc_of_ne hu]
  | parked r =>
    rw [acquire, hpc]
    by_cases hu : u = t
    · subst hu
      rw [setPc_self, hpc]
      rfl
    · rw [setPc_of_ne hu]
  | out => rw [acquire, hpc]
  | alloc b write => rw [acquire, hpc]
  | built r => rw [acquire, hpc]
  | waiting r => rw [acquire, hpc]

omit [DecidableEq B] in
theorem acquire_bufs (s : World T B) (t : T) : (acquire s t).bufs = s.bufs := by
  unfold acquire
  split
  · rfl
  · rfl
  · rfl

/-- **Every step**, by cases on who makes it. -/
theorem Inv.perform (h : Inv s pend done) (he : Enabled s e) :
    ∃ s', perform s e = .ok s' ∧ (∃ pend' done', Inv s' pend' done') ∧ Effect s s' e := by
  cases e with
  | call t b write =>
    refine ⟨_, rfl, ⟨pend, done, h.call he.1 he.2 write⟩, .quiet (fun e => by cases e) rfl fun u r hr => ?_⟩
    have hu : u ≠ t := by
      rintro rfl
      rw [he.1] at hr
      cases hr
    rw [setPc_of_ne hu]
    exact hr
  | acquire t =>
    exact ⟨_, rfl, ⟨pend, done, h.acquire he.1⟩, .quiet (fun e => by cases e) (acquire_bufs s t) fun u r hr =>
      (acquire_request s t u).trans hr⟩
  | advance t => exact h.advance he
  | interrupt =>
    have hlock : s.vdiskLock = none := he
    refine ⟨_, rfl, ⟨pend, done, ?_⟩, .quiet (fun e => by cases e) rfl fun u r hr => hr⟩
    refine h.rings rfl rfl rfl rfl rfl rfl rfl h.avail h.used (.refl _) fun t ht => ?_
    rw [h.inside t ht] at hlock
    cases hlock
  | service =>
    obtain ⟨s', hrun, hpc, ⟨done', hinv⟩, hnone, hsome⟩ := h.service he
    refine ⟨s', hrun, ⟨pend, done', hinv⟩, fun i _ hi => hsome i hi, fun hor b hb => ?_, fun t r hr => .inl (by rw [hpc]; exact hr)⟩
    rw [hnone (hor.resolve_left fun h => h rfl)]
    exact hb
  | fetch =>
    obtain ⟨pend', hinv⟩ := h.fetch he
    exact ⟨_, rfl, ⟨pend', done, hinv⟩, .quiet (fun e => by cases e) rfl fun u r hr => hr⟩
  | complete i =>
    exact ⟨_, rfl, ⟨pend, done ++ [i], h.complete he⟩, .quiet (fun e => by cases e) rfl fun u r hr => hr⟩
  | stir t =>
    refine ⟨_, rfl, ⟨pend, done, ?_⟩, .quiet (fun e => by cases e) rfl fun u r hr => hr⟩
    exact h.rings rfl rfl rfl rfl rfl rfl rfl h.avail h.used (.refl _) h.inside

theorem inv_of_reach (h : Run.Reach Initial Next s) : ∃ pend done, Inv s pend done := by
  have hinit : ∀ s : World T B, Initial s → ∃ pend done, Inv s pend done := fun s hs => ⟨[], [], hs.inv⟩
  refine h.invariant hinit fun s s' hinv hstep => ?_
  obtain ⟨pend, done, hinv⟩ := hinv
  obtain ⟨e, he, hrun⟩ := hstep
  obtain ⟨s₁, hrun₁, hinv₁, -⟩ := hinv.perform he
  cases hrun.symm.trans hrun₁
  exact hinv₁

/-- The requests in flight own disjoint chains, and a descriptor is free just when no request owns it. No
event panics: a completion clears the mark of the buffer whose request used the head and no other mark is
cleared, and only the thread of a completed request gives its chain back, as it leaves. -/
theorem requests_own_descriptors (h : Run.Reach Initial Next s) :
    (∀ t r, (s.pc t).request = some r → Owns s.disk r) ∧
    (∀ t u r q, t ≠ u → (s.pc t).request = some r → (s.pc u).request = some q → r.idx.Disjoint q.idx) ∧
    (∀ i < RING_SIZE, s.disk.free i = true ↔ ∀ t r, (s.pc t).request = some r → i ∉ r.idx) ∧
    ∀ e, Enabled s e → ∃ s', perform s e = .ok s' ∧ Effect s s' e := by
  obtain ⟨pend, done, hinv⟩ := inv_of_reach h
  refine ⟨hinv.owns, hinv.apart, fun i hi => ⟨fun hfree t r hr hmem => ?_, fun hnone => ?_⟩, fun e he => ?_⟩
  · rw [(hinv.owns t r hr).taken i hmem] at hfree
    cases hfree
  · cases hfree : s.disk.free i with
    | true => rfl
    | false =>
      obtain ⟨t, r, hr, hmem⟩ := hinv.free i hi hfree
      exact (hnone t r hr hmem).elim
  · obtain ⟨s', hrun, -, heffect⟩ := hinv.perform he
    exact ⟨s', hrun, heffect⟩

end Runs

/-- Two threads and two buffers, at rest. -/
def atRest : World (Fin 2) (Fin 2) where
  disk := virtioDiskInit
  bufs := fun b => ⟨b, 0⟩
  pc := fun _ => .out
  asleep := fun _ => none
  vdiskLock := none
  seen := 0
  working := []

/-- A read by thread 0 and a write by thread 1 are handed to the device, which completes the read. The handler clears the mark
of its buffer only, and thread 0 still owns its descriptors until it runs again. -/
theorem requests_own_descriptors_two : ∃ s : World (Fin 2) (Fin 2), Run.Reach Initial Next s ∧
    (s.bufs 1).disk = 0 ∧ (s.bufs 0).disk = 1 ∧ (s.pc 0).request = some ⟨1, false, [0, 1, 2]⟩ ∧
    (s.pc 1).request = some ⟨0, true, [3, 4, 5]⟩ ∧ Owns s.disk ⟨1, false, [0, 1, 2]⟩ ∧ Owns s.disk ⟨0, true, [3, 4, 5]⟩ ∧
    s.disk.free 6 = true := by
  have h₀ : Run.Reach Initial Next atRest := .init ⟨rfl, fun _ => rfl, fun _ => rfl, rfl, rfl, rfl⟩
  have h₁ := h₀.step ⟨.call 0 1 false, ⟨rfl, fun u hu => by cases hu⟩, rfl⟩
  have h₂ := h₁.step ⟨.acquire 0, ⟨rfl, rfl⟩, rfl⟩
  have h₃ := h₂.step ⟨.advance 0, rfl, rfl⟩
  have h₄ := h₃.step ⟨.advance 0, rfl, rfl⟩
  have h₅ := h₄.step ⟨.advance 0, rfl, rfl⟩
  have h₆ := h₅.step ⟨.call 1 0 true, ⟨rfl, show ∀ u : Fin 2, _ by decide⟩, rfl⟩
  have h₇ := h₆.step ⟨.acquire 1, ⟨rfl, rfl⟩, rfl⟩
  have h₈ := h₇.step ⟨.advance 1, rfl, rfl⟩
  have h₉ := h₈.step ⟨.advance 1, rfl, rfl⟩
  have h₁₀ := h₉.step ⟨.advance 1, rfl, rfl⟩
  have h₁₁ := h₁₀.step ⟨.fetch, show (0 : Nat) ≠ 2 by decide, rfl⟩
  have h₁₂ := h₁₁.step ⟨.complete 0, show (0 : Nat) ∈ [0] from List.mem_cons_self, rfl⟩
  have h₁₃ := h₁₂.step ⟨.interrupt, rfl, rfl⟩
  have h₁₄ := h₁₃.step ⟨.service, rfl, rfl⟩
  have hall := requests_own_descriptors h₁₄
  exact ⟨_, h₁₄, rfl, rfl, rfl, rfl, hall.1 0 ⟨1, false, [0, 1, 2]⟩ rfl, hall.1 1 ⟨0, true, [3, 4, 5]⟩ rfl, rfl⟩

end Exaros.Driver
