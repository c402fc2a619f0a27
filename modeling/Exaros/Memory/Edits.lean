import Exaros.Memory.Fork

/-!
# What the address-space functions edit

Each function of `Exaros.Memory.Space` is described once by the entries it changes. A loop body
changes nothing any directory shows (`Quiet`) or one entry (`Change`), and where a page appears it is
one that was free (`Fresh`), the page that was there already, or a page of the kernel's window. What
holds of address spaces in general is derived from these specifications alone.
-/

namespace Exaros

/-- No directory shows a difference. -/
structure Quiet (img : Image) (dirs : Finset Ppn) (m m' : Mem) : Prop where
  inv : MemInv img m' dirs
  view : ∀ d ∈ dirs, ∀ v, view m' d v = view m d v

/-- The entry of one virtual page becomes `new`. -/
structure Change (img : Image) (dirs : Finset Ppn) (d : Ppn) (v : Vpn) (new : Option Pte) (m m' : Mem) :
    Prop where
  inv : MemInv img m' dirs
  view : ∀ d' ∈ dirs, ∀ v', view m' d' v' = if d' = d ∧ v' = v then new else view m d' v'

/-- A page that was free appears at one virtual page. -/
def Fresh (img : Image) (dirs : Finset Ppn) (d : Ppn) (v : Vpn) (m m' : Mem) : Prop :=
  ∃ e, pte2Ppn e ∈ m.freePageList ∧ Change img dirs d v (some e) m m'

/-- A page that was free, filled with `data`, appears at one virtual page as the entry `e`. -/
structure Filled (img : Image) (dirs : Finset Ppn) (d : Ppn) (v : Vpn) (e : Pte) (data : Idx → BitVec 64)
    (m m' : Mem) : Prop where
  change : Change img dirs d v (some e) m m'
  mem : pte2Ppn e ∈ m.freePageList
  page : m'.ram (pte2Ppn e) = data
  data : ∀ p, p ≠ pte2Ppn e → ¬ IsTable m' dirs p → m'.ram p = m.ram p

/-- No directory shows a difference, nor does a page it maps. -/
structure Unseen (img : Image) (dirs : Finset Ppn) (m m' : Mem) : Prop where
  quiet : Quiet img dirs m m'
  data : ∀ d ∈ dirs, ∀ v e, view m d v = some e → m'.ram (pte2Ppn e) = m.ram (pte2Ppn e)

section Change

variable {img : Image} {dirs : Finset Ppn} {d : Ppn} {v : Vpn} {new new' : Option Pte} {m m₁ m' : Mem}

theorem Quiet.refl (h : MemInv img m dirs) : Quiet img dirs m m := ⟨h, fun _ _ _ => rfl⟩

theorem Grow.quiet (g : Grow img dirs m m') : Quiet img dirs m m' := ⟨g.inv, g.view⟩

theorem Remap.change (r : Remap img dirs d v new m m') : Change img dirs d v new m m' := ⟨r.inv, r.view⟩

theorem Quiet.trans (q : Quiet img dirs m m₁) (q' : Quiet img dirs m₁ m') : Quiet img dirs m m' :=
  ⟨q'.inv, fun d hd v => (q'.view d hd v).trans (q.view d hd v)⟩

theorem Quiet.change (q : Quiet img dirs m m₁) (c : Change img dirs d v new m₁ m') :
    Change img dirs d v new m m' :=
  ⟨c.inv, fun d' hd' v' => by rw [c.view d' hd' v', q.view d' hd' v']⟩

/-- The later of two changes of one entry stands. -/
theorem Change.trans (c : Change img dirs d v new m m₁) (c' : Change img dirs d v new' m₁ m') :
    Change img dirs d v new' m m' :=
  ⟨c'.inv, fun d' hd' v' => by
    rw [c'.view d' hd' v', c.view d' hd' v']
    split <;> rfl⟩

theorem Change.view_self (c : Change img dirs d v new m m') (hd : d ∈ dirs) : Exaros.view m' d v = new := by
  rw [c.view d hd v, if_pos ⟨rfl, rfl⟩]

theorem Change.view_off (c : Change img dirs d v new m m') {d' : Ppn} (hd' : d' ∈ dirs) {v' : Vpn}
    (h : ¬ (d' = d ∧ v' = v)) : Exaros.view m' d' v' = Exaros.view m d' v' := by
  rw [c.view d' hd' v', if_neg h]

theorem Filled.fresh {e : Pte} {data : Idx → BitVec 64} (f : Filled img dirs d v e data m m') :
    Fresh img dirs d v m m' := ⟨e, f.mem, f.change⟩

/-- A page some entry still maps was not the one that was free, and keeps its contents. -/
theorem Filled.ram_eq {e e' : Pte} {data : Idx → BitVec 64} (f : Filled img dirs d v e data m m')
    (h : MemInv img m dirs) {d' : Ppn} {v' : Vpn} (hd' : d' ∈ dirs) (hne : ¬ (d' = d ∧ v' = v))
    (hv : Exaros.view m d' v' = some e') : m'.ram (pte2Ppn e') = m.ram (pte2Ppn e') := by
  apply f.data
  · intro heq
    exact h.not_free_of_view hd' hv (heq ▸ f.mem)
  · have hv' : Exaros.view m' d' v' = some e' := by rw [f.change.view_off hd' hne, hv]
    exact (f.change.inv.leaf d' hd' v' e' hv').2.1

end Change

/-! ## Loops over pages -/

/-- The addresses a `whilePages` loop comes to. -/
def Visited (start stop va : Nat) : Prop :=
  ∃ k, va = u64 (start + k * PAGE_SIZE) ∧ ∀ i ≤ k, u64 (start + i * PAGE_SIZE) < stop

section Loop

variable {σ : Type} {body : Nat → σ → Except Panic (Option Int × σ)} {stop start fuel : Nat} {s s' : σ}
  {r : Option Int} {I : σ → Prop}

theorem visited_next {va : Nat} (hs : u64 start < stop) (h : Visited (u64 (start + PAGE_SIZE)) stop va) :
    Visited start stop va := by
  have hshift : ∀ i, u64 (u64 (start + PAGE_SIZE) + i * PAGE_SIZE) = u64 (start + (i + 1) * PAGE_SIZE) := by
    intro i
    simp only [u64, Nat.mod_add_mod]
    rw [Nat.succ_mul, Nat.add_assoc, Nat.add_comm PAGE_SIZE]
  obtain ⟨k, rfl, hk⟩ := h
  refine ⟨k + 1, hshift k, fun i hi => ?_⟩
  cases i with
  | zero => simpa using hs
  | succ i =>
    rw [← hshift i]
    exact hk i (by omega)

/-- **Loop rule.** What every visit keeps, the loop keeps. -/
theorem whilePages_inv (hrun : whilePages body stop fuel start s = .ok (r, s')) (hstart : start < 2 ^ 64)
    (hI : I s) (hbody : ∀ va s r s', Visited start stop va → I s → body va s = .ok (r, s') → I s') : I s' := by
  induction fuel generalizing start s with
  | zero => cases hrun
  | succ fuel ih =>
    unfold whilePages at hrun
    split at hrun
    · rename_i hlt
      have hmod : u64 start = start := Nat.mod_eq_of_lt hstart
      have hvis : Visited start stop start := ⟨0, by simpa using hmod.symm, fun i hi => by
        obtain rfl : i = 0 := by omega
        simpa [hmod] using hlt⟩
      cases hb : body start s with
      | error p =>
        rw [hb] at hrun
        cases hrun
      | ok x =>
        obtain ⟨r₁, s₁⟩ := x
        rw [hb] at hrun
        have hI₁ := hbody start s r₁ s₁ hvis hI hb
        cases r₁ with
        | some r₁ =>
          cases hrun
          exact hI₁
        | none =>
          refine ih hrun (Nat.mod_lt _ (by decide)) hI₁ fun va s r s' hv => hbody va s r s' ?_
          exact visited_next (by rwa [hmod]) hv
    · cases hrun
      exact hI

/-- Where nothing is left of the range the loop stops. -/
theorem whilePages_end (hfuel : 0 < fuel) (hstop : ¬ start < stop) : whilePages body stop fuel start s = .ok (none, s) := by
  obtain ⟨fuel, rfl⟩ := Nat.exists_eq_succ_of_ne_zero (Nat.ne_of_gt hfuel)
  unfold whilePages
  rw [if_neg hstop]
  rfl

theorem page_succ (start k : Nat) : start + (k + 1) * PAGE_SIZE = start + PAGE_SIZE + k * PAGE_SIZE := by
  rw [Nat.succ_mul]
  omega

/-- Where `n + 1` pages are left it goes on behind the first. -/
theorem whilePages_turn {n : Nat} (hstop : stop = start + (n + 1) * PAGE_SIZE) (hlt : stop < 2 ^ 64) :
    whilePages body stop (fuel + 1) start s = body start s >>= fun
      | (some r, s) => .ok (some r, s)
      | (none, s) => whilePages body stop fuel (start + PAGE_SIZE) s := by
  rw [page_succ] at hstop
  have hpos : 0 < PAGE_SIZE := by decide
  have hnext : u64 (start + PAGE_SIZE) = start + PAGE_SIZE := Nat.mod_eq_of_lt (by omega)
  rw [whilePages, if_pos (by omega), hnext]
  rfl

end Loop

end Exaros
