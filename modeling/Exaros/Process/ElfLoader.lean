import Exaros.Memory.Remapping
import Exaros.Memory.Transfer

/-!
# Loading a segment

`codeMapper` maps the pages of a segment in four phases, the first page, those the binary fills, the rest of its last
page and those behind it. The phases share `i` and `r`. Where the binary ends on a page boundary the third is left
out, and the fourth starts with the `r` of the last copy: it leaves out as many bytes of the segment.
-/

namespace Exaros

/-- A loop of `bzero`. -/
def bzeroLoop (step : Nat) (go : Nat → Bool) : Nat → Nat → Mem → Nat × Mem
  | 0, start, m => (start, m)
  | fuel + 1, start, m =>
    if go start then bzeroLoop step go fuel (start + step) (storeBytes start (List.replicate step 0) m) else (start, m)

/-- `bzero`. -/
def bzero (start len : Nat) (m : Mem) : Mem :=
  if len ≤ 7 then (bzeroLoop 1 (· < start + len) len start m).2
  else
    let head := bzeroLoop 1 (· &&& 7 != 0) len start m
    let words := bzeroLoop 8 (· + 7 < start + len) len head.1 head.2
    (bzeroLoop 1 (· < start + len) len words.1 words.2).2

/-- `PTE_EXECUTE_BIT | PTE_READ_BIT | PTE_WRITE_BIT | PTE_USER_BIT` -/
def codePerm : Pte := PTE_EXECUTE_BIT ||| PTE_READ_BIT ||| PTE_WRITE_BIT ||| PTE_USER_BIT

/-- The page of an address that is not on a page boundary; `none` where there is no memory for it. -/
def edgePage (pgdir : Ppn) (va : Nat) (m : Mem) : Except Panic (Option Ppn × Mem) := do
  match ← pageLookup pgdir va m with
  | some (page, _) => return (some page, m)
  | none =>
    match pageAlloc m with
    | none => return (none, m)
    | some (page, m) =>
      let (_, m) ← pageInsert pgdir va page codePerm m
      return (some page, m)

/-- `for (; i < size; i += r) { … }` of the second and the fourth phase: a new page for `va + i`, and `fill` it. It leaves
`i` and `r`; `none` where there is no memory. -/
def codePages (pgdir : Ppn) (va size : Nat) (fill : Nat → Nat → Nat → Mem → Mem) :
    Nat → Nat → Nat → Mem → Except Panic (Option (Nat × Nat) × Mem)
  | 0, _, _, _ => .error .endless
  | fuel + 1, i, r, m =>
    if i < size then
      match pageAlloc m with
      | none => .ok (none, m)
      | some (page, m) => do
        let (_, m) ← pageInsert pgdir (u64 (va + i)) page codePerm m
        let r := min PAGE_SIZE (size - i)
        codePages pgdir va size fill fuel (i + r) r (fill (page <<< PAGE_SHIFT) i r m)
    else .ok (some (i, r), m)

/-- The first phase of `codeMapper`, and its `r`. -/
def codeHead (pgdir : Ppn) (va : Nat) (binary : List UInt8) (m : Mem) : Except Panic (Option Nat × Mem) :=
  let offset := va - alignDown va
  if 0 < offset then do
    match ← edgePage pgdir va m with
    | (none, m) => return (none, m)
    | (some page, m) =>
      let r := min binary.length (PAGE_SIZE - offset)
      return (some r, storeBytes (page <<< PAGE_SHIFT + offset) (binary.take r) m)
  else return (some 0, m)

/-- The third phase, with the `r` it leaves. -/
def codeTail (pgdir : Ppn) (va segmentSize i r : Nat) (m : Mem) : Except Panic (Option Nat × Mem) :=
  let offset := u64 (va + i) - alignDown (u64 (va + i))
  if 0 < offset then do
    match ← edgePage pgdir (u64 (va + i)) m with
    | (none, m) => return (none, m)
    | (some page, m) =>
      let r := min (u64 (segmentSize + (2 ^ 64 - i))) (PAGE_SIZE - offset)
      return (some r, bzero (page <<< PAGE_SHIFT + offset) r m)
  else return (some r, m)

/-- `codeMapper`; the binary is `binSize` bytes of the kernel's. -/
def codeMapper (fuel : Nat) (pgdir : Ppn) (va segmentSize : Nat) (binary : List UInt8) (m : Mem) : Except Panic (Int × Mem) := do
  match ← codeHead pgdir va binary m with
  | (none, m) => return (-E_NO_MEM, m)
  | (some r, m) =>
    match ← codePages pgdir va binary.length (fun pa i r => storeBytes pa ((binary.drop i).take r)) fuel r r m with
    | (none, m) => return (-E_NO_MEM, m)
    | (some (i, r), m) =>
      match ← codeTail pgdir va segmentSize i r m with
      | (none, m) => return (-E_NO_MEM, m)
      | (some r, m) =>
        match ← codePages pgdir va segmentSize (fun pa _ r => bzero pa r) fuel (i + r) r m with
        | (none, m) => return (-E_NO_MEM, m)
        | (some _, m) => return (0, m)

/-! ## `bzero` -/

section Bzero

variable {step start len n fuel : Nat} {go : Nat → Bool} {m : Mem}

theorem storeBytes_append (pa : Nat) (src rest : List UInt8) (m : Mem) :
    storeBytes pa (src ++ rest) m = storeBytes (pa + src.length) rest (storeBytes pa src m) := by
  induction src generalizing pa m with
  | nil => rfl
  | cons ch src ih =>
    rw [List.cons_append, List.length_cons, Nat.add_comm src.length, ← Nat.add_assoc]
    exact ih (pa + 1) (storeByte m pa ch)

/-- `n` turns of a loop. -/
theorem bzeroLoop_eq (hn : n ≤ fuel) (hgo : ∀ k < n, go (start + k * step) = true)
    (hstop : n < fuel → go (start + n * step) = false) :
    bzeroLoop step go fuel start m = (start + n * step, storeBytes start (List.replicate (n * step) 0) m) := by
  induction n generalizing start fuel m with
  | zero =>
    rw [Nat.zero_mul, Nat.add_zero] at *
    cases fuel with
    | zero => rfl
    | succ fuel =>
      unfold bzeroLoop
      rw [hstop (Nat.succ_pos fuel)]
      rfl
  | succ n ih =>
    obtain ⟨fuel, rfl⟩ := Nat.exists_eq_succ_of_ne_zero (by omega : fuel ≠ 0)
    have hfirst : go start = true := by
      have hgo₀ := hgo 0 (Nat.succ_pos n)
      rwa [Nat.zero_mul, Nat.add_zero] at hgo₀
    have hlater : ∀ k, start + (k + 1) * step = start + step + k * step := fun k => by
      rw [Nat.succ_mul]
      omega
    unfold bzeroLoop
    rw [hfirst, if_pos rfl, ih (by omega) (fun k hk => by rw [← hlater]; exact hgo (k + 1) (by omega))
      (fun hlt => by rw [← hlater]; exact hstop (by omega))]
    rw [hlater, Nat.succ_mul, Nat.add_comm (n * step), List.replicate_add, storeBytes_append, List.length_replicate]

/-- **`bzero`** stores zeros. -/
theorem bzero_eq (start len : Nat) (m : Mem) : bzero start len m = storeBytes start (List.replicate len 0) m := by
  have hbytes : ∀ (n start' : Nat) (m' : Mem), start' + n = start + len → n ≤ len →
      bzeroLoop 1 (· < start + len) len start' m' = (start' + n * 1, storeBytes start' (List.replicate (n * 1) 0) m') :=
    fun n start' m' hsum hle => by
      refine bzeroLoop_eq hle (fun k hk => ?_) fun _ => ?_
      · exact decide_eq_true (by omega)
      · exact decide_eq_false (by omega)
  unfold bzero
  split
  · rw [hbytes len start m rfl (Nat.le_refl _), Nat.mul_one]
  · -- up to a word, word by word, and what is left
    rename_i hlen
    obtain ⟨k, hk⟩ : ∃ k, k = (8 - start % 8) % 8 := ⟨_, rfl⟩
    obtain ⟨n, hn⟩ : ∃ n, n = (len - k) / 8 := ⟨_, rfl⟩
    have hmask : ∀ x : Nat, x &&& 7 = x % 8 := fun x => Nat.and_two_pow_sub_one_eq_mod x 3
    have hhead : bzeroLoop 1 (· &&& 7 != 0) len start m = (start + k * 1, storeBytes start (List.replicate (k * 1) 0) m) := by
      refine bzeroLoop_eq (by omega) (fun j hj => ?_) fun _ => ?_
      · rw [hmask, bne_iff_ne]
        omega
      · rw [hmask, bne_eq_false_iff_eq]
        omega
    have hwords : bzeroLoop 8 (· + 7 < start + len) len (start + k * 1) (storeBytes start (List.replicate (k * 1) 0) m) =
        (start + k * 1 + n * 8, storeBytes (start + k * 1) (List.replicate (n * 8) 0) (storeBytes start (List.replicate (k * 1) 0) m)) := by
      refine bzeroLoop_eq (by omega) (fun j hj => ?_) fun _ => ?_
      · exact decide_eq_true (by omega)
      · exact decide_eq_false (by omega)
    have htail := hbytes (len - k - n * 8) (start + k * 1 + n * 8)
      (storeBytes (start + k * 1) (List.replicate (n * 8) 0) (storeBytes start (List.replicate (k * 1) 0) m)) (by omega) (by omega)
    have hall : List.replicate len (0 : UInt8) = List.replicate (k * 1) 0 ++ (List.replicate (n * 8) 0 ++
        List.replicate ((len - k - n * 8) * 1) 0) := by
      rw [← List.replicate_add, ← List.replicate_add]
      exact congrArg (List.replicate · 0) (by omega)
    rw [hhead]
    dsimp only
    rw [hwords]
    rw [htail, hall, storeBytes_append, storeBytes_append, List.length_replicate, List.length_replicate]

end Bzero

/-! ## Pages -/

/-- The byte that is mapped at an address. -/
def codeByte (m : Mem) (d : Ppn) (a : Nat) : Option UInt8 :=
  (view m d (vpn a)).map fun e => loadByte m (pte2Ppn e <<< PAGE_SHIFT + vaOffset a)

/-- A new page has been mapped, with some bytes at its beginning. -/
structure Placed (img : Image) (dirs : Finset Ppn) (d : Ppn) (v : Vpn) (src : List UInt8) (m m' : Mem) : Prop where
  inv : MemInv img m' dirs
  mapped : (view m' d v).isSome
  off : ∀ w, w ≠ v → view m' d w = view m d w
  byte : ∀ a, vpn a = v → codeByte m' d a = some (src[vaOffset a]?.getD 0)
  keep : ∀ a, vpn a ≠ v → codeByte m' d a = codeByte m d a
  free : m.freePageList.length ≤ m'.freePageList.length + 3

section Pages

variable {img : Image} {dirs : Finset Ppn} {m m₁ m' : Mem} {d y : Ppn} {va a off : Nat} {e : Pte} {src : List UInt8} {v : Vpn}

/-- Pages of addresses, any number of them. -/
theorem vpn_eq_iff_mod {x y : Nat} : vpn x = vpn y ↔ x / PAGE_SIZE % 2 ^ 27 = y / PAGE_SIZE % 2 ^ 27 := by
  simp only [vpn, vaPpn, Prod.mk.injEq, Fin.mk.injEq, Nat.shiftRight_eq_div_pow, PAGE_SHIFT, PAGE_SIZE]
  omega

theorem vpn_u64 (x : Nat) : vpn (u64 x) = vpn x := by
  rw [vpn_eq_iff_mod]
  unfold u64 PAGE_SIZE
  omega

theorem codeByte_of_view (hv : view m d (vpn a) = some e) : codeByte m d a = some (loadByte m (pte2Ppn e <<< PAGE_SHIFT + vaOffset a)) := by
  unfold codeByte
  rw [hv]
  rfl

theorem codeByte_none (hv : view m d (vpn a) = none) : codeByte m d a = none := by
  unfold codeByte
  rw [hv]
  rfl

theorem pageByte_zero (off : Nat) : pageByte (fun _ => 0) off = 0 := by
  show UInt8.ofNat ((0#64 >>> (8 * (off % 8))).toNat) = 0
  rw [BitVec.zero_ushiftRight]
  rfl

/-- The byte at an address after a store to a page that is no table. -/
theorem codeByte_storeBytes (hd : d ∈ dirs) (hnt : ¬ IsTable m dirs y) (hfit : off + src.length ≤ PAGE_SIZE) (a : Nat) :
    codeByte (storeBytes (y <<< PAGE_SHIFT + off) src m) d a =
      if (∃ e, view m d (vpn a) = some e ∧ pte2Ppn e = y) ∧ off ≤ vaOffset a ∧ vaOffset a < off + src.length then
        some (src[vaOffset a - off]?.getD 0)
      else codeByte m d a := by
  have hoff : off < PAGE_SIZE ∨ src = [] := by
    cases src with
    | nil => exact .inr rfl
    | cons ch src =>
      rw [List.length_cons] at hfit
      exact .inl (by omega)
  rcases hoff with hoff | rfl
  · have hdiv : (y <<< PAGE_SHIFT + off) / PAGE_SIZE = y := page_add_div hoff
    have hmod : (y <<< PAGE_SHIFT + off) % PAGE_SIZE + src.length ≤ PAGE_SIZE := by
      rw [page_add_mod hoff]
      exact hfit
    have hview : ∀ v, view (storeBytes (y <<< PAGE_SHIFT + off) src m) d v = view m d v := fun v =>
      view_storeBytes (by rw [hdiv]; exact hnt) hmod hd v
    cases hv : view m d (vpn a) with
    | none =>
      rw [codeByte_none ((hview _).trans hv), codeByte_none hv, if_neg fun hc => ?_]
      obtain ⟨⟨e, he, -⟩, -⟩ := hc
      cases he
    | some e =>
      rw [codeByte_of_view ((hview _).trans hv), codeByte_of_view hv]
      by_cases hin : pte2Ppn e = y ∧ off ≤ vaOffset a ∧ vaOffset a < off + src.length
      · obtain ⟨heq, hlow, hhigh⟩ := hin
        have hlt : vaOffset a - off < src.length := by omega
        have haddr : y <<< PAGE_SHIFT + vaOffset a = y <<< PAGE_SHIFT + off + (vaOffset a - off) := by
          rw [Nat.add_assoc, Nat.add_sub_cancel' hlow]
        rw [if_pos ⟨⟨e, rfl, heq⟩, hlow, hhigh⟩, heq, haddr, loadByte_storeBytes_at src m hlt,
          List.getElem?_eq_getElem hlt]
        rfl
      · rw [if_neg fun hc => ?_, loadByte_storeBytes_off]
        · have ha : vaOffset a < PAGE_SIZE := Nat.mod_lt _ (by decide)
          have hmul : ∀ q : Nat, q <<< PAGE_SHIFT = q * 4096 := fun q => Nat.shiftLeft_eq q PAGE_SHIFT
          rw [hmul, hmul]
          unfold PAGE_SIZE at ha hfit
          by_contra hno
          have hpage : @Eq Nat (pte2Ppn e) y := by omega
          subst hpage
          exact hin ⟨rfl, by omega, by omega⟩
        · obtain ⟨⟨e', he, heq⟩, hrange⟩ := hc
          cases he
          exact hin ⟨heq, hrange⟩
  · rw [if_neg fun hc => absurd hc.2.2 (by rw [List.length_nil]; omega)]
    rfl

/-- Stores to a mapped page leave the tables alone. -/
theorem MemInv.storePage (h : MemInv img m dirs) (hd : d ∈ dirs) (hv : view m d v = some e) (hfit : off + src.length ≤ PAGE_SIZE) :
    MemInv img (storeBytes (pte2Ppn e <<< PAGE_SHIFT + off) src m) dirs ∧
      ∀ w, view (storeBytes (pte2Ppn e <<< PAGE_SHIFT + off) src m) d w = view m d w := by
  cases src with
  | nil => exact ⟨h, fun _ => rfl⟩
  | cons ch src =>
    have hoff : off < PAGE_SIZE := by
      rw [List.length_cons] at hfit
      omega
    have hnt : ¬ IsTable m dirs ((pte2Ppn e <<< PAGE_SHIFT + off) / PAGE_SIZE) := by
      rw [page_add_div hoff]
      exact (h.leaf d hd _ e hv).2.1
    have hfit' : (pte2Ppn e <<< PAGE_SHIFT + off) % PAGE_SIZE + (ch :: src).length ≤ PAGE_SIZE := by
      rw [page_add_mod hoff]
      exact hfit
    have hkept : Kept img dirs m (storeBytes (pte2Ppn e <<< PAGE_SHIFT + off) (ch :: src) m) := kept_storeBytes hnt hfit'
    exact ⟨hkept.inv h, fun w => view_storeBytes hnt hfit' hd w⟩

/-- **A new page** is mapped over whatever there was, and the bytes stored. -/
theorem MemInv.placed (h : MemInv img m dirs) (hd : d ∈ dirs) (hmem : 3 ≤ m.freePageList.length) (va : Nat)
    (hfit : src.length ≤ PAGE_SIZE) : ∃ page m₁ m₂, pageAlloc m = some (page, m₁) ∧
      Exaros.pageInsert d va page codePerm m₁ = .ok (0, m₂) ∧
      Placed img dirs d (vpn va) src m (storeBytes (page <<< PAGE_SHIFT) src m₂) := by
  obtain ⟨page, m₁, ha⟩ := pageAlloc_of_pos (m := m) (by omega)
  have tk := h.taken ha
  have hperm : PermOk codePerm := by decide
  obtain ⟨m₂, hi, hf, hlen⟩ | ⟨m₂, -, -, -, hlen⟩ := h.insertFresh hd va ha (m₁.ram page) hperm
  · rw [setPage_self] at hi
    have hself := hf.change.view_self hd
    have hppn := pte2Ppn_touchPte tk.usable.1 hperm
    have hnt : ¬ IsTable m₂ dirs page := hppn ▸ (hf.change.inv.leaf d hd _ _ hself).2.1
    have hpos : 0 < PAGE_SIZE := by decide
    obtain ⟨hinv, hview⟩ := hf.change.inv.storePage hd hself (by rw [Nat.zero_add]; exact hfit : 0 + src.length ≤ PAGE_SIZE)
    rw [hppn, Nat.add_zero] at hinv hview
    have hstore : ∀ a, codeByte (storeBytes (page <<< PAGE_SHIFT) src m₂) d a = _ := fun a =>
      codeByte_storeBytes hd hnt (by rw [Nat.zero_add]; exact hfit : 0 + src.length ≤ PAGE_SIZE) a
    refine ⟨page, m₁, m₂, ha, hi, hinv, ?_, fun w hw => ?_, fun a hpage => ?_, fun a hpage => ?_, ?_⟩
    · rw [hview, hself]
      rfl
    · rw [hview]
      exact hf.change.view_off hd fun hc => hw hc.2
    · have hself' : view m₂ d (vpn a) = some (touchPte page codePerm) := hpage ▸ hself
      have hoff : vaOffset a < PAGE_SIZE := Nat.mod_lt _ hpos
      rw [hstore]
      by_cases hin : vaOffset a < src.length
      · rw [if_pos ⟨⟨_, hself', hppn⟩, Nat.zero_le _, by rwa [Nat.zero_add]⟩, Nat.sub_zero]
      · have hzero : m₂.ram page = fun _ => 0 := by
          have hpage := hf.page
          rw [hppn] at hpage
          rw [hpage]
          exact funext tk.cleared
        rw [if_neg fun hc => hin (by rw [← Nat.zero_add src.length]; exact hc.2.2), codeByte_of_view hself', hppn, loadByte_page m₂ hoff, hzero,
          List.getElem?_eq_none (Nat.not_lt.mp hin)]
        exact congrArg some (pageByte_zero _)
    · -- no other page of the process is the new one
      have hother : ∀ e, view m₂ d (vpn a) = some e → pte2Ppn e ≠ page := fun e he heq => by
        rw [hf.change.view_off hd fun hc => hpage hc.2] at he
        exact h.not_free_of_view hd he (heq ▸ hppn ▸ hf.mem)
      rw [hstore, if_neg fun hc => ?_]
      · unfold codeByte
        rw [hf.change.view_off hd fun hc => hpage hc.2]
        cases hv : view m d (vpn a) with
        | none => rfl
        | some e =>
          have hoff : vaOffset a < PAGE_SIZE := Nat.mod_lt _ hpos
          rw [Option.map_some, Option.map_some, loadByte_page m₂ hoff, loadByte_page m hoff, hf.ram_eq h hd (fun hc => hpage hc.2) hv]
      · obtain ⟨⟨e, he, heq⟩, -⟩ := hc
        exact hother e he heq
    · rw [freePageList_storeBytes]
      exact hlen
  · omega

end Pages

/-! ## Ranges of pages -/

/-- `n` new pages have been mapped, from page number `q` on. -/
structure Covered (img : Image) (dirs : Finset Ppn) (d : Ppn) (q n : Nat) (byte : Nat → UInt8) (m m' : Mem) : Prop where
  inv : MemInv img m' dirs
  on : ∀ a, q ≤ a / PAGE_SIZE → a / PAGE_SIZE < q + n → codeByte m' d a = some (byte a)
  off : ∀ v, (∀ a, q ≤ a / PAGE_SIZE → a / PAGE_SIZE < q + n → vpn a ≠ v) → view m' d v = view m d v
  keep : ∀ b, (∀ a, q ≤ a / PAGE_SIZE → a / PAGE_SIZE < q + n → vpn a ≠ vpn b) → codeByte m' d b = codeByte m d b
  free : m.freePageList.length ≤ m'.freePageList.length + 3 * n

/-- How many pages hold so many bytes. -/
def pagesFor (n : Nat) : Nat := (n + (PAGE_SIZE - 1)) / PAGE_SIZE

section Ranges

variable {img : Image} {dirs : Finset Ppn} {m m₁ m' : Mem} {d : Ppn} {va size i r x q n fuel : Nat} {byte content : Nat → UInt8}
  {fill : Nat → Nat → Nat → Mem → Mem} {src : List UInt8}

theorem Covered.refl (h : MemInv img m dirs) : Covered img dirs d q 0 byte m m where
  inv := h
  on := fun _ hlow hhigh => absurd hhigh (Nat.not_lt.mpr hlow)
  off := fun _ _ => rfl
  keep := fun _ _ => rfl
  free := Nat.le_refl _

/-- Pages near each other are different. -/
theorem vpn_ne_of_near {a b : Nat} (hne : a / PAGE_SIZE ≠ b / PAGE_SIZE) (hlt : a / PAGE_SIZE < b / PAGE_SIZE + 2 ^ 27)
    (hlt' : b / PAGE_SIZE < a / PAGE_SIZE + 2 ^ 27) : vpn a ≠ vpn b := fun heq => by
  have hmod := vpn_eq_iff_mod.mp heq
  omega

/-- One page, and then others. -/
theorem Placed.covered (p : Placed img dirs d (vpn va) src m m₁) (hq : va / PAGE_SIZE = q) (hn : n < 2 ^ 27)
    (hbyte : ∀ a, a / PAGE_SIZE = q → src[vaOffset a]?.getD 0 = byte a) (c : Covered img dirs d (q + 1) n byte m₁ m') :
    Covered img dirs d q (n + 1) byte m m' where
  inv := c.inv
  on := fun a hlow hhigh => by
    by_cases hpage : a / PAGE_SIZE = q
    · rw [c.keep a fun b hb hb' => vpn_ne_of_near (by omega) (by omega) (by omega), p.byte a (vpn_congr (by rw [hpage, hq])),
        hbyte a hpage]
    · exact c.on a (by omega) (by omega)
  off := fun v hv => by
    rw [c.off v fun a hlow hhigh => hv a (by omega) (by omega)]
    exact p.off v fun heq => hv va (by omega) (by omega) heq.symm
  keep := fun b hb => by
    rw [c.keep b fun a hlow hhigh => hb a (by omega) (by omega)]
    exact p.keep b fun heq => hb va (by omega) (by omega) heq.symm
  free := by
    have hp := p.free
    have hc := c.free
    omega

/-- **The second and the fourth phase** cover the pages from `va + i` on, one for each page of bytes up to `size`. The bytes
lie in them as far behind their beginning as `va + i` begins. -/
theorem MemInv.codePages (h : MemInv img m dirs) (hd : d ∈ dirs)
    (hfill : ∀ pa i r m, i + r ≤ size → fill pa i r m = storeBytes pa ((List.range r).map fun k => content (i + k)) m)
    (hx : (va + i) % PAGE_SIZE = x) (hsize : size < 2 ^ 32) (hmem : 3 * pagesFor (size - i) ≤ m.freePageList.length)
    (hfuel : size - i < fuel) :
    ∃ r' m', Exaros.codePages d va size fill fuel i r m = .ok (some (max i size, r'), m') ∧
      r' = (if i < size then (size - i - 1) % PAGE_SIZE + 1 else r) ∧
      Covered img dirs d ((va + i) / PAGE_SIZE) (pagesFor (size - i))
        (fun a => if a + x - va < size then content (a + x - va) else 0) m m' := by
  induction fuel generalizing i r m with
  | zero => exact absurd hfuel (Nat.not_lt_zero _)
  | succ fuel ih =>
    unfold Exaros.codePages
    by_cases hlt : i < size
    · rw [if_pos hlt, if_pos hlt]
      obtain ⟨len, hlen⟩ : ∃ len, min PAGE_SIZE (size - i) = len := ⟨_, rfl⟩
      have hone : pagesFor (size - i) = pagesFor (size - (i + len)) + 1 := by
        rw [← hlen]
        unfold pagesFor PAGE_SIZE
        omega
      have hcount : pagesFor (size - (i + len)) < 2 ^ 27 := by
        unfold pagesFor PAGE_SIZE
        omega
      have hsrc : ((List.range len).map fun k => content (i + k)).length ≤ PAGE_SIZE := by
        rw [List.length_map, List.length_range]
        omega
      obtain ⟨page, m₁, m₂, ha, hi, hp⟩ := h.placed hd (by omega) (u64 (va + i)) hsrc
      rw [vpn_u64] at hp
      have hrun : ∀ res, Exaros.codePages d va size fill fuel (i + len) len
            (storeBytes (page <<< PAGE_SHIFT) ((List.range len).map fun k => content (i + k)) m₂) = res →
          (match pageAlloc m with
            | none => Except.ok (none, m)
            | some (page, m) => do
              let (_, m) ← Exaros.pageInsert d (u64 (va + i)) page codePerm m
              Exaros.codePages d va size fill fuel (i + min PAGE_SIZE (size - i)) (min PAGE_SIZE (size - i))
                (fill (page <<< PAGE_SHIFT) i (min PAGE_SIZE (size - i)) m)) = res := fun res hres => by
        rw [ha]
        simp only [hi, Loop.ok_bind, hlen]
        rw [hfill _ _ _ _ (by omega)]
        exact hres
      have hbyte : ∀ a, a / PAGE_SIZE = (va + i) / PAGE_SIZE → ((List.range len).map fun k => content (i + k))[vaOffset a]?.getD 0 =
          if a + x - va < size then content (a + x - va) else 0 := fun a ha => by
        have hoff : a + x - va = i + vaOffset a := by
          unfold vaOffset PAGE_SIZE at *
          omega
        have hlow : vaOffset a < PAGE_SIZE := Nat.mod_lt _ (by decide)
        rw [hoff]
        by_cases hin : vaOffset a < len
        · rw [if_pos (by omega), List.getElem?_map, List.getElem?_range hin]
          rfl
        · rw [if_neg (by omega), List.getElem?_eq_none (by rw [List.length_map, List.length_range]; omega)]
          rfl
      by_cases hfull : PAGE_SIZE ≤ size - i
      · have hpage : len = PAGE_SIZE := by omega
        have hx' : (va + (i + len)) % PAGE_SIZE = x := by rw [hpage, ← Nat.add_assoc, Nat.add_mod_right, hx]
        have hq' : (va + (i + len)) / PAGE_SIZE = (va + i) / PAGE_SIZE + 1 := by
          rw [hpage, ← Nat.add_assoc]
          exact Nat.add_div_right _ (by decide)
        have hmem' : 3 * pagesFor (size - (i + len)) ≤ (storeBytes (page <<< PAGE_SHIFT)
            ((List.range len).map fun k => content (i + k)) m₂).freePageList.length := by
          have hfree := hp.free
          omega
        have hfuel' : size - (i + len) < fuel := by
          unfold PAGE_SIZE at hpage
          omega
        obtain ⟨r', m', hloop, hr', hc⟩ := ih (r := len) hp.inv hx' hmem' hfuel'
        rw [hq'] at hc
        have hend : max (i + len) size = max i size := by omega
        rw [hend] at hloop
        refine ⟨r', m', hrun _ hloop, ?_, ?_⟩
        · rw [hr']
          unfold PAGE_SIZE at *
          split
          · omega
          · omega
        · rw [hone]
          exact hp.covered rfl hcount hbyte hc
      · -- the last page
        have hend : i + len = size := by omega
        obtain ⟨fuel, rfl⟩ := Nat.exists_eq_succ_of_ne_zero (by omega : fuel ≠ 0)
        obtain ⟨m₃, hm₃⟩ : ∃ m₃, storeBytes (page <<< PAGE_SHIFT) ((List.range len).map fun k => content (i + k)) m₂ = m₃ := ⟨_, rfl⟩
        have hloop : Exaros.codePages d va size fill (fuel + 1) (i + len) len m₃ = .ok (some (max i size, len), m₃) := by
          unfold Exaros.codePages
          rw [if_neg (by omega), hend, Nat.max_eq_right (Nat.le_of_lt hlt)]
        rw [hm₃] at hrun hp
        refine ⟨len, m₃, hrun _ hloop, ?_, ?_⟩
        · unfold PAGE_SIZE at *
          omega
        · have hnone : pagesFor (size - (i + len)) = 0 := by
            rw [hend, Nat.sub_self]
            rfl
          rw [hone, hnone]
          exact hp.covered rfl (by decide) hbyte (Covered.refl hp.inv)
    · have hnone : pagesFor (size - i) = 0 := by
        unfold pagesFor PAGE_SIZE
        omega
      rw [if_neg hlt, if_neg hlt, hnone, Nat.max_eq_left (Nat.not_lt.mp hlt)]
      exact ⟨r, m, rfl, rfl, Covered.refl h⟩

end Ranges

/-! ## Phases -/

/-- The segment's bytes: the binary, and zeros behind it. -/
def segmentByte (binary : List UInt8) (k : Nat) : UInt8 := binary[k]?.getD 0

/-- The first `j` bytes of a segment are there, and pages behind theirs are as they were. -/
structure FilledTo (img : Image) (dirs : Finset Ppn) (d : Ppn) (va : Nat) (binary : List UInt8) (j : Nat) (m m' : Mem) : Prop where
  inv : MemInv img m' dirs
  byte : ∀ k < j, codeByte m' d (va + k) = some (segmentByte binary k)
  later : ∀ k < 2 ^ 32, va / PAGE_SIZE + pagesFor (va % PAGE_SIZE + j) ≤ (va + k) / PAGE_SIZE →
    view m' d (vpn (va + k)) = view m d (vpn (va + k))
  free : m.freePageList.length ≤ m'.freePageList.length + 3 * pagesFor (va % PAGE_SIZE + j)

section Phases

variable {img : Image} {dirs : Finset Ppn} {m m₁ m' : Mem} {d y : Ppn} {va i j n q r fuel segmentSize : Nat} {byte : Nat → UInt8}
  {binary src : List UInt8} {e : Pte}

theorem segmentByte_of_ge {k : Nat} (h : binary.length ≤ k) : segmentByte binary k = 0 := by
  unfold segmentByte
  rw [List.getElem?_eq_none h]
  rfl

/-- Pages that are covered from where the bytes end. -/
theorem FilledTo.covered (w : FilledTo img dirs d va binary i m m₁) (c : Covered img dirs d q n byte m₁ m')
    (hq : 0 < n → (va + i) % PAGE_SIZE = 0 ∧ q = (va + i) / PAGE_SIZE) (hn : i + n * PAGE_SIZE ≤ 2 ^ 33)
    (hbyte : ∀ k, i ≤ k → k < i + n * PAGE_SIZE → byte (va + k) = segmentByte binary k) :
    FilledTo img dirs d va binary (i + n * PAGE_SIZE) m m' := by
  have hcount : pagesFor (va % PAGE_SIZE + (i + n * PAGE_SIZE)) = pagesFor (va % PAGE_SIZE + i) + n := by
    unfold pagesFor PAGE_SIZE at *
    omega
  refine ⟨c.inv, fun k hk => ?_, fun k hk hpage => ?_, ?_⟩
  · rcases Nat.lt_or_ge k i with hlt | hge
    · rw [c.keep (va + k) fun a hlow hhigh => vpn_ne_of_near ?_ ?_ ?_]
      · exact w.byte k hlt
      all_goals
        unfold PAGE_SIZE at *
        omega
    · have hpos : 0 < n := Nat.pos_of_ne_zero fun hzero => by
        rw [hzero, Nat.zero_mul] at hk
        omega
      obtain ⟨hal, hq⟩ := hq hpos
      rw [c.on (va + k) (by unfold PAGE_SIZE at *; omega) (by unfold PAGE_SIZE at *; omega), hbyte k hge hk]
  · rw [hcount] at hpage
    rw [c.off (vpn (va + k)) fun a hlow hhigh => vpn_ne_of_near ?_ ?_ ?_]
    · exact w.later k hk (by omega)
    all_goals
      unfold pagesFor PAGE_SIZE at *
      omega
  · rw [hcount]
    have hw := w.free
    have hc := c.free
    omega

/-- Where the page is mapped, it is found. -/
theorem MemInv.edgePage_mapped (h : MemInv img m dirs) (hd : d ∈ dirs) (hv : view m d (vpn va) = some e) :
    Exaros.edgePage d va m = .ok (some (pte2Ppn e), m) := by
  obtain ⟨t, -, -, hl⟩ := h.pageLookup_some hd hv
  unfold Exaros.edgePage
  rw [hl]
  rfl

/-- Where it is not, there is a new one. -/
theorem MemInv.edgePage_absent (h : MemInv img m dirs) (hd : d ∈ dirs) (hv : view m d (vpn va) = none)
    (hmem : 3 ≤ m.freePageList.length) : ∃ e m₁, Exaros.edgePage d va m = .ok (some (pte2Ppn e), m₁) ∧
      MemInv img m₁ dirs ∧ view m₁ d (vpn va) = some e ∧ (∀ w, w ≠ vpn va → view m₁ d w = view m d w) ∧
      m.freePageList.length ≤ m₁.freePageList.length + 3 := by
  obtain ⟨page, m₁, ha⟩ := pageAlloc_of_pos (m := m) (by omega)
  have tk := h.taken ha
  have hperm : PermOk codePerm := by decide
  obtain ⟨m₂, hi, hf, hlen⟩ | ⟨m₂, -, -, -, hlen⟩ := h.insertFresh hd va ha (m₁.ram page) hperm
  · rw [setPage_self] at hi
    refine ⟨touchPte page codePerm, m₂, ?_, hf.change.inv, hf.change.view_self hd, fun w hw => hf.change.view_off hd fun hc => hw hc.2, hlen⟩
    unfold Exaros.edgePage
    rw [pageLookup_none hv, pte2Ppn_touchPte tk.usable.1 hperm]
    simp only [Loop.ok_bind, ha, hi]
    rfl
  · omega

/-- Bytes stored to the first page. -/
theorem FilledTo.head (h : MemInv img m₁ dirs) (hd : d ∈ dirs) (hv : view m₁ d (vpn va) = some e) (hal : va % PAGE_SIZE ≠ 0)
    (hoff : ∀ w, w ≠ vpn va → view m₁ d w = view m d w) (hfree : m.freePageList.length ≤ m₁.freePageList.length + 3)
    (hr : r = min binary.length (PAGE_SIZE - va % PAGE_SIZE)) :
    FilledTo img dirs d va binary r m (storeBytes (pte2Ppn e <<< PAGE_SHIFT + va % PAGE_SIZE) (binary.take r) m₁) ∧
      (view (storeBytes (pte2Ppn e <<< PAGE_SHIFT + va % PAGE_SIZE) (binary.take r) m₁) d (vpn va)).isSome := by
  have hoffset : va % PAGE_SIZE < PAGE_SIZE := Nat.mod_lt _ (by decide)
  have hlen : (binary.take r).length = r := by
    rw [List.length_take]
    omega
  have hfit : va % PAGE_SIZE + (binary.take r).length ≤ PAGE_SIZE := by omega
  obtain ⟨hinv, hview⟩ := h.storePage hd hv hfit
  have hone : pagesFor (va % PAGE_SIZE + r) = 1 := by
    unfold pagesFor PAGE_SIZE at *
    omega
  refine ⟨⟨hinv, fun k hk => ?_, fun k hk hpage => ?_, ?_⟩, by rw [hview, hv]; rfl⟩
  · have hsame : vpn (va + k) = vpn va := vpn_congr (by unfold PAGE_SIZE at *; omega)
    have hat : vaOffset (va + k) = va % PAGE_SIZE + k := by
      unfold vaOffset PAGE_SIZE at *
      omega
    rw [codeByte_storeBytes hd (h.leaf d hd _ e hv).2.1 hfit, if_pos ⟨⟨e, hsame ▸ hv, rfl⟩, by omega, by omega⟩, hat,
      Nat.add_sub_cancel_left, List.getElem?_take_of_lt hk]
    rfl
  · rw [hone] at hpage
    rw [hview]
    exact hoff _ (vpn_ne_of_near (by omega) (by unfold PAGE_SIZE at *; omega) (by omega))
  · rw [hone, freePageList_storeBytes]
    exact hfree

/-- **The first phase.** -/
theorem MemInv.codeHead (h : MemInv img m dirs) (hd : d ∈ dirs) (binary : List UInt8)
    (hmem : va % PAGE_SIZE ≠ 0 → 3 ≤ m.freePageList.length) :
    ∃ r m₁, Exaros.codeHead d va binary m = .ok (some r, m₁) ∧
      r = (if va % PAGE_SIZE = 0 then 0 else min binary.length (PAGE_SIZE - va % PAGE_SIZE)) ∧
      FilledTo img dirs d va binary r m m₁ ∧ (va % PAGE_SIZE ≠ 0 → (view m₁ d (vpn va)).isSome) := by
  have hoffset : va - alignDown va = va % PAGE_SIZE := by
    unfold alignDown PAGE_SIZE
    omega
  unfold Exaros.codeHead
  simp only [hoffset]
  by_cases hal : va % PAGE_SIZE = 0
  · rw [if_neg (by omega), if_pos hal]
    refine ⟨0, m, rfl, rfl, ⟨h, fun k hk => absurd hk (Nat.not_lt_zero k), fun _ _ _ => rfl, Nat.le_add_right _ _⟩, fun hne => absurd hal hne⟩
  · rw [if_pos (by omega), if_neg hal]
    cases hv : view m d (vpn va) with
    | some e =>
      obtain ⟨hw, hsome⟩ := FilledTo.head h hd hv hal (fun _ _ => rfl) (Nat.le_add_right _ _) rfl
      refine ⟨_, _, ?_, rfl, hw, fun _ => hsome⟩
      rw [h.edgePage_mapped hd hv]
      rfl
    | none =>
      obtain ⟨e, m₁, hrun, hinv, hself, hoff, hfree⟩ := h.edgePage_absent hd hv (hmem hal)
      obtain ⟨hw, hsome⟩ := FilledTo.head hinv hd hself hal hoff hfree rfl
      refine ⟨_, _, ?_, rfl, hw, fun _ => hsome⟩
      rw [hrun]
      rfl

/-- The second phase copies the binary. -/
theorem copy_eq (binary : List UInt8) (pa i r : Nat) (m : Mem) (h : i + r ≤ binary.length) :
    storeBytes pa ((binary.drop i).take r) m = storeBytes pa ((List.range r).map fun k => segmentByte binary (i + k)) m := by
  refine congrArg (storeBytes pa · m) (List.ext_getElem? fun k => ?_)
  rcases Nat.lt_or_ge k r with hlt | hge
  · rw [List.getElem?_take_of_lt hlt, List.getElem?_drop, List.getElem?_map, List.getElem?_range hlt]
    show binary[i + k]? = some (binary[i + k]?.getD 0)
    rw [List.getElem?_eq_getElem (by omega)]
    rfl
  · rw [List.getElem?_eq_none (by rw [List.length_take]; omega), List.getElem?_eq_none (by rw [List.length_map, List.length_range]; omega)]

/-- **The first two phases.** The bytes end with the binary where it ends on a page boundary; elsewhere they end with it in
the first page, or with its last page. -/
theorem MemInv.codeCopied (h : MemInv img m dirs) (hd : d ∈ dirs) (hbin : binary.length ≤ segmentSize) (hseg : segmentSize < 2 ^ 32)
    (hmem : 3 * pagesFor (va % PAGE_SIZE + segmentSize) ≤ m.freePageList.length) (hfuel : segmentSize < fuel) :
    ∃ r₁ m₁ r j m₂, Exaros.codeHead d va binary m = .ok (some r₁, m₁) ∧
      Exaros.codePages d va binary.length (fun pa i r => storeBytes pa ((binary.drop i).take r)) fuel r₁ r₁ m₁ =
        .ok (some (binary.length, r), m₂) ∧
      FilledTo img dirs d va binary j m m₂ ∧
      ((va + binary.length) % PAGE_SIZE = 0 → j = binary.length ∧ r = min binary.length PAGE_SIZE) ∧
      ((va + binary.length) % PAGE_SIZE ≠ 0 →
        (j = binary.length ∧ (va + binary.length) / PAGE_SIZE = va / PAGE_SIZE ∧ (view m₂ d (vpn va)).isSome) ∨
          j = binary.length + (PAGE_SIZE - (va + binary.length) % PAGE_SIZE)) := by
  obtain ⟨r₁, m₁, hhead, hr₁, hfill, hsome⟩ := h.codeHead hd binary fun hne : va % PAGE_SIZE ≠ 0 => by
    unfold pagesFor PAGE_SIZE at *
    omega
  have hle : r₁ ≤ binary.length := by
    rw [hr₁]
    split
    · exact Nat.zero_le _
    · exact Nat.min_le_left ..
  have hfree := hfill.free
  rcases Nat.eq_or_lt_of_le hle with heq | hlt
  · -- the binary ends in the first page
    obtain ⟨fuel, rfl⟩ := Nat.exists_eq_succ_of_ne_zero (by omega : fuel ≠ 0)
    refine ⟨r₁, m₁, r₁, binary.length, m₁, hhead, ?_, heq ▸ hfill, fun hal => ⟨rfl, ?_⟩, fun hal => .inl ⟨rfl, ?_, hsome ?_⟩⟩
    · unfold Exaros.codePages
      rw [if_neg (by omega), heq]
    all_goals
      split at hr₁
      all_goals
        unfold PAGE_SIZE at *
        omega
  · have hal : (va + r₁) % PAGE_SIZE = 0 := by
      split at hr₁
      all_goals
        unfold PAGE_SIZE at *
        omega
    have hmem' : 3 * pagesFor (binary.length - r₁) ≤ m₁.freePageList.length := by
      unfold pagesFor PAGE_SIZE at *
      omega
    obtain ⟨r, m₂, hloop, hr, hc⟩ := hfill.inv.codePages (r := r₁) hd (copy_eq binary) hal (by omega) hmem'
      (by omega : binary.length - r₁ < fuel)
    have hn := hfill.covered hc (fun _ => ⟨hal, rfl⟩) (by unfold pagesFor PAGE_SIZE at *; omega) fun k hlow hhigh => ?_
    · rw [Nat.max_eq_right hle] at hloop
      rw [if_pos hlt] at hr
      refine ⟨r₁, m₁, r, _, m₂, hhead, hloop, hn, fun hend => ?_, fun hend => .inr ?_⟩
      all_goals
        unfold pagesFor PAGE_SIZE at *
        omega
    · rw [Nat.add_zero, Nat.add_sub_cancel_left]
      split
      · rfl
      · rw [segmentByte_of_ge (by omega)]

/-- What the third phase does where the page is mapped. -/
theorem MemInv.codeTail (h : MemInv img m dirs) (hd : d ∈ dirs) (hv : view m d (vpn (va + n)) = some e)
    (hal : (va + n) % PAGE_SIZE ≠ 0) (hn : n ≤ segmentSize) (hseg : segmentSize < 2 ^ 32) (r : Nat) :
    Exaros.codeTail d va segmentSize n r m = .ok (some (min (segmentSize - n) (PAGE_SIZE - (va + n) % PAGE_SIZE)),
      storeBytes (pte2Ppn e <<< PAGE_SHIFT + (va + n) % PAGE_SIZE)
        (List.replicate (min (segmentSize - n) (PAGE_SIZE - (va + n) % PAGE_SIZE)) 0) m) := by
  have hoffset : u64 (va + n) - alignDown (u64 (va + n)) = (va + n) % PAGE_SIZE := by
    unfold alignDown u64 PAGE_SIZE
    omega
  have hrest : u64 (segmentSize + (2 ^ 64 - n)) = segmentSize - n := by
    unfold u64
    omega
  have hv' : view m d (vpn (u64 (va + n))) = some e := by rw [vpn_u64, hv]
  unfold Exaros.codeTail
  simp only [hoffset, hrest]
  rw [if_pos (by omega), h.edgePage_mapped hd hv', Loop.ok_bind]
  dsimp only
  rw [bzero_eq]
  rfl

/-- Zeros stored where there are zeros. -/
theorem codeByte_storeZeros {off len : Nat} (hd : d ∈ dirs) (hnt : ¬ IsTable m dirs y) (hfit : off + len ≤ PAGE_SIZE)
    (hzero : ∀ o, off ≤ o → o < off + len → loadByte m (y <<< PAGE_SHIFT + o) = 0) (a : Nat) :
    codeByte (storeBytes (y <<< PAGE_SHIFT + off) (List.replicate len 0) m) d a = codeByte m d a := by
  rw [codeByte_storeBytes hd hnt (by rw [List.length_replicate]; exact hfit)]
  split
  · next hin =>
    obtain ⟨⟨e, he, rfl⟩, hlow, hhigh⟩ := hin
    rw [List.length_replicate] at hhigh
    rw [codeByte_of_view he, hzero _ hlow hhigh, List.getElem?_replicate, if_pos (by omega)]
    rfl
  · rfl

/-- **The third phase** fills the page of the binary's end. -/
theorem FilledTo.tail (w : FilledTo img dirs d va binary j m m₁) (hd : d ∈ dirs) (hal : (va + binary.length) % PAGE_SIZE ≠ 0)
    (hj : (j = binary.length ∧ (va + binary.length) / PAGE_SIZE = va / PAGE_SIZE ∧ (view m₁ d (vpn va)).isSome) ∨
      j = binary.length + (PAGE_SIZE - (va + binary.length) % PAGE_SIZE))
    (hbin : binary.length ≤ segmentSize) (hseg : segmentSize < 2 ^ 32) (r : Nat) :
    ∃ r' m' j', Exaros.codeTail d va segmentSize binary.length r m₁ = .ok (some r', m') ∧
      r' = min (segmentSize - binary.length) (PAGE_SIZE - (va + binary.length) % PAGE_SIZE) ∧ FilledTo img dirs d va binary j' m m' ∧
      (j' = binary.length + r' ∨ j' = binary.length + (PAGE_SIZE - (va + binary.length) % PAGE_SIZE)) := by
  have hoff : (va + binary.length) % PAGE_SIZE < PAGE_SIZE := Nat.mod_lt _ (by decide)
  obtain ⟨r', hr'⟩ : ∃ r', r' = min (segmentSize - binary.length) (PAGE_SIZE - (va + binary.length) % PAGE_SIZE) := ⟨_, rfl⟩
  have hfit : (va + binary.length) % PAGE_SIZE + (List.replicate r' (0 : UInt8)).length ≤ PAGE_SIZE := by
    rw [List.length_replicate]
    omega
  rcases hj with ⟨rfl, hpage, hsome⟩ | hj
  · -- in the first page
    obtain ⟨e, he⟩ := Option.isSome_iff_exists.mp hsome
    have hv : view m₁ d (vpn (va + binary.length)) = some e := by rw [vpn_congr hpage, he]
    have hrun := w.inv.codeTail hd hv hal hbin hseg r
    rw [← hr'] at hrun
    obtain ⟨hinv, hview⟩ := w.inv.storePage hd hv hfit
    refine ⟨r', _, binary.length + r', hrun, hr', ⟨hinv, fun k hk => ?_, fun k hk hlater => ?_, ?_⟩, .inl rfl⟩
    · have hsame : vpn (va + k) = vpn (va + binary.length) := vpn_congr (by unfold PAGE_SIZE at *; omega)
      rw [codeByte_storeBytes hd (w.inv.leaf d hd _ e hv).2.1 hfit, List.length_replicate]
      rcases Nat.lt_or_ge k binary.length with hlt | hge
      · rw [if_neg (by unfold vaOffset PAGE_SIZE at *; omega)]
        exact w.byte k hlt
      · rw [if_pos ⟨⟨e, hsame ▸ hv, rfl⟩, by unfold vaOffset PAGE_SIZE at *; omega, by unfold vaOffset PAGE_SIZE at *; omega⟩,
          List.getElem?_replicate, if_pos (by unfold vaOffset PAGE_SIZE at *; omega), segmentByte_of_ge hge]
        rfl
    · rw [hview]
      exact w.later k hk (by unfold pagesFor PAGE_SIZE at *; omega)
    · rw [freePageList_storeBytes]
      have hfree := w.free
      unfold pagesFor PAGE_SIZE at *
      omega
  · -- in a page that is new
    have hlast := w.byte binary.length (by omega)
    obtain ⟨e, hv⟩ : ∃ e, view m₁ d (vpn (va + binary.length)) = some e := by
      cases hv : view m₁ d (vpn (va + binary.length)) with
      | none =>
        rw [codeByte_none hv] at hlast
        cases hlast
      | some e => exact ⟨e, rfl⟩
    have hrun := w.inv.codeTail hd hv hal hbin hseg r
    rw [← hr'] at hrun
    obtain ⟨hinv, hview⟩ := w.inv.storePage hd hv hfit
    have hzero : ∀ o, (va + binary.length) % PAGE_SIZE ≤ o → o < (va + binary.length) % PAGE_SIZE + r' →
        loadByte m₁ (pte2Ppn e <<< PAGE_SHIFT + o) = 0 := fun o hlow hhigh => by
      obtain ⟨k, hk⟩ : ∃ k, k = binary.length + (o - (va + binary.length) % PAGE_SIZE) := ⟨_, rfl⟩
      have hsame : vpn (va + k) = vpn (va + binary.length) := vpn_congr (by unfold PAGE_SIZE at *; omega)
      have ho : vaOffset (va + k) = o := by
        unfold vaOffset PAGE_SIZE at *
        omega
      have hbyte := w.byte k (by omega)
      rw [codeByte_of_view (hsame ▸ hv), segmentByte_of_ge (by omega), ho] at hbyte
      exact Option.some.inj hbyte
    have hbytes := codeByte_storeZeros hd (w.inv.leaf d hd _ e hv).2.1 (by omega) hzero
    refine ⟨r', _, j, hrun, hr', ⟨hinv, fun k hk => ?_, fun k hk hlater => ?_, ?_⟩, .inr hj⟩
    · rw [hbytes]
      exact w.byte k hk
    · rw [hview]
      exact w.later k hk hlater
    · rw [freePageList_storeBytes]
      exact w.free

/-- Where the binary ends on a page boundary there is no third phase. -/
theorem codeTail_aligned (hal : (va + n) % PAGE_SIZE = 0) (r : Nat) : Exaros.codeTail d va segmentSize n r m = .ok (some r, m) := by
  have hoffset : u64 (va + n) - alignDown (u64 (va + n)) = 0 := by
    unfold alignDown u64 PAGE_SIZE at *
    omega
  unfold Exaros.codeTail
  simp only [hoffset]
  rw [if_neg (Nat.lt_irrefl 0)]
  rfl

end Phases

/-! ## The segment -/

/-- The call returned 0, every page of the segment is mapped, and it holds the binary and zeros behind it. -/
structure LoadsWhole (d : Ppn) (va segmentSize : Nat) (binary : List UInt8) (r : Int) (m' : Mem) : Prop where
  ret : r = 0
  mapped : ∀ k < segmentSize, (view m' d (vpn (va + k))).isSome
  copied : ∀ k < binary.length, codeByte m' d (va + k) = binary[k]?
  zeroed : ∀ k, binary.length ≤ k → k < segmentSize → codeByte m' d (va + k) = some 0

/-- The binary does not end on a page boundary; or it is empty, or the whole segment; or it lies in the first page of the
segment, and the last page of the segment holds at least as many bytes. -/
def EndsWell (va segmentSize binSize : Nat) : Prop :=
  (va + binSize) % PAGE_SIZE ≠ 0 ∨ binSize = 0 ∨ segmentSize = binSize ∨
    binSize < PAGE_SIZE ∧ binSize ≤ (segmentSize - binSize - 1) % PAGE_SIZE

section Segment

variable {img : Image} {dirs : Finset Ppn} {m m₁ m' : Mem} {d : Ppn} {va i j r fuel segmentSize : Nat} {binary : List UInt8}

theorem FilledTo.whole (w : FilledTo img dirs d va binary j m m') (hj : segmentSize ≤ j) (hbin : binary.length ≤ segmentSize) :
    LoadsWhole d va segmentSize binary 0 m' where
  ret := rfl
  mapped := fun k hk => by
    have hbyte := w.byte k (by omega)
    cases hv : view m' d (vpn (va + k)) with
    | none =>
      rw [codeByte_none hv] at hbyte
      cases hbyte
    | some e => rfl
  copied := fun k hk => by
    rw [w.byte k (by omega)]
    unfold segmentByte
    rw [List.getElem?_eq_getElem hk]
    rfl
  zeroed := fun k hge hk => by rw [w.byte k (by omega), segmentByte_of_ge hge]

/-- **The fourth phase**: new pages from `va + i` on, with nothing in them. -/
theorem MemInv.codeZeroed (h : MemInv img m dirs) (hd : d ∈ dirs) (hseg : segmentSize < 2 ^ 32)
    (hmem : 3 * pagesFor (segmentSize - i) ≤ m.freePageList.length) (hfuel : segmentSize < fuel) (r : Nat) :
    ∃ x m', Exaros.codePages d va segmentSize (fun pa _ r => bzero pa r) fuel i r m = .ok (some x, m') ∧
      Covered img dirs d ((va + i) / PAGE_SIZE) (pagesFor (segmentSize - i)) (fun _ => 0) m m' := by
  have hzero : ∀ k, segmentByte [] k = 0 := fun k => segmentByte_of_ge (Nat.zero_le k)
  have hfill : ∀ pa i r (m : Mem), i + r ≤ segmentSize →
      bzero pa r m = storeBytes pa ((List.range r).map fun k => segmentByte [] (i + k)) m := fun pa i r m _ => by
    simp only [hzero]
    rw [bzero_eq, List.map_const', List.length_range]
  obtain ⟨r', m', hrun, -, hc⟩ := h.codePages (r := r) hd hfill rfl hseg hmem (by omega : segmentSize - i < fuel)
  simp only [hzero, ite_self] at hc
  exact ⟨_, m', hrun, hc⟩

/-- **`codeMapper`** loads a segment whole exactly when its binary does not end on a page boundary, or there is nothing to
copy or nothing to clear, or the last page of the segment hides what is left out. -/
theorem codeMapper_iff (h : MemInv img m dirs) (hd : d ∈ dirs) (hbin : binary.length ≤ segmentSize) (hseg : segmentSize < 2 ^ 32)
    (hfirst : ∀ k < segmentSize, (va + k) / PAGE_SIZE ≠ va / PAGE_SIZE → view m d (vpn (va + k)) = none)
    (hmem : 3 * pagesFor (va % PAGE_SIZE + segmentSize) ≤ m.freePageList.length) (hfuel : segmentSize < fuel) :
    ∃ r m', codeMapper fuel d va segmentSize binary m = .ok (r, m') ∧
      (LoadsWhole d va segmentSize binary r m' ↔ EndsWell va segmentSize binary.length) := by
  obtain ⟨r₁, m₁, r, j, m₂, hhead, hcopy, hw, haligned, hinside⟩ := h.codeCopied hd hbin hseg hmem hfuel
  have hrun : ∀ i r₃ r₄ m₃ m', Exaros.codeTail d va segmentSize binary.length r m₂ = .ok (some r₃, m₃) →
      Exaros.codePages d va segmentSize (fun pa _ r => bzero pa r) fuel (binary.length + r₃) r₃ m₃ = .ok (some (i, r₄), m') →
      codeMapper fuel d va segmentSize binary m = .ok (0, m') := fun i r₃ r₄ m₃ m' htail hzero => by
    unfold codeMapper
    simp only [hhead, hcopy, htail, hzero, Loop.ok_bind]
    rfl
  by_cases hal : (va + binary.length) % PAGE_SIZE = 0
  · obtain ⟨hj, hr⟩ := haligned hal
    rw [hj] at hw
    have hfree := hw.free
    have hmem' : 3 * pagesFor (segmentSize - (binary.length + r)) ≤ m₂.freePageList.length := by
      unfold pagesFor PAGE_SIZE at *
      omega
    obtain ⟨x, m', hzero, hc⟩ := hw.inv.codeZeroed hd hseg hmem' hfuel r
    refine ⟨0, m', hrun _ _ _ m₂ m' (codeTail_aligned hal r) hzero, fun hwhole => ?_, fun hends => ?_⟩
    · by_contra hno
      -- a page of the segment that is left out
      obtain ⟨k, hk, hdone, hout, hpage⟩ : ∃ k < segmentSize,
          va / PAGE_SIZE + pagesFor (va % PAGE_SIZE + binary.length) ≤ (va + k) / PAGE_SIZE ∧
          ((va + k) / PAGE_SIZE < (va + (binary.length + r)) / PAGE_SIZE ∨
            (va + (binary.length + r)) / PAGE_SIZE + pagesFor (segmentSize - (binary.length + r)) ≤ (va + k) / PAGE_SIZE) ∧
          (va + k) / PAGE_SIZE ≠ va / PAGE_SIZE := by
        unfold EndsWell at hno
        refine ⟨if PAGE_SIZE ≤ binary.length then binary.length else segmentSize - 1, ?_⟩
        unfold pagesFor PAGE_SIZE at *
        split
        · omega
        · omega
      have hnone : view m' d (vpn (va + k)) = none := by
        rw [hc.off (vpn (va + k)) fun a hlow hhigh => vpn_ne_of_near ?_ ?_ ?_]
        · rw [hw.later k (by omega) hdone]
          exact hfirst k hk hpage
        all_goals
          unfold pagesFor PAGE_SIZE at *
          omega
      have hsome := hwhole.mapped k hk
      rw [hnone] at hsome
      cases hsome
    · have hall := hw.covered hc (fun hpos => ⟨hal, ?_⟩) (by unfold pagesFor PAGE_SIZE at *; omega) fun k hlow _ => ?_
      · refine hall.whole ?_ hbin
        unfold EndsWell at hends
        unfold pagesFor PAGE_SIZE at *
        omega
      · unfold EndsWell at hends
        unfold pagesFor PAGE_SIZE at *
        omega
      · rw [segmentByte_of_ge hlow]
  · obtain ⟨r₃, m₃, j', htail, hr₃, hw', hj'⟩ := hw.tail hd hal (hinside hal) hbin hseg r
    have hfree := hw'.free
    have hmem' : 3 * pagesFor (segmentSize - (binary.length + r₃)) ≤ m₃.freePageList.length := by
      unfold pagesFor PAGE_SIZE at *
      omega
    obtain ⟨x, m', hzero, hc⟩ := hw'.inv.codeZeroed hd hseg hmem' hfuel r₃
    have hall := hw'.covered hc (fun hpos => ?_) (by unfold pagesFor PAGE_SIZE at *; omega) fun k hlow _ => ?_
    · refine ⟨0, m', hrun _ _ _ m₃ m' htail hzero, fun _ => .inl hal, fun _ => hall.whole ?_ hbin⟩
      unfold pagesFor PAGE_SIZE at *
      omega
    · have hend : j' = binary.length + r₃ ∧ (va + (binary.length + r₃)) % PAGE_SIZE = 0 := by
        unfold pagesFor PAGE_SIZE at *
        omega
      rw [hend.1]
      exact ⟨hend.2, rfl⟩
    · rw [segmentByte_of_ge (by omega)]

end Segment

/-- Three bytes at the beginning of two pages. -/
theorem codeMapper_three : ∃ dirs d m r m', MemInv Image.sample m dirs ∧ codeMapper 8193 d 0x1000 8192 [1, 2, 3] m = .ok (r, m') ∧
    LoadsWhole d 0x1000 8192 [1, 2, 3] r m' := by
  obtain ⟨dirs, d, m, hinv, hd, -, hlen, hempty⟩ := exists_emptyProcess
  have hmem : 3 * pagesFor (0x1000 % PAGE_SIZE + 8192) ≤ m.freePageList.length := Nat.le_trans (by decide) hlen
  have hbin : ([1, 2, 3] : List UInt8).length ≤ 8192 := by decide
  obtain ⟨r, m', hrun, hiff⟩ := codeMapper_iff hinv hd hbin (by decide) (fun k _ _ => hempty _) hmem (Nat.lt_succ_self 8192)
  exact ⟨dirs, d, m, r, m', hinv, hrun, hiff.mpr (.inl (by decide))⟩

/-- Behind a full page of the binary a page is left out. -/
theorem codeMapper_leaves_out : ¬ ∀ dirs d va segmentSize binary fuel m r m', MemInv Image.sample m dirs → d ∈ dirs →
    binary.length ≤ segmentSize → segmentSize < 2 ^ 32 →
    (∀ k < segmentSize, (va + k) / PAGE_SIZE ≠ va / PAGE_SIZE → view m d (vpn (va + k)) = none) →
    3 * pagesFor (va % PAGE_SIZE + segmentSize) ≤ m.freePageList.length → segmentSize < fuel →
    codeMapper fuel d va segmentSize binary m = .ok (r, m') → LoadsWhole d va segmentSize binary r m' := by
  intro hall
  obtain ⟨dirs, d, m, hinv, hd, -, hlen, hempty⟩ := exists_emptyProcess
  have hmem : 3 * pagesFor (0x1000 % PAGE_SIZE + 8192) ≤ m.freePageList.length := Nat.le_trans (by decide) hlen
  have hsize : (List.replicate 4096 (1 : UInt8)).length = 4096 := List.length_replicate
  have hbin : (List.replicate 4096 (1 : UInt8)).length ≤ 8192 := by rw [hsize]; decide
  have hfirst : ∀ k < 8192, (0x1000 + k) / PAGE_SIZE ≠ 0x1000 / PAGE_SIZE → view m d (vpn (0x1000 + k)) = none := fun k _ _ => hempty _
  obtain ⟨r, m', hrun, hiff⟩ := codeMapper_iff hinv hd hbin (by decide) hfirst hmem (Nat.lt_succ_self 8192)
  have hends := hiff.mp (hall dirs d 0x1000 8192 _ 8193 m r m' hinv hd hbin (by decide) hfirst hmem (Nat.lt_succ_self 8192) hrun)
  unfold EndsWell at hends
  rw [hsize] at hends
  exact absurd hends (by decide)

end Exaros
